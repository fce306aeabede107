import MarkupTree.Proofs.Query.Texts
import MarkupTree.Rendering

/-!
# What tags are put around

A table of tags puts tags around content and nothing else. So what it makes of a tree falls into
pieces, tags in pairs around the texts of the tree, and the texts are all there, once each and in
document order, whichever elements have tags.
-/

set_option autoImplicit false

namespace MarkupTree

namespace Rendering

/-- A text of the tree, or one of the two tags around an element. -/
inductive Piece
  | text (content : String)
  | opening (tag : String)
  | closing (tag : String)

namespace Piece

def written : Piece → String
  | .text content => content
  | .opening tag => "<" ++ tag ++ ">"
  | .closing tag => "</" ++ tag ++ ">"

def text? : Piece → Option String
  | .text content => some content
  | .opening _ => none
  | .closing _ => none

def tag? : Piece → Option String
  | .text _ => none
  | .opening tag => some tag
  | .closing tag => some tag

end Piece

/-- Pieces whose tags are properly nested: every opening tag is followed by such pieces and then by
the closing tag of the same name. -/
inductive Nested : List Piece → Prop
  | nil : Nested []
  | text (content : String) : Nested [.text content]
  | append {ps qs : List Piece} : Nested ps → Nested qs → Nested (ps ++ qs)
  | enclosed (tag : String) {ps : List Piece} :
      Nested ps → Nested (.opening tag :: ps ++ [.closing tag])

/-- Properly nested pieces in which no pair of tags stands around nothing: what is written between
the two is not empty. -/
inductive Filled : List Piece → Prop
  | nil : Filled []
  | text (content : String) : Filled [.text content]
  | append {ps qs : List Piece} : Filled ps → Filled qs → Filled (ps ++ qs)
  | enclosed (tag : String) {ps : List Piece} : Filled ps → String.join (ps.map Piece.written) ≠ "" →
      Filled (.opening tag :: ps ++ [.closing tag])

/-- The tags of a table that has nothing but tags. -/
def tags (entries : Dictionary TableEntry) : List String :=
  entries.entries.filterMap fun e =>
    match e.2 with
    | .tag t => some t
    | .render _ => none

/-- A table without functions. -/
def OnlyTags (entries : Dictionary TableEntry) : Prop :=
  ∀ e ∈ entries.entries, ∃ t, e.2 = .tag t

/-- A way to read a text as these texts with tags of a table around them. -/
structure Splits (entries : Dictionary TableEntry) (out : String) (texts : List String)
    (pieces : List Piece) : Prop where
  written : out = String.join (pieces.map Piece.written)
  nested : Nested pieces
  listed : ∀ t ∈ pieces.filterMap Piece.tag?, t ∈ tags entries
  texts : pieces.filterMap Piece.text? = texts

variable {entries : Dictionary TableEntry} {out out' : String} {texts texts' : List String}
variable {ps qs : List Piece}

namespace Splits

theorem empty : Splits entries "" [] [] := ⟨rfl, .nil, nofun, rfl⟩

theorem ofText (content : String) : Splits entries content [content] [.text content] := by
  refine ⟨?_, .text content, nofun, rfl⟩
  simp [Piece.written]

theorem append (h : Splits entries out texts ps) (h' : Splits entries out' texts' qs) :
    Splits entries (out ++ out') (texts ++ texts') (ps ++ qs) := by
  refine ⟨?_, h.nested.append h'.nested, ?_, ?_⟩
  · rw [h.written, h'.written, List.map_append, String.join_append]
  · intro t ht
    rw [List.filterMap_append, List.mem_append] at ht
    exact ht.elim (h.listed t) (h'.listed t)
  · rw [List.filterMap_append, h.texts, h'.texts]

theorem enclosed {t : String} (ht : t ∈ tags entries) (h : Splits entries out texts ps) :
    Splits entries ("<" ++ t ++ ">" ++ out ++ "</" ++ t ++ ">") texts
      (.opening t :: ps ++ [.closing t]) := by
  refine ⟨?_, .enclosed t h.nested, ?_, ?_⟩
  · rw [h.written]
    simp [Piece.written, String.join_append, String.append_assoc]
  · have hlisted := h.listed
    simpa [Piece.tag?, ht, or_imp, forall_and] using hlisted
  · change List.filterMap Piece.text? (ps ++ [.closing t]) = texts
    rw [List.filterMap_append, h.texts]
    exact List.append_nil texts

end Splits

theorem exists_entry_of_find? {o : RenderOptions} {scope : Scope} {name : String}
    {entry : TableEntry} (h : Mapping.find? entries o scope name = some entry) :
    ∃ key, (key, entry) ∈ entries.entries := by
  have hget : ∃ key, entries.get? key = some entry := by
    rcases Option.or_eq_some_iff.mp h with hown | ⟨-, hwildcard⟩
    · obtain ⟨key, -, hkey⟩ := Option.bind_eq_some_iff.mp hown
      exact ⟨key, hkey⟩
    · exact ⟨wildcard, hwildcard⟩
  obtain ⟨key, hkey⟩ := hget
  obtain ⟨before, after, hentries, -⟩ := List.lookup_eq_some_iff.mp hkey
  exact ⟨key, by simp [hentries]⟩

theorem wrap_table (o : RenderOptions) (scope : Scope) (name : String) (attributes : Attributes) :
    wrap (.table entries) o scope name attributes out =
      match Mapping.find? entries o scope name with
      | none => out
      | some entry =>
        if o.skipEmpty && out.isEmpty then out else entry.apply ⟨out, attributes, some name⟩ :=
  rfl

theorem exists_filled_wrap (htags : OnlyTags entries) (o : RenderOptions) (scope : Scope)
    (name : String) (attributes : Attributes) (h : Splits entries out texts ps)
    (hfilled : o.skipEmpty = true → Filled ps) :
    ∃ qs, Splits entries (wrap (.table entries) o scope name attributes out) texts qs ∧
      (o.skipEmpty = true → Filled qs) := by
  rw [wrap_table]
  cases hfind : Mapping.find? entries o scope name with
  | none => exact ⟨ps, h, hfilled⟩
  | some entry =>
    obtain ⟨key, hentry⟩ := exists_entry_of_find? hfind
    obtain ⟨t, rfl⟩ : ∃ t, entry = .tag t := htags _ hentry
    have ht : t ∈ tags entries := List.mem_filterMap.mpr ⟨_, hentry, rfl⟩
    cases hskip : o.skipEmpty && out.isEmpty with
    | true => exact ⟨ps, h, hfilled⟩
    | false =>
      refine ⟨_, h.enclosed ht, fun ho => .enclosed t (hfilled ho) ?_⟩
      rw [← h.written]
      simpa [ho] using hskip

mutual

theorem exists_filled_fragment (htags : OnlyTags entries) (o : RenderOptions) (outer : Scope) :
    (f : Fragment) → ∃ ps, Splits entries (fragment (.table entries) o outer f) f.texts ps ∧
      (o.skipEmpty = true → Filled ps)
  | .text content => by
    rw [fragment, Fragment.texts]
    exact ⟨_, .ofText content, fun _ => .text content⟩
  | .element name attributes children => by
    rw [fragment, Fragment.texts]
    obtain ⟨ps, hps, hfilled⟩ :=
      exists_filled_fragments htags o (outer.extend attributes) children
    exact exists_filled_wrap htags o (outer.extend attributes) name attributes hps hfilled

theorem exists_filled_fragments (htags : OnlyTags entries) (o : RenderOptions) (outer : Scope) :
    (fs : List Fragment) →
      ∃ ps, Splits entries (fragments (.table entries) o outer fs) (Fragment.textsOf fs) ps ∧
        (o.skipEmpty = true → Filled ps)
  | [] => ⟨[], .empty, fun _ => .nil⟩
  | f :: rest => by
    rw [fragments, Fragment.textsOf]
    obtain ⟨ps, hps, hfilled⟩ := exists_filled_fragment htags o outer f
    obtain ⟨qs, hqs, hfilled'⟩ := exists_filled_fragments htags o outer rest
    exact ⟨ps ++ qs, hps.append hqs, fun ho => (hfilled ho).append (hfilled' ho)⟩

end

theorem exists_splits_fragment (htags : OnlyTags entries) (o : RenderOptions) (outer : Scope)
    (f : Fragment) : ∃ ps, Splits entries (fragment (.table entries) o outer f) f.texts ps := by
  obtain ⟨ps, hps, -⟩ := exists_filled_fragment htags o outer f
  exact ⟨ps, hps⟩

/-- A table of tags keeps the text of a tree: what it makes of a tree is the texts of the tree, as
`//text()` finds them, each once and in their order, with nested tags of the table around them. -/
theorem render_splits_into_texts {o : RenderOptions} {root : Fragment}
    (hroot : root.isElement = true) (hne : entries.isEmpty = false)
    (htags : OnlyTags entries) (hcheck : (Mapping.table entries).check o = .ok ()) :
    ∃ out pieces values p, (Tree.ofRoot root).render (.table entries) o = .ok out ∧
      Splits entries out values pieces ∧ String.join values = root.stringValue ∧
      Path.compile "//text()" = .ok p ∧
      ∀ declared, p.evaluate (Tree.ofRoot root) declared = .ok (values.map .text) := by
  obtain ⟨pieces, hpieces⟩ := exists_splits_fragment htags o Scope.empty root
  obtain ⟨p, hp, hevaluate⟩ := evaluate_texts hroot
  refine ⟨_, pieces, root.texts, p, ?_, hpieces, root.stringValue_eq_join.symm, hp, hevaluate⟩
  simp only [Tree.render, hcheck, Tree.ofRoot, hne]
  rfl

/-- A wildcard, and an element that is skipped. -/
theorem render_splits_into_texts_skipped :
    let entries : Dictionary TableEntry := Dictionary.ofList [("b", .tag "y"), ("*", .tag "x")]
    let o : RenderOptions := ⟨[], true⟩
    let root := Fragment.element "p" Dictionary.empty
      [.text "a", .element "b" Dictionary.empty [], .element "b" Dictionary.empty [.text "c"]]
    root.isElement = true ∧ entries.isEmpty = false ∧ OnlyTags entries ∧
      (Mapping.table entries).check o = .ok () ∧
      (Tree.ofRoot root).render (.table entries) o = .ok "<x>a<y>c</y></x>" ∧
      ∃ pieces values, Splits entries "<x>a<y>c</y></x>" values pieces ∧
        String.join values = "ac" := by
  intro entries o root
  have hroot : root.isElement = true := rfl
  have hne : entries.isEmpty = false := rfl
  have htags : OnlyTags entries := by
    change ∀ e ∈ [("*", TableEntry.tag "x"), ("b", .tag "y")], ∃ t, e.2 = .tag t
    simp
  have hcheck : (Mapping.table entries).check o = .ok () := rfl
  have hrender : (Tree.ofRoot root).render (.table entries) o = .ok "<x>a<y>c</y></x>" := rfl
  obtain ⟨out, pieces, values, -, hout, hsplits, hjoin, -⟩ :=
    render_splits_into_texts hroot hne htags hcheck
  rw [hrender] at hout
  cases hout
  exact ⟨hroot, hne, htags, hcheck, hrender, pieces, values, hsplits, hjoin⟩

end Rendering

end MarkupTree

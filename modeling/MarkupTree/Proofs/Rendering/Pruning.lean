import MarkupTree.Proofs.Query.DocumentOrder
import MarkupTree.Proofs.Rendering.Pieces

/-!
# Skipping empty elements prunes the tree

Whether an element is skipped is decided on its content when that has been rendered, and an element
with nothing but skipped elements in it is skipped in turn. For a table of tags this depends on the
tree alone: what is skipped are the elements without text, wherever they stand. So skipping renders
the tree as if these elements had been removed from it before.
-/

set_option autoImplicit false

namespace MarkupTree

namespace Fragment

/-- An element without any text below it. -/
def isHollow (f : Fragment) : Bool := f.isElement && f.stringValue.isEmpty

mutual

/-- A fragment without the hollow elements below it. -/
def pruned : Fragment → Fragment
  | .element name attributes children => .element name attributes (prunedAll children)
  | .text content => .text content

def prunedAll : List Fragment → List Fragment
  | [] => []
  | f :: rest => if f.isHollow then prunedAll rest else pruned f :: prunedAll rest

end

theorem prunedAll_eq_map_filter (fs : List Fragment) :
    prunedAll fs = (fs.filter fun f => !f.isHollow).map pruned := by
  induction fs with
  | nil => rfl
  | cons f rest ih =>
    rw [prunedAll, List.filter_cons, ih]
    cases f.isHollow <;> rfl

theorem isElement_pruned (f : Fragment) : f.pruned.isElement = f.isElement := by
  cases f with
  | element =>
    rw [pruned]
    rfl
  | text => rw [pruned]

theorem children_pruned (f : Fragment) : f.pruned.children = prunedAll f.children := by
  cases f with
  | element => rw [pruned, children, children]
  | text => rw [pruned, children, prunedAll]

theorem stringValue_of_isHollow {f : Fragment} (h : f.isHollow = true) : f.stringValue = "" := by
  simp only [isHollow, Bool.and_eq_true, String.isEmpty_iff] at h
  exact h.2

theorem stringValues_ne_empty {name : String} {attributes : Attributes} {children : List Fragment}
    (h : (Fragment.element name attributes children).isHollow = false) :
    stringValues children ≠ "" := by
  intro hempty
  have hvalue : (Fragment.element name attributes children).stringValue = "" := by
    rw [stringValue, hempty]
  simp [isHollow, isElement, name?, hvalue] at h

mutual

theorem stringValue_pruned : (f : Fragment) → f.pruned.stringValue = f.stringValue
  | .element name attributes children => by
    rw [pruned, stringValue, stringValue]
    exact stringValues_prunedAll children
  | .text content => by rw [pruned]

theorem stringValues_prunedAll : (fs : List Fragment) →
    stringValues (prunedAll fs) = stringValues fs
  | [] => by rw [prunedAll]
  | f :: rest => by
    rw [prunedAll, stringValues]
    split
    · next h =>
      rw [stringValue_of_isHollow h, String.empty_append]
      exact stringValues_prunedAll rest
    · rw [stringValues, stringValue_pruned f, stringValues_prunedAll rest]

end

theorem isHollow_pruned (f : Fragment) : f.pruned.isHollow = f.isHollow := by
  rw [isHollow, isHollow, isElement_pruned, stringValue_pruned]

end Fragment

theorem Node.exists_pruned_of_mem_subtree {n m : Node} (h : m ∈ n.subtree)
    (hn : ∃ f : Fragment, f.isHollow = false ∧ n.fragment = f.pruned) :
    ∃ f : Fragment, f.isHollow = false ∧ m.fragment = f.pruned := by
  refine downward (P := fun n => ∃ f : Fragment, f.isHollow = false ∧ n.fragment = f.pruned) ?_ hn h
  rintro n ⟨f, -, hf⟩ c hc
  obtain ⟨i, g, hg, rfl⟩ := mem_children_iff.mp hc
  rw [hf, Fragment.children_pruned, Fragment.prunedAll_eq_map_filter] at hg
  obtain ⟨g, hkept, rfl⟩ := List.mem_map.mp (List.mem_of_getElem? hg)
  exact ⟨g, by simpa using (List.mem_filter.mp hkept).2, rfl⟩

namespace Tree

/-- The tree without its hollow elements. -/
def pruned (t : Tree) : Tree := ⟨(t.root.filter fun f => !f.isHollow).map Fragment.pruned⟩

def texts (t : Tree) : List String := t.root.elim [] Fragment.texts

theorem pruned_ofRoot (root : Fragment) :
    (ofRoot root).pruned = if root.isHollow then Tree.empty else ofRoot root.pruned := by
  rw [pruned, ofRoot, Option.filter_some]
  cases root.isHollow <;> rfl

theorem not_isHollow_of_mem_nodes_pruned {t : Tree} {n : Node} (h : n ∈ t.pruned.nodes) :
    n.fragment.isHollow = false := by
  cases hroot : t.root.filter fun f => !f.isHollow with
  | none =>
    simp only [pruned, hroot, nodes, Option.map_none] at h
    cases h
  | some root =>
    simp only [pruned, hroot, nodes, Option.map_some] at h
    have hkept : root.isHollow = false := by
      simpa using (Option.filter_eq_some_iff.mp hroot).2
    obtain ⟨f, hf, hn⟩ := Node.exists_pruned_of_mem_subtree h ⟨root, hkept, rfl⟩
    rw [hn, Fragment.isHollow_pruned, hf]

theorem stringValue_pruned (t : Tree) : t.pruned.stringValue = t.stringValue := by
  obtain ⟨root⟩ := t
  cases root with
  | none => rfl
  | some root =>
    change (ofRoot root).pruned.stringValue = root.stringValue
    rw [pruned_ofRoot]
    split
    · next h => exact (Fragment.stringValue_of_isHollow h).symm
    · exact Fragment.stringValue_pruned root

end Tree

namespace Rendering

variable {entries : Dictionary TableEntry}

theorem join_eq_empty_iff {texts : List String} :
    String.join texts = "" ↔ ∀ text ∈ texts, text = "" := by
  induction texts with
  | nil => simp
  | cons text rest ih => simp [String.join_cons, ih]

theorem Splits.join_eq_empty {texts : List String} {pieces : List Piece}
    (h : Splits entries "" texts pieces) : String.join texts = "" := by
  have hwritten := join_eq_empty_iff.mp h.written.symm
  rw [← h.texts, join_eq_empty_iff]
  intro text htext
  obtain ⟨piece, hpiece, hcontent⟩ := List.mem_filterMap.mp htext
  cases piece with
  | text content =>
    cases hcontent
    exact hwritten _ (List.mem_map_of_mem hpiece)
  | opening => cases hcontent
  | closing => cases hcontent

theorem stringValues_eq_empty (htags : OnlyTags entries) {o : RenderOptions} {outer : Scope}
    {fs : List Fragment} (h : fragments (.table entries) o outer fs = "") :
    Fragment.stringValues fs = "" := by
  obtain ⟨pieces, hpieces, -⟩ := exists_filled_fragments htags o outer fs
  rw [h] at hpieces
  rw [Fragment.stringValues_eq_join]
  exact hpieces.join_eq_empty

theorem wrap_empty {o : RenderOptions} (ho : o.skipEmpty = true) (scope : Scope) (name : String)
    (attributes : Attributes) : wrap (.table entries) o scope name attributes "" = "" := by
  rw [wrap_table, ho]
  cases Mapping.find? entries o scope name <;> rfl

mutual

theorem fragment_eq_empty {o : RenderOptions} (ho : o.skipEmpty = true) (outer : Scope) :
    (f : Fragment) → f.stringValue = "" → fragment (.table entries) o outer f = ""
  | .text content, h => by
    rw [Fragment.stringValue] at h
    rw [fragment, h]
  | .element name attributes children, h => by
    rw [Fragment.stringValue] at h
    rw [fragment, fragments_eq_empty ho (outer.extend attributes) children h, wrap_empty ho]

theorem fragments_eq_empty {o : RenderOptions} (ho : o.skipEmpty = true) (outer : Scope) :
    (fs : List Fragment) →
      Fragment.stringValues fs = "" → fragments (.table entries) o outer fs = ""
  | [], _ => by rw [fragments]
  | f :: rest, h => by
    rw [Fragment.stringValues, String.append_eq_empty_iff] at h
    rw [fragments, fragment_eq_empty ho outer f h.1, fragments_eq_empty ho outer rest h.2,
      String.empty_append]

end

variable {declared : List Declaration}

theorem wrap_of_ne_empty {content : String} (h : content ≠ "") (scope : Scope) (name : String)
    (attributes : Attributes) :
    wrap (.table entries) ⟨declared, true⟩ scope name attributes content =
      wrap (.table entries) ⟨declared, false⟩ scope name attributes content := by
  have hempty : content.isEmpty = false := by simpa using h
  simp only [wrap_table, hempty, Bool.and_false]
  rfl

mutual

/-- What has text is rendered with skipping as it is rendered pruned without. -/
theorem fragment_skipping (htags : OnlyTags entries) (outer : Scope) :
    (f : Fragment) → f.isHollow = false →
      fragment (.table entries) ⟨declared, true⟩ outer f =
        fragment (.table entries) ⟨declared, false⟩ outer f.pruned
  | .text content, _ => by rw [Fragment.pruned, fragment, fragment]
  | .element name attributes children, h => by
    -- The element has content, so its entry is used with either option.
    have hcontent : fragments (.table entries) ⟨declared, true⟩ (outer.extend attributes) children ≠
        "" :=
      mt (stringValues_eq_empty htags) (Fragment.stringValues_ne_empty h)
    rw [Fragment.pruned, fragment, fragment, wrap_of_ne_empty hcontent,
      fragments_skipping htags (outer.extend attributes) children]

theorem fragments_skipping (htags : OnlyTags entries) (outer : Scope) :
    (fs : List Fragment) →
      fragments (.table entries) ⟨declared, true⟩ outer fs =
        fragments (.table entries) ⟨declared, false⟩ outer (Fragment.prunedAll fs)
  | [] => by rw [Fragment.prunedAll, fragments, fragments]
  | f :: rest => by
    rw [Fragment.prunedAll, fragments, fragments_skipping htags outer rest]
    cases h : f.isHollow with
    | true =>
      rw [fragment_eq_empty rfl outer f (Fragment.stringValue_of_isHollow h), String.empty_append,
        if_pos rfl]
    | false => rw [fragment_skipping htags outer f h, if_neg Bool.false_ne_true, fragments]

end

end Rendering

open Rendering

theorem Tree.render_table {entries : Dictionary TableEntry} {o : RenderOptions}
    (hne : entries.isEmpty = false) (hcheck : (Mapping.table entries).check o = .ok ()) (t : Tree) :
    t.render (.table entries) o =
      .ok (t.root.elim "" (fragment (.table entries) o Scope.empty)) := by
  obtain ⟨root⟩ := t
  simp only [render, hcheck]
  cases root with
  | none => rfl
  | some root =>
    simp only [hne]
    rfl

/-- Skipping empty elements with a table of tags. A tree without text is rendered as nothing. Any other
tree is rendered as it is without its hollow elements and without skipping, and then every element has
content. So what is rendered falls into the texts of the tree and tags in pairs, none of them around
nothing. -/
theorem render_skipping {entries : Dictionary TableEntry} {declared : List Declaration}
    (htags : OnlyTags entries) (hne : entries.isEmpty = false)
    (hcheck : (Mapping.table entries).check ⟨declared, true⟩ = .ok ()) (t : Tree) :
    ∃ out, t.render (.table entries) ⟨declared, true⟩ = .ok out ∧
      (t.stringValue = "" → out = "") ∧
      (t.stringValue ≠ "" → t.pruned.render (.table entries) ⟨declared, false⟩ = .ok out) ∧
      (∀ n ∈ t.pruned.nodes, n.fragment.isElement = true →
        fragments (.table entries) ⟨declared, false⟩ n.scope n.fragment.children ≠ "") ∧
      ∃ pieces, Splits entries out t.texts pieces ∧ Filled pieces := by
  have hfilled : ∀ n ∈ t.pruned.nodes, n.fragment.isElement = true →
      fragments (.table entries) ⟨declared, false⟩ n.scope n.fragment.children ≠ "" := by
    intro n hn helement
    have hhollow := Tree.not_isHollow_of_mem_nodes_pruned hn
    obtain ⟨address, f, scope⟩ := n
    cases f with
    | text => cases helement
    | element => exact mt (stringValues_eq_empty htags) (Fragment.stringValues_ne_empty hhollow)
  rw [Tree.render_table hne hcheck, Tree.render_table hne (o := ⟨declared, false⟩) hcheck]
  obtain ⟨root⟩ := t
  cases root with
  | none => exact ⟨_, rfl, fun _ => rfl, fun h => absurd rfl h, hfilled, [], .empty, .nil⟩
  | some root =>
    refine ⟨_, rfl, fragment_eq_empty rfl Scope.empty root, ?_, hfilled, ?_⟩
    · intro htext
      have hroot : root.isHollow = false := by
        rw [← Bool.not_eq_true]
        exact mt Fragment.stringValue_of_isHollow htext
      change Except.ok ((Tree.ofRoot root).pruned.root.elim _ _) = _
      rw [Tree.pruned_ofRoot, hroot]
      exact congrArg Except.ok (fragment_skipping htags Scope.empty root hroot).symm
    · obtain ⟨pieces, hpieces, hfilled⟩ :=
        exists_filled_fragment htags ⟨declared, true⟩ Scope.empty root
      exact ⟨pieces, hpieces, hfilled rfl⟩

/-- An element in a namespace with nothing in it but an element and an empty text, which is skipped
after the element in it, and another one that keeps its text. -/
theorem render_skipping_cascade :
    let entries : Dictionary TableEntry := Dictionary.ofList [("p:b", .tag "y"), ("*", .tag "x")]
    let declared : List Declaration := [⟨some "p", "urn:p"⟩]
    let b (fs : List Fragment) := Fragment.element "q:b" Dictionary.empty fs
    let c := Fragment.element "c" Dictionary.empty []
    let t := Tree.ofRoot (.element "r" (Dictionary.ofList [("xmlns:q", "urn:p")])
      [.text "a", b [c, .text ""], b [b [], .text "1"]])
    OnlyTags entries ∧ entries.isEmpty = false ∧
      (Mapping.table entries).check ⟨declared, true⟩ = .ok () ∧ t.stringValue = "a1" ∧
      t.render (.table entries) ⟨declared, true⟩ = .ok "<x>a<y>1</y></x>" ∧
      t.pruned.render (.table entries) ⟨declared, false⟩ = .ok "<x>a<y>1</y></x>" ∧
      ∃ pieces, Splits entries "<x>a<y>1</y></x>" ["a", "", "1"] pieces ∧ Filled pieces := by
  intro entries declared b c t
  have htags : OnlyTags entries := by
    change ∀ e ∈ [("*", TableEntry.tag "x"), ("p:b", .tag "y")], ∃ t, e.2 = .tag t
    simp
  have hne : entries.isEmpty = false := rfl
  have hcheck : (Mapping.table entries).check ⟨declared, true⟩ = .ok () := rfl
  have hvalue : t.stringValue = "a1" := by decide +kernel
  have hrender : t.render (.table entries) ⟨declared, true⟩ = .ok "<x>a<y>1</y></x>" := rfl
  obtain ⟨out, hout, -, hpruned, -, pieces, hpieces, hfilled⟩ := render_skipping htags hne hcheck t
  rw [hrender] at hout
  cases hout
  have htext : t.stringValue ≠ "" := by
    rw [hvalue]
    decide
  exact ⟨htags, hne, hcheck, hvalue, hrender, hpruned htext, pieces, hpieces, hfilled⟩

end MarkupTree

import MarkupTree.Proofs.Json.Canonical
import MarkupTree.Query.Result
import MarkupTree.Tree.Form

/-!
# Values that write a tree

A fragment is read from its kind and its fields, not from the order in which an object lists them.
So it is read alike from its JSON form and from the canonical form of that, and so are trees and
results.
-/

set_option autoImplicit false

namespace MarkupTree

open Json

theorem Dictionary.eq_empty_of_isEmpty {α : Type} {d : Dictionary α} (h : d.isEmpty = true) :
    d = Dictionary.empty :=
  Dictionary.ext (List.isEmpty_iff.mp h)

namespace Fragment

def Kind.name : Kind → String
  | .element => "element"
  | .text => "text"

theorem Kind.ofName?_name (k : Kind) : Kind.ofName? k.name = some k := by
  cases k <;> rfl

def kind : Fragment → Kind
  | .element _ _ _ => .element
  | .text _ => .text

/-- The entries of a fragment behind the one that tells its kind. -/
def fields : Fragment → List (String × Json)
  | .text content => [("text", .text content)]
  | .element name attributes children =>
    ("name", .text name) ::
      ((if attributes.isEmpty then [] else [("attributes", attributesJson attributes)]) ++
        (if children.isEmpty then [] else [("elements", .array (listToJson children))]))

theorem toJson_eq (f : Fragment) :
    f.toJson = .object (("type", .text f.kind.name) :: f.fields) := by
  cases f with
  | text content => rw [toJson, fields, kind, Kind.name]
  | element name attributes children =>
    rw [toJson, fields, kind, Kind.name]
    simp only [List.cons_append, List.nil_append]

theorem attributesOf?_attributesJson (attributes : Attributes) :
    attributesOf? (attributesJson attributes) = some attributes := by
  have htexts : (attributes.entries.map fun e => (e.1, Json.text e.2)).mapM
      (fun e => e.2.text?.map fun s => (e.1, s)) = some attributes.entries := by
    induction attributes.entries with
    | nil => rfl
    | cons e entries ih =>
      rw [List.map_cons, List.mapM_cons, ih]
      rfl
  rw [attributesJson, attributesOf?, htexts]
  exact congrArg some (Dictionary.ofList_entries attributes)

theorem canonical_attributesJson (attributes : Attributes) :
    (attributesJson attributes).canonical = attributesJson attributes := by
  have hsorted : (attributes.entries.map fun e => (e.1, Json.text e.2)).Pairwise
      fun a b => a.1 < b.1 := List.pairwise_map.mpr attributes.sorted
  rw [attributesJson, canonical, canonicalEntries_of_sorted hsorted, List.map_map]
  simp [canonical]

theorem childLists_eq (entries : List (String × Json)) :
    childLists entries = (valuesOf "elements" entries).map childrenOf? := by
  induction entries with
  | nil => rw [childLists]; rfl
  | cons e entries ih =>
    by_cases hkey : "elements" = e.1
    · obtain ⟨key, v⟩ := e
      subst hkey
      rw [childLists, if_pos rfl, valuesOf_cons_self, ih, List.map_cons]
    · rw [childLists, if_neg (Ne.symm hkey), valuesOf_cons_of_ne hkey, ih]

theorem ofParts?_element {entries : List (String × Json)} {name : String}
    {attributes : Attributes} (hname : valuesOf "name" entries = [.text name])
    (hattributes : valuesOf "attributes" entries =
      if attributes.isEmpty then [] else [attributesJson attributes]) (children : List Fragment) :
    ofParts? .element entries (if children.isEmpty then [] else [some children]) =
      some (.element name attributes children) := by
  have htext : textOf? "name" entries = some name := by
    rw [textOf?, hname]
    rfl
  have hread := attributesOf?_attributesJson attributes
  by_cases hempty : attributes.isEmpty
  · have heq := Dictionary.eq_empty_of_isEmpty hempty
    simp only [ofParts?, htext, hattributes, if_pos hempty]
    cases children <;> simp [heq]
  · simp only [ofParts?, htext, hattributes, if_neg hempty, hread]
    cases children <;> simp

mutual

/-- Entries that hold the fields of a fragment once each, in whatever order and among whatever
other entries. -/
inductive Fields : List (String × Json) → Fragment → Prop
  | text {entries : List (String × Json)} {content : String} :
      valuesOf "text" entries = [.text content] → Fields entries (.text content)
  | element {entries : List (String × Json)} {name : String} {attributes : Attributes}
      {items : List Json} {children : List Fragment} :
      valuesOf "name" entries = [.text name] →
      valuesOf "attributes" entries =
        (if attributes.isEmpty then [] else [attributesJson attributes]) →
      valuesOf "elements" entries = (if children.isEmpty then [] else [.array items]) →
      WriteAll items children → Fields entries (.element name attributes children)

/-- A value that writes a fragment: an object with its kind and its fields. -/
inductive Writes : Json → Fragment → Prop
  | object {entries : List (String × Json)} {f : Fragment} :
      valuesOf "type" entries = [.text f.kind.name] → Fields entries f →
      Writes (.object entries) f

inductive WriteAll : List Json → List Fragment → Prop
  | nil : WriteAll [] []
  | cons {v : Json} {items : List Json} {f : Fragment} {fs : List Fragment} :
      Writes v f → WriteAll items fs → WriteAll (v :: items) (f :: fs)

end

mutual

-- The recursion is on the derivation: the fields of a fragment, then each of its children.
theorem ofEntries?_of_fields {entries : List (String × Json)} :
    (f : Fragment) → Fields entries f → ofEntries? f.kind entries = some f
  | .text content, .text htext => by
    simp [ofEntries?, kind, ofParts?, textOf?, htext, Json.text?]
  | .element name attributes children, .element hname hattributes helements hchildren => by
    have hread := listOfJson?_of_writeAll children hchildren
    have hlists : childLists entries = if children.isEmpty then [] else [some children] := by
      rw [childLists_eq, helements]
      cases children with
      | nil => rfl
      | cons f fs => simp [childrenOf?, hread]
    rw [ofEntries?, kind, hlists]
    exact ofParts?_element hname hattributes children

theorem ofJson?_of_writes {v : Json} : (f : Fragment) → Writes v f → ofJson? v = some f
  | f, .object htype hfields => by
    have hread := ofEntries?_of_fields f hfields
    simp only [ofJson?, htype, Kind.ofJson?, Kind.ofName?_name]
    exact hread

theorem listOfJson?_of_writeAll {items : List Json} :
    (fs : List Fragment) → WriteAll items fs → listOfJson? items = some fs
  | [], .nil => by rw [listOfJson?]
  | f :: fs, .cons hv hitems => by
    rw [listOfJson?, ofJson?_of_writes f hv, listOfJson?_of_writeAll fs hitems]
    rfl

end

theorem ofRootJson?_of_writes {v : Json} {f : Fragment} (h : Writes v f) :
    ofRootJson? v = some f := by
  cases h with
  | object htype hfields =>
    have hread := ofEntries?_of_fields f hfields
    simp only [ofRootJson?, textOf?, htype, Json.text?]
    rw [Option.bind_eq_bind, Option.bind_some, Kind.ofName?_name]
    exact hread

theorem mapM_ofRootJson?_of_writeAll {items : List Json} {fs : List Fragment}
    (h : WriteAll items fs) : items.mapM ofRootJson? = some fs := by
  induction fs generalizing items with
  | nil =>
    cases h
    rfl
  | cons f fs ih =>
    cases h with
    | cons hv hitems =>
      rw [List.mapM_cons, ofRootJson?_of_writes hv, ih hitems]
      rfl

theorem Fields.cons {entries : List (String × Json)} {f : Fragment}
    (h : Fields entries f) (v : Json) : Fields (("type", v) :: entries) f := by
  cases h with
  | text htext => exact .text htext
  | element hname hattributes helements hchildren =>
    exact .element hname hattributes helements hchildren

theorem writes_toJson_of_fields {f : Fragment} (h : Fields f.fields f) : Writes f.toJson f := by
  have htype : valuesOf "type" f.fields = [] := by
    cases f with
    | text content => rfl
    | element name attributes children =>
      rw [fields]
      split <;> split <;> rfl
  rw [toJson_eq]
  refine .object ?_ (h.cons _)
  rw [valuesOf_cons_self, htype]

mutual

theorem fields_fields : (f : Fragment) → Fields f.fields f
  | .text content => .text rfl
  | .element name attributes children => by
    have hchildren := writeAll_listToJson children
    rw [fields]
    refine .element ?_ ?_ ?_ hchildren <;> split <;> split <;> rfl

theorem writeAll_listToJson : (fs : List Fragment) → WriteAll (listToJson fs) fs
  | [] => by
    rw [listToJson]
    exact .nil
  | f :: fs => by
    rw [listToJson]
    exact .cons (writes_toJson_of_fields (fields_fields f)) (writeAll_listToJson fs)

end

mutual

theorem Fields.canonical {entries : List (String × Json)} :
    (f : Fragment) → Fields entries f → Fields (canonicalEntries [] entries) f
  | .text content, .text htext => by
    refine .text ?_
    rw [valuesOf_canonicalEntries_once (by simp [htext]), htext]
    rfl
  | .element name attributes children, .element hname hattributes helements hchildren => by
    have hitems := WriteAll.canonical children hchildren
    refine .element ?_ ?_ ?_ hitems
    · rw [valuesOf_canonicalEntries_once (by simp [hname]), hname]
      rfl
    · rw [valuesOf_canonicalEntries_once (by rw [hattributes]; split <;> simp), hattributes]
      split
      · rfl
      · rw [List.map_singleton, canonical_attributesJson]
    · rw [valuesOf_canonicalEntries_once (by rw [helements]; split <;> simp), helements]
      split <;> rfl

theorem Writes.canonical {v : Json} : (f : Fragment) → Writes v f → Writes v.canonical f
  | f, .object htype hfields => by
    refine .object ?_ (Fields.canonical f hfields)
    rw [valuesOf_canonicalEntries_once (by simp [htype]), htype]
    rfl

theorem WriteAll.canonical {items : List Json} :
    (fs : List Fragment) → WriteAll items fs → WriteAll (canonicalItems items) fs
  | [], .nil => .nil
  | f :: fs, .cons hv hitems => .cons (Writes.canonical f hv) (WriteAll.canonical fs hitems)

end

theorem listToJson_eq_map (fs : List Fragment) : listToJson fs = fs.map toJson := by
  induction fs with
  | nil => rw [listToJson, List.map_nil]
  | cons f fs ih => rw [listToJson, List.map_cons, ih]

end Fragment

open Fragment (WriteAll)

namespace Tree

theorem writeAll_roots (t : Tree) : WriteAll (t.root.toList.map Fragment.toJson) t.root.toList := by
  rw [← Fragment.listToJson_eq_map]
  exact Fragment.writeAll_listToJson t.root.toList

theorem canonical_toJson (t : Tree) :
    t.toJson.canonical =
      .object [("elements", .array (canonicalItems (t.root.toList.map Fragment.toJson)))] :=
  rfl

theorem head?_roots (t : Tree) : (⟨t.root.toList.head?⟩ : Tree) = t := by
  cases t with
  | mk root => cases root <;> rfl

theorem ofJson?_of_writeAll {items : List Json} {t : Tree} (h : WriteAll items t.root.toList) :
    Tree.ofJson? (.object [("elements", .array items)]) = some t := by
  have hvalues : valuesOf "elements" [("elements", .array items)] = [.array items] := rfl
  have hroots := Fragment.mapM_ofRootJson?_of_writeAll h
  simp only [Tree.ofJson?, hvalues, hroots]
  exact congrArg some t.head?_roots

theorem ofJson?_toJson (t : Tree) : Tree.ofJson? t.toJson = some t :=
  ofJson?_of_writeAll t.writeAll_roots

theorem ofJson?_canonical_toJson (t : Tree) : Tree.ofJson? t.toJson.canonical = some t := by
  rw [canonical_toJson]
  exact ofJson?_of_writeAll (WriteAll.canonical _ t.writeAll_roots)

end Tree

namespace Result

theorem ofJson?_of_writeAll {items : List Json} {t : Tree} (h : WriteAll items t.root.toList) :
    Result.ofJson? (.object [("elements", .array items)]) = some (.tree t) := by
  have hvalues : valuesOf "elements" [("elements", .array items)] = [.array items] := rfl
  have hroots := Fragment.listOfJson?_of_writeAll _ h
  simp only [Result.ofJson?, hvalues, hroots]
  exact congrArg (some ∘ Result.tree) t.head?_roots

theorem ofJson?_toJson (r : Result) : Result.ofJson? r.toJson = some r := by
  cases r with
  | tree t => exact ofJson?_of_writeAll t.writeAll_roots
  | text value => rfl

theorem ofJson?_canonical_toJson (r : Result) : Result.ofJson? r.toJson.canonical = some r := by
  cases r with
  | tree t =>
    rw [toJson, Tree.canonical_toJson]
    exact ofJson?_of_writeAll (WriteAll.canonical _ t.writeAll_roots)
  | text value => rfl

end Result

end MarkupTree

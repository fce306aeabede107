import Mathlib.Data.List.TakeWhile
import MarkupTree.Construction
import MarkupTree.Proofs.Namespace.Chain

/-!
# A scope in other forms

A scope can be written as declarations or as attributes, and either form makes the same scope again.
An element that is built from declarations and attributes has the scope that the declarations make
and the attributes extend. In all of these forms of the several values of a qualifier the last one
counts, so that they are compared qualifier by qualifier.
-/

set_option autoImplicit false

namespace MarkupTree

namespace Text

theorem trim_ne_nil {cs : List Char} (h : ∃ c ∈ cs, isBlank c = false) : trim cs ≠ [] := by
  obtain ⟨c, hc, hblank⟩ := h
  intro htrim
  rw [trim, List.reverse_eq_nil_iff, List.dropWhile_eq_nil_iff] at htrim
  rw [← List.takeWhile_append_dropWhile (p := isBlank) (l := cs), List.mem_append] at hc
  rcases hc with hc | hc
  · rw [List.mem_takeWhile_imp hc] at hblank
    cases hblank
  · rw [htrim c (List.mem_reverse.mpr hc)] at hblank
    cases hblank

end Text

namespace Declaration

/-- A declaration as a qualifier and its URI. -/
def binding (d : Declaration) : Option String × String := (d.qualifier, d.uri)

/-- The value that the last declaration of a qualifier gives. -/
def lastUri? (ds : List Declaration) (qualifier : Option String) : Option String :=
  (ds.map binding).reverse.lookup qualifier

theorem lookup_map_keyFor (entries : List (Option String × String)) (qualifier : Option String) :
    (entries.map fun e => (keyFor e.1, e.2)).lookup (keyFor qualifier) =
      entries.lookup qualifier :=
  Dictionary.lookup_map_keys keyFor_inj.mp entries qualifier

theorem map_key_eq (ds : List Declaration) :
    (ds.map fun d => (d.key, d.uri)) = (ds.map binding).map fun e => (keyFor e.1, e.2) := by
  simp [binding, key_eq_keyFor, Function.comp_def]

theorem get?_ofList_keys (ds : List Declaration) (qualifier : Option String) :
    (Dictionary.ofList (ds.map fun d => (d.key, d.uri))).get? (keyFor qualifier) =
      lastUri? ds qualifier := by
  rw [Dictionary.ofList, Dictionary.get?_insertAll, Dictionary.get?_empty, Option.or_none,
    map_key_eq, ← List.map_reverse, lookup_map_keyFor, lastUri?]

end Declaration

namespace Scope

open Declaration

/-- The scopes that declarations make, and those inside elements that stand in such a scope. -/
inductive Reachable : Scope → Prop
  | ofDeclarations (ds : List Declaration) : Reachable (Scope.ofDeclarations ds)
  | extend {s : Scope} (h : Reachable s) (attributes : Attributes) :
      Reachable (s.extend attributes)

theorem uri?_bindAll (s : Scope) (ds : List Declaration) (qualifier : Option String) :
    (s.bindAll ds).uri? qualifier =
      ((lastUri? ds qualifier).map (settled qualifier)).getD (s.uri? qualifier) := by
  induction ds generalizing s with
  | nil => rfl
  | cons d ds ih =>
    obtain ⟨other, uri⟩ := d
    rw [bindAll_cons, ih, uri?_bind, lastUri?, lastUri?, List.map_cons, List.reverse_cons,
      List.lookup_append]
    cases (ds.map binding).reverse.lookup qualifier with
    | some later => rfl
    | none =>
      by_cases h : qualifier = other
      · simp [binding, h]
      · simp [binding, List.lookup_cons, beq_eq_false_iff_ne.mpr h, Ne.symm h]

theorem uri?_ofDeclarations (ds : List Declaration) (qualifier : Option String) :
    (ofDeclarations ds).uri? qualifier =
      ((lastUri? ds qualifier).map (settled qualifier)).getD none := by
  rw [ofDeclarations, uri?_bindAll, empty_uri?]

theorem proper_ofDeclarations (ds : List Declaration) : (ofDeclarations ds).Proper := by
  intro qualifier uri h
  rw [uri?_ofDeclarations] at h
  cases hlast : lastUri? ds qualifier with
  | none =>
    rw [hlast] at h
    cases h
  | some declared =>
    rw [hlast] at h
    exact settled_idem h

theorem Reachable.proper {s : Scope} (h : s.Reachable) : s.Proper := by
  induction h with
  | ofDeclarations ds => exact proper_ofDeclarations ds
  | extend _ attributes ih => exact ih.extend attributes

theorem declarations_ne (s : Scope) :
    (s.declarations.map binding).Pairwise fun a b => a.1 ≠ b.1 := by
  have hbindings : (s.bindings.entries.map fun e => ((some e.1, e.2) : Option String × String)).Pairwise
      fun a b => a.1 ≠ b.1 := by
    apply List.pairwise_map.mpr
    exact s.bindings.keys_ne.imp fun hne heq => hne (Option.some.inj heq)
  have hall : s.declarations.map binding = (s.defaultUri.toList.map fun uri => (none, uri)) ++
      s.bindings.entries.map fun e => (some e.1, e.2) := by
    simp [declarations, binding, Function.comp_def]
  rw [hall]
  cases s.defaultUri with
  | none => exact hbindings
  | some uri =>
    apply List.pairwise_cons.mpr
    refine ⟨?_, hbindings⟩
    intro e he
    obtain ⟨_, -, rfl⟩ := List.mem_map.mp he
    exact (Option.some_ne_none _).symm

theorem lastUri?_declarations (s : Scope) (qualifier : Option String) :
    lastUri? s.declarations qualifier = s.uri? qualifier := by
  rw [lastUri?, Dictionary.lookup_reverse s.declarations_ne, ← attributeEntries_lookup_keyFor,
    attributeEntries, map_key_eq, lookup_map_keyFor]

theorem Proper.settled_uri? {s : Scope} (hs : s.Proper) (qualifier : Option String) :
    ((s.uri? qualifier).map (settled qualifier)).getD none = s.uri? qualifier := by
  cases h : s.uri? qualifier with
  | none => rfl
  | some uri => exact hs qualifier uri h

theorem Proper.ofDeclarations_declarations {s : Scope} (hs : s.Proper) :
    Scope.ofDeclarations s.declarations = s := by
  apply ext_uri?
  intro qualifier
  rw [uri?_ofDeclarations, lastUri?_declarations, hs.settled_uri?]

theorem Proper.empty_extend_attributeEntries {s : Scope} (hs : s.Proper) :
    Scope.empty.extend (Dictionary.ofList s.attributeEntries) = s := by
  apply ext_uri?
  intro qualifier
  rw [uri?_extend, attributeEntries, get?_ofList_keys, lastUri?_declarations, empty_uri?,
    hs.settled_uri?]

end Scope

namespace Blueprint

open Declaration

/-- The attributes that are given outright, as the texts that are stored for them. -/
def givenAttributes (b : Blueprint) : Attributes :=
  Dictionary.ofList (b.attributes.entries.map fun e => (e.1, e.2.attributeText))

theorem get?_allAttributes (b : Blueprint) (qualifier : Option String) :
    b.allAttributes.get? (keyFor qualifier) =
      (b.givenAttributes.get? (keyFor qualifier)).or (lastUri? b.declarations qualifier) := by
  rw [allAttributes, Dictionary.get?_insertAll, get?_ofList_keys, givenAttributes,
    Dictionary.ofList, Dictionary.get?_insertAll, Dictionary.get?_empty, Option.or_none]

theorem extend_allAttributes (b : Blueprint) :
    Scope.empty.extend b.allAttributes =
      (Scope.ofDeclarations b.declarations).extend b.givenAttributes := by
  apply Scope.ext_uri?
  intro qualifier
  rw [Scope.uri?_extend, Scope.uri?_extend, get?_allAttributes, Scope.uri?_ofDeclarations,
    Scope.empty_uri?]
  cases b.givenAttributes.get? (keyFor qualifier) <;> rfl

end Blueprint

namespace Scope

/-- The forms of a scope agree. A reachable scope is made again by its declarations, and by its
attributes on an element outside of all scopes. The root of a tree that is built from declarations and
attributes has the scope of the declarations, extended by the attributes. -/
theorem forms_agree :
    (∀ s : Scope, s.Reachable →
      ofDeclarations s.declarations = s ∧
      Scope.empty.extend (Dictionary.ofList s.attributeEntries) = s) ∧
    ∀ (name : String) (b : Blueprint), (∃ c ∈ name.toList, Text.isBlank c = false) →
      ∃ root, Tree.create name b = .ok (Tree.ofRoot root) ∧
        Scope.empty.enter root = (ofDeclarations b.declarations).extend b.givenAttributes := by
  constructor
  · intro s hs
    exact ⟨hs.proper.ofDeclarations_declarations, hs.proper.empty_extend_attributeEntries⟩
  · intro name b hname
    have htrim : (Text.trim name.toList).isEmpty = false :=
      List.isEmpty_eq_false_iff.mpr (Text.trim_ne_nil hname)
    refine ⟨.element name b.allAttributes (b.content.filterMap Content.fragment?), ?_, ?_⟩
    · simp [Tree.create, htrim]
    · exact b.extend_allAttributes

/-- A scope with the empty qualifier, a qualifier of an empty URI and a default namespace that was
taken away; and an element for which qualifiers are declared twice, the default namespace is taken away
by a declaration, and attributes bind qualifiers anew, one of them to a value that is no text. -/
theorem forms_agree_conflicting :
    let s := (ofDeclarations [⟨none, "urn:a"⟩, ⟨some "", "urn:e"⟩, ⟨some "p", "urn:p"⟩,
      ⟨some "p", ""⟩]).extend (Dictionary.ofList [("id", "1"), ("xmlns", "")])
    let b : Blueprint := ⟨Dictionary.ofList [("id", .bool true), ("xmlns:p", .array [.bool true]),
      ("xmlns:q", .text "urn:q")], [⟨none, "urn:a"⟩, ⟨some "p", "urn:p"⟩, ⟨some "q", "urn:r"⟩,
      ⟨none, ""⟩, ⟨some "p", "urn:r"⟩, ⟨some "", "urn:e"⟩], []⟩
    s.Reachable ∧ ofDeclarations s.declarations = s ∧
      Scope.empty.extend (Dictionary.ofList s.attributeEntries) = s ∧
      s.declarations = [⟨some "", "urn:e"⟩, ⟨some "p", ""⟩] ∧
      (∃ c ∈ " r".toList, Text.isBlank c = false) ∧
      ∃ root, Tree.create " r" b = .ok (Tree.ofRoot root) ∧
        (Scope.empty.enter root).declarations =
          [⟨some "", "urn:e"⟩, ⟨some "p", "[true]"⟩, ⟨some "q", "urn:q"⟩] := by
  intro s b
  have hs : s.Reachable := (Reachable.ofDeclarations _).extend _
  have hname : ∃ c ∈ " r".toList, Text.isBlank c = false := ⟨'r', by decide, by decide⟩
  obtain ⟨hdeclarations, hattributes⟩ := forms_agree.1 s hs
  obtain ⟨root, hcreate, hscope⟩ := forms_agree.2 " r" b hname
  refine ⟨hs, hdeclarations, hattributes, by decide, hname, root, hcreate, ?_⟩
  rw [hscope]
  decide +kernel

end Scope

end MarkupTree

import MarkupTree.Proofs.Namespace.Extension

/-!
# Chains of declarations

The scope at a place comes from the attributes of all elements on the way there. Whatever is
declared, taken away and declared again on that way, of every key the last value counts. So a whole
chain of elements makes the scope that one element with all their attributes makes.
-/

set_option autoImplicit false

namespace MarkupTree

namespace Dictionary

variable {α : Type}

/-- The value of a key in the last of some dictionaries that has it. -/
def last? : List (Dictionary α) → String → Option α
  | [], _ => none
  | d :: later, key => (last? later key).or (d.get? key)

/-- The last of some dictionaries that has a key has this value for it. -/
def LastValue (chain : List (Dictionary α)) (key : String) (value : α) : Prop :=
  ∃ earlier d later, chain = earlier ++ d :: later ∧ d.get? key = some value ∧
    ∀ e ∈ later, e.get? key = none

/-- All entries of some dictionaries; where two have the same key, the later one counts. -/
def mergeAll (chain : List (Dictionary α)) : Dictionary α :=
  chain.foldl (fun d e => d.insertAll e.entries) Dictionary.empty

theorem last?_eq_none_iff {chain : List (Dictionary α)} {key : String} :
    last? chain key = none ↔ ∀ d ∈ chain, d.get? key = none := by
  induction chain with
  | nil => simp [last?]
  | cons d later ih =>
    rw [last?, Option.or_eq_none_iff, ih, List.forall_mem_cons]
    exact and_comm

theorem last?_eq_some_iff {chain : List (Dictionary α)} {key : String} {value : α} :
    last? chain key = some value ↔ LastValue chain key value := by
  induction chain with
  | nil =>
    constructor
    · intro h
      cases h
    · rintro ⟨earlier, d, later, h, -⟩
      cases earlier <;> cases h
  | cons d later ih =>
    rw [last?, Option.or_eq_some_iff, ih, last?_eq_none_iff]
    constructor
    · rintro (⟨earlier, e, rest, rfl, hvalue, hrest⟩ | ⟨hlater, hvalue⟩)
      · exact ⟨d :: earlier, e, rest, rfl, hvalue, hrest⟩
      · exact ⟨[], d, later, rfl, hvalue, hlater⟩
    · rintro ⟨earlier, e, rest, h, hvalue, hrest⟩
      cases earlier with
      | nil =>
        cases h
        exact .inr ⟨hrest, hvalue⟩
      | cons f earlier =>
        cases h
        exact .inl ⟨earlier, e, rest, rfl, hvalue, hrest⟩

theorem get?_insertAll (d : Dictionary α) (entries : List (String × α)) (k : String) :
    (d.insertAll entries).get? k = (entries.reverse.lookup k).or (d.get? k) := by
  induction entries generalizing d with
  | nil => rfl
  | cons e entries ih =>
    change ((d.insert e.1 e.2).insertAll entries).get? k = _
    rw [ih, get?_insert, List.reverse_cons, List.lookup_append, Option.or_assoc]
    congr 1
    by_cases hk : k = e.1
    · rw [if_pos hk, hk, List.lookup_cons_self, Option.some_or]
    · rw [if_neg hk, lookup_cons_of_ne hk]
      rfl

theorem lookup_reverse {κ : Type} [BEq κ] [LawfulBEq κ] {l : List (κ × α)}
    (hl : l.Pairwise fun a b => a.1 ≠ b.1) (k : κ) : l.reverse.lookup k = l.lookup k := by
  induction l with
  | nil => rfl
  | cons e l ih =>
    rw [List.pairwise_cons] at hl
    rw [List.reverse_cons, List.lookup_append, ih hl.2]
    by_cases hk : k = e.1
    · have hnone : l.lookup k = none := by
        rw [List.lookup_eq_none_iff]
        intro e' he'
        exact bne_iff_ne.mpr (hk ▸ hl.1 e' he')
      rw [hnone, Option.none_or, hk, List.lookup_cons_self, List.lookup_cons_self]
    · rw [lookup_cons_of_ne hk, lookup_cons_of_ne hk, List.lookup_nil, Option.or_none]

theorem keys_ne (d : Dictionary α) : d.entries.Pairwise fun a b => a.1 ≠ b.1 :=
  d.sorted.imp String.ne_of_lt

theorem get?_insertAll_entries (d e : Dictionary α) (k : String) :
    (d.insertAll e.entries).get? k = (e.get? k).or (d.get? k) := by
  rw [get?_insertAll, lookup_reverse e.keys_ne]
  rfl

theorem get?_mergeAll (chain : List (Dictionary α)) (k : String) :
    (mergeAll chain).get? k = last? chain k := by
  have hfrom : ∀ d : Dictionary α, (chain.foldl (fun d e => d.insertAll e.entries) d).get? k =
      (last? chain k).or (d.get? k) := by
    induction chain with
    | nil =>
      intro d
      rfl
    | cons e later ih =>
      intro d
      rw [List.foldl_cons, ih, get?_insertAll_entries, last?, Option.or_assoc]
  rw [mergeAll, hfrom, get?_empty, Option.or_none]

end Dictionary

namespace Declaration

theorem anyAmong_eq_false_iff {attributes : Attributes} :
    anyAmong attributes = false ↔ ∀ qualifier, attributes.get? (keyFor qualifier) = none := by
  rw [anyAmong, List.any_eq_false]
  constructor
  · intro h qualifier
    rw [Dictionary.get?, List.lookup_eq_none_iff]
    intro e he
    apply bne_iff_ne.mpr
    intro heq
    apply h e.1 (List.mem_map_of_mem he)
    rw [isKey_eq_isSome, ← heq, declared?_keyFor]
    rfl
  · intro h key hkey hdeclares
    rw [isKey_eq_isSome] at hdeclares
    obtain ⟨qualifier, hqualifier⟩ := Option.isSome_iff_exists.mp hdeclares
    obtain ⟨e, he, rfl⟩ := List.mem_map.mp hkey
    have hnone := h qualifier
    rw [← (declared?_eq_some_iff e.1 qualifier).mp hqualifier, Dictionary.get?,
      List.lookup_eq_none_iff] at hnone
    exact bne_iff_ne.mp (hnone e he) rfl

end Declaration

namespace Scope

open Declaration Dictionary

theorem uri?_foldl_extend (s : Scope) (chain : List Attributes) (qualifier : Option String) :
    (chain.foldl extend s).uri? qualifier =
      ((last? chain (keyFor qualifier)).map (settled qualifier)).getD (s.uri? qualifier) := by
  induction chain generalizing s with
  | nil => rfl
  | cons attributes later ih =>
    rw [List.foldl_cons, ih, uri?_extend, last?]
    cases last? later (keyFor qualifier) <;> rfl

/-- A chain of elements declares what one element with all their attributes declares. -/
theorem foldl_extend_eq_extend_mergeAll (s : Scope) (chain : List Attributes) :
    chain.foldl extend s = s.extend (mergeAll chain) := by
  apply ext_uri?
  intro qualifier
  rw [uri?_foldl_extend, uri?_extend, get?_mergeAll]

theorem lookup?_foldl_extend (chain : List Attributes) (q : String) :
    (chain.foldl extend Scope.empty).lookup? q = last? chain (qualifiedKey q) := by
  have h := uri?_foldl_extend Scope.empty chain (some q)
  rw [empty_uri?] at h
  change (chain.foldl extend Scope.empty).lookup? q =
    ((last? chain (qualifiedKey q)).map some).getD none at h
  rw [h]
  cases last? chain (qualifiedKey q) <;> rfl

theorem defaultUri_foldl_extend (chain : List Attributes) :
    (chain.foldl extend Scope.empty).defaultUri =
      (last? chain defaultKey).bind (settled none) := by
  have h := uri?_foldl_extend Scope.empty chain none
  rw [empty_uri?] at h
  change (chain.foldl extend Scope.empty).defaultUri =
    ((last? chain defaultKey).map (settled none)).getD none at h
  rw [h]
  cases last? chain defaultKey <;> rfl

theorem settled_none_eq_some_iff {uri uri' : String} :
    settled none uri = some uri' ↔ uri' ≠ "" ∧ uri = uri' := by
  rw [settled]
  by_cases h : uri = ""
  · rw [if_pos h]
    constructor
    · intro h
      cases h
    · rintro ⟨hne, rfl⟩
      exact absurd h hne
  · rw [if_neg h, Option.some.injEq]
    constructor
    · rintro rfl
      exact ⟨h, rfl⟩
    · exact And.right

theorem settled_none_eq_none_iff {uri : String} : settled none uri = none ↔ uri = "" := by
  simp [settled]

/-- The nearest declaration counts along every chain of elements: of a qualifier the last one, of the
default namespace the last one unless it takes the namespace away. The chain is worth one element
with all attributes merged. Attributes whose keys show that nothing is declared leave every scope as
it is, and the keys show it whenever nothing is declared. -/
theorem nearest_declaration_counts (chain : List Attributes) :
    let s := chain.foldl extend Scope.empty
    (∀ q uri, s.lookup? q = some uri ↔ LastValue chain (qualifiedKey q) uri) ∧
    (∀ q, s.lookup? q = none ↔ ∀ attributes ∈ chain, attributes.get? (qualifiedKey q) = none) ∧
    (∀ uri, s.defaultUri = some uri ↔ uri ≠ "" ∧ LastValue chain defaultKey uri) ∧
    (s.defaultUri = none ↔ LastValue chain defaultKey "" ∨
      ∀ attributes ∈ chain, attributes.get? defaultKey = none) ∧
    s = Scope.empty.extend (mergeAll chain) ∧
    ∀ attributes : Attributes,
      (anyAmong attributes = false ↔ ∀ qualifier, attributes.get? (keyFor qualifier) = none) ∧
      (anyAmong attributes = false → ∀ outer : Scope,
        (∀ q, (outer.extend attributes).lookup? q = outer.lookup? q) ∧
        (outer.extend attributes).defaultUri = outer.defaultUri ∧
        ∀ name, (outer.extend attributes).resolve? name = outer.resolve? name) := by
  intro s
  refine ⟨?_, ?_, ?_, ?_, foldl_extend_eq_extend_mergeAll _ chain, ?_⟩
  · intro q uri
    rw [lookup?_foldl_extend, last?_eq_some_iff]
  · intro q
    rw [lookup?_foldl_extend, last?_eq_none_iff]
  · intro uri
    rw [defaultUri_foldl_extend, Option.bind_eq_some_iff]
    simp only [settled_none_eq_some_iff, last?_eq_some_iff]
    constructor
    · rintro ⟨_, hlast, hne, rfl⟩
      exact ⟨hne, hlast⟩
    · rintro ⟨hne, hlast⟩
      exact ⟨uri, hlast, hne, rfl⟩
  · rw [defaultUri_foldl_extend, ← last?_eq_none_iff, ← last?_eq_some_iff]
    cases last? chain defaultKey with
    | none => simp
    | some uri => simp [settled_none_eq_none_iff]
  · intro attributes
    refine ⟨anyAmong_eq_false_iff, ?_⟩
    intro h outer
    have hsame : outer.extend attributes = outer := by
      rw [extend_eq_bindAll, ofAttributes_eq_nil h, bindAll_nil]
    rw [hsame]
    exact ⟨fun _ => rfl, rfl, fun _ => rfl⟩

/-- A default namespace taken away, declared again and taken away again, a qualifier bound anew, and
keys that only look like declarations. -/
theorem nearest_declaration_counts_undeclared :
    let chain : List Attributes := [Dictionary.ofList [("xmlns", "urn:a"), ("xmlns:p", "urn:p")],
      Dictionary.ofList [("id", "1"), ("xmlns", "")],
      Dictionary.ofList [("xmlns", "urn:b"), ("xmlns:p", "urn:q")], Dictionary.ofList [("xmlns", "")]]
    let s := chain.foldl extend Scope.empty
    let plain : Attributes := Dictionary.ofList [("p", "urn:r"), ("xml:p", "urn:r"), ("xmlnsp", "")]
    anyAmong plain = false ∧ s.lookup? "p" = some "urn:q" ∧ s.lookup? "q" = none ∧
      s.defaultUri = none ∧ mergeAll chain =
        Dictionary.ofList [("id", "1"), ("xmlns", ""), ("xmlns:p", "urn:q")] ∧
      s = Scope.empty.extend (mergeAll chain) ∧
      (s.extend plain).lookup? "p" = s.lookup? "p" ∧ (s.extend plain).resolve? "x" = s.resolve? "x" := by
  intro chain s plain
  obtain ⟨hlookup, hnone, -, hdefault, hmerge, hplain⟩ := nearest_declaration_counts chain
  have hform : anyAmong plain = false := by decide
  obtain ⟨hlookups, -, hresolve⟩ := (hplain plain).2 hform s
  refine ⟨hform, (hlookup "p" "urn:q").mpr ?_, (hnone "q").mpr (by decide), hdefault.mpr (.inl ?_),
    by decide, hmerge, hlookups "p", hresolve "x"⟩
  · exact ⟨[_, _], _, [_], rfl, by decide, by decide⟩
  · exact ⟨[_, _, _], _, [], rfl, by decide, by decide⟩

end Scope

end MarkupTree

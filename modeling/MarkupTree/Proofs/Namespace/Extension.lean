import Mathlib.Data.List.Infix
import MarkupTree.Query.Result

/-!
# Declaring a scope again

What an element declares goes before what is in scope around it. So an element that declares all
that is in scope inside it, where it does not declare anything itself, has the same scope in every
place: this is how a matched element is taken out of its tree.
-/

set_option autoImplicit false

namespace MarkupTree

namespace Dictionary

variable {α : Type}

theorem lookup_eq_none_of_lt {k : String} {l : List (String × α)} (h : ∀ e ∈ l, k < e.1) :
    l.lookup k = none := by
  rw [List.lookup_eq_none_iff]
  intro e he
  exact bne_iff_ne.mpr (String.ne_of_lt (h e he))

section Keys

variable {κ κ' : Type} [BEq κ] [LawfulBEq κ] [BEq κ'] [LawfulBEq κ']

theorem lookup_cons_of_ne {k : κ} {e : κ × α} (h : k ≠ e.1) (l : List (κ × α)) :
    (e :: l).lookup k = l.lookup k := by
  obtain ⟨key, value⟩ := e
  simp [List.lookup_cons, beq_eq_false_iff_ne.mpr h]

theorem lookup_map_keys {f : κ → κ'} (hf : ∀ {k k'}, f k = f k' → k = k') (entries : List (κ × α))
    (k : κ) : (entries.map fun e => (f e.1, e.2)).lookup (f k) = entries.lookup k := by
  induction entries with
  | nil => rfl
  | cons e entries ih =>
    rw [List.map_cons]
    by_cases hk : k = e.1
    · rw [hk, List.lookup_cons_self, List.lookup_cons_self]
    · rw [lookup_cons_of_ne hk, lookup_cons_of_ne fun h => hk (hf h), ih]

end Keys

theorem lookup_cons_of_lt {k : String} {e : String × α} {l : List (String × α)} (hk : k < e.1)
    (hl : ∀ e' ∈ l, e.1 < e'.1) : (e :: l).lookup k = none := by
  apply lookup_eq_none_of_lt
  refine List.forall_mem_cons.mpr ⟨hk, ?_⟩
  intro e' he'
  exact String.lt_trans hk (hl e' he')

theorem eq_of_lookup_eq {l m : List (String × α)} (hl : l.Pairwise fun a b => a.1 < b.1)
    (hm : m.Pairwise fun a b => a.1 < b.1) (h : ∀ k, l.lookup k = m.lookup k) : l = m := by
  induction l generalizing m with
  | nil =>
    cases m with
    | nil => rfl
    | cons e m =>
      have he := h e.1
      rw [List.lookup_cons_self] at he
      cases he
  | cons e l ih =>
    cases m with
    | nil =>
      have he := h e.1
      rw [List.lookup_cons_self] at he
      cases he
    | cons e' m =>
      rw [List.pairwise_cons] at hl hm
      have hlt : ¬ e.1 < e'.1 := by
        intro hlt
        have he := h e.1
        rw [List.lookup_cons_self, lookup_cons_of_lt hlt hm.1] at he
        cases he
      have hgt : ¬ e'.1 < e.1 := by
        intro hgt
        have he := h e'.1
        rw [List.lookup_cons_self, lookup_cons_of_lt hgt hl.1] at he
        cases he
      have hkey : e.1 = e'.1 := String.le_antisymm (String.not_lt.mp hgt) (String.not_lt.mp hlt)
      have hvalue := h e.1
      rw [List.lookup_cons_self, hkey, List.lookup_cons_self] at hvalue
      have hrest : l = m := by
        apply ih hl.2 hm.2
        intro k
        by_cases hk : k = e.1
        · rw [hk, lookup_eq_none_of_lt hl.1, hkey, lookup_eq_none_of_lt hm.1]
        · have hlookup := h k
          rwa [lookup_cons_of_ne hk, lookup_cons_of_ne (hkey ▸ hk)] at hlookup
      rw [hrest, Prod.ext hkey (Option.some.inj hvalue)]

@[ext] theorem ext_get? {d e : Dictionary α} (h : ∀ k, d.get? k = e.get? k) : d = e :=
  ext (eq_of_lookup_eq d.sorted e.sorted h)

theorem get?_insertAllNew (d : Dictionary α) (entries : List (String × α)) (k : String) :
    (d.insertAllNew entries).get? k = (d.get? k).or (entries.lookup k) := by
  induction entries generalizing d with
  | nil => simp [insertAllNew]
  | cons e entries ih =>
    obtain ⟨key, value⟩ := e
    change ((d.insertNew key value).insertAllNew entries).get? k = _
    rw [ih, get?_insertNew]
    by_cases hk : k = key
    · subst hk
      cases d.get? k <;> simp
    · rw [if_neg hk, lookup_cons_of_ne hk]

end Dictionary

namespace Declaration

/-- The name of the attribute that declares a qualifier, or the default namespace. -/
def keyFor : Option String → String
  | none => defaultKey
  | some q => qualifiedKey q

theorem key_eq_keyFor (d : Declaration) : d.key = keyFor d.qualifier := by
  obtain ⟨qualifier, uri⟩ := d
  cases qualifier <;> rfl

theorem toList_qualifiedKey (q : String) :
    (qualifiedKey q).toList = "xmlns:".toList ++ q.toList := String.toList_append

theorem declared?_keyFor (qualifier : Option String) :
    declared? (keyFor qualifier) = some qualifier := by
  cases qualifier with
  | none => rfl
  | some q =>
    have hne : qualifiedKey q ≠ defaultKey := by
      intro h
      have hlen := congrArg (List.length ∘ String.toList) h
      simp only [Function.comp_apply, toList_qualifiedKey, List.length_append] at hlen
      simp only [defaultKey, String.reduceToList, List.length_cons, List.length_nil] at hlen
      omega
    unfold declared? keyFor
    rw [if_neg hne, toList_qualifiedKey]
    simp

theorem declared?_eq_some_iff (key : String) (qualifier : Option String) :
    declared? key = some qualifier ↔ key = keyFor qualifier := by
  constructor
  · intro h
    unfold declared? at h
    split at h
    · next hkey =>
      cases h
      exact hkey
    · obtain ⟨rest, hrest, h⟩ := Option.map_eq_some_iff.mp h
      cases h
      have hkey := List.append_eq_of_isPrefixOf?_eq_some hrest
      unfold keyFor
      rw [← String.toList_inj, toList_qualifiedKey, String.toList_ofList (l := rest)]
      exact hkey.symm
  · rintro rfl
    exact declared?_keyFor qualifier

theorem isKey_eq_isSome (key : String) : isKey key = (declared? key).isSome := by
  unfold isKey declared?
  by_cases h : key = defaultKey
  · simp [h]
  · rw [if_neg h, Option.isSome_map, List.isSome_isPrefixOf?_eq_isPrefixOf,
      beq_eq_false_iff_ne.mpr h, Bool.false_or]

theorem ofAttributes_eq_nil {attributes : Attributes} (h : anyAmong attributes = false) :
    ofAttributes attributes = [] := by
  apply List.filterMap_eq_nil_iff.mpr
  intro e he
  have hkey : isKey e.1 = false := by
    simpa using List.any_eq_false.mp h e.1 (List.mem_map_of_mem he)
  rw [isKey_eq_isSome, Option.isSome_eq_false_iff, Option.isNone_iff_eq_none] at hkey
  rw [ofAttribute?, hkey, Option.map_none]

theorem keyFor_inj {p q : Option String} : keyFor p = keyFor q ↔ p = q := by
  constructor
  · intro h
    have hdeclared := declared?_keyFor p
    rw [h, declared?_keyFor] at hdeclared
    exact (Option.some.inj hdeclared).symm
  · exact congrArg keyFor

end Declaration

namespace Scope

open Declaration

/-- What is in scope for a qualifier, or for unqualified names. -/
def uri? (s : Scope) : Option String → Option String
  | none => s.defaultUri
  | some q => s.lookup? q

theorem ext_uri? {s s' : Scope} (h : ∀ qualifier, s.uri? qualifier = s'.uri? qualifier) :
    s = s' := by
  obtain ⟨d, bindings⟩ := s
  obtain ⟨d', bindings'⟩ := s'
  obtain rfl : d = d' := h none
  obtain rfl : bindings = bindings' := Dictionary.ext_get? fun q => h (some q)
  rfl

theorem empty_uri? (qualifier : Option String) : Scope.empty.uri? qualifier = none := by
  cases qualifier <;> rfl

/-- What a declared URI brings into scope. -/
def settled : Option String → String → Option String
  | none, uri => if uri = "" then none else some uri
  | some _, uri => some uri

theorem uri?_bind (s : Scope) (d : Declaration) (qualifier : Option String) :
    (s.bind d).uri? qualifier =
      if d.qualifier = qualifier then settled qualifier d.uri else s.uri? qualifier := by
  obtain ⟨p, uri⟩ := d
  cases p <;> cases qualifier <;> simp [bind, uri?, settled, lookup?, eq_comm]

theorem uri?_bindAll_entries {entries : List (String × String)}
    (hentries : entries.Pairwise fun a b => a.1 < b.1) (s : Scope) (qualifier : Option String) :
    (s.bindAll (entries.filterMap fun e => ofAttribute? e.1 e.2)).uri? qualifier =
      ((entries.lookup (keyFor qualifier)).map (settled qualifier)).getD (s.uri? qualifier) := by
  induction entries generalizing s with
  | nil => rfl
  | cons e entries ih =>
    rw [List.pairwise_cons] at hentries
    by_cases hkey : keyFor qualifier = e.1
    · have hd : ofAttribute? e.1 e.2 = some ⟨qualifier, e.2⟩ := by
        rw [ofAttribute?, ← hkey, declared?_keyFor]
        rfl
      have hfirst : (e :: entries).filterMap (fun e => ofAttribute? e.1 e.2) =
          ⟨qualifier, e.2⟩ :: entries.filterMap fun e => ofAttribute? e.1 e.2 :=
        List.filterMap_cons_some hd
      rw [hfirst, bindAll_cons, ih hentries.2, uri?_bind, if_pos rfl, hkey,
        Dictionary.lookup_eq_none_of_lt hentries.1, List.lookup_cons_self]
      rfl
    · rw [Dictionary.lookup_cons_of_ne hkey]
      cases hd : declared? e.1 with
      | none => rw [List.filterMap_cons_none (by simp [ofAttribute?, hd]), ih hentries.2]
      | some other =>
        have hne : other ≠ qualifier := by
          rintro rfl
          exact hkey ((declared?_eq_some_iff e.1 other).mp hd).symm
        rw [List.filterMap_cons_some (b := ⟨other, e.2⟩) (by simp [ofAttribute?, hd]),
          bindAll_cons, ih hentries.2, uri?_bind, if_neg hne]

/-- Handing a scope on where no key has the form of a declaration is the same as reading all keys. -/
theorem extend_eq_bindAll (s : Scope) (attributes : Attributes) :
    s.extend attributes = s.bindAll (ofAttributes attributes) := by
  unfold extend
  split
  · rfl
  · next h => rw [ofAttributes_eq_nil (eq_false_of_ne_true h), bindAll_nil]

theorem uri?_extend (s : Scope) (attributes : Attributes) (qualifier : Option String) :
    (s.extend attributes).uri? qualifier =
      ((attributes.get? (keyFor qualifier)).map (settled qualifier)).getD (s.uri? qualifier) := by
  rw [extend_eq_bindAll]
  exact uri?_bindAll_entries attributes.sorted s qualifier

theorem attributeEntries_eq (s : Scope) :
    s.attributeEntries = (s.defaultUri.toList.map fun uri => (keyFor none, uri)) ++
      s.bindings.entries.map fun e => (keyFor (some e.1), e.2) := by
  simp [attributeEntries, declarations, key_eq_keyFor, Function.comp_def]

theorem lookup_map_keyFor_eq_none {entries : List (String × String)} {key : String}
    (h : ∀ q, key ≠ keyFor (some q)) :
    (entries.map fun e => (keyFor (some e.1), e.2)).lookup key = none := by
  rw [List.lookup_eq_none_iff]
  intro e he
  obtain ⟨e', -, rfl⟩ := List.mem_map.mp he
  exact bne_iff_ne.mpr (h e'.1)

theorem attributeEntries_lookup_keyFor (s : Scope) (qualifier : Option String) :
    s.attributeEntries.lookup (keyFor qualifier) = s.uri? qualifier := by
  rw [attributeEntries_eq, List.lookup_append]
  cases qualifier with
  | none =>
    have hnone : ∀ q, keyFor none ≠ keyFor (some q) := by
      intro q h
      cases keyFor_inj.mp h
    rw [lookup_map_keyFor_eq_none hnone]
    unfold uri?
    cases s.defaultUri <;> simp
  | some q =>
    have hne : keyFor (some q) ≠ keyFor none := by
      intro h
      cases keyFor_inj.mp h
    have hbindings : (s.bindings.entries.map fun e => (keyFor (some e.1), e.2)).lookup
        (keyFor (some q)) = s.lookup? q :=
      Dictionary.lookup_map_keys (fun h => Option.some.inj (keyFor_inj.mp h)) _ q
    rw [hbindings]
    cases s.defaultUri with
    | none => rfl
    | some uri =>
      simp [beq_eq_false_iff_ne.mpr hne, uri?, lookup?, Dictionary.get?]

theorem attributeEntries_lookup_of_not_isKey (s : Scope) {key : String}
    (hkey : isKey key = false) : s.attributeEntries.lookup key = none := by
  have hne : ∀ qualifier, key ≠ keyFor qualifier := by
    rintro qualifier rfl
    rw [isKey_eq_isSome, declared?_keyFor] at hkey
    cases hkey
  rw [attributeEntries_eq, List.lookup_append, lookup_map_keyFor_eq_none fun q => hne (some q)]
  cases s.defaultUri with
  | none => rfl
  | some uri => simp [beq_eq_false_iff_ne.mpr (hne none)]

/-- A scope that a place in a tree can have: an empty URI is no default namespace. -/
def Proper (s : Scope) : Prop := ∀ qualifier uri, s.uri? qualifier = some uri →
  settled qualifier uri = some uri

theorem proper_empty : Scope.empty.Proper := by
  intro qualifier uri h
  rw [empty_uri?] at h
  cases h

theorem settled_idem {qualifier : Option String} {uri uri' : String}
    (h : settled qualifier uri = some uri') : settled qualifier uri' = some uri' := by
  cases qualifier with
  | some q => rfl
  | none =>
    by_cases huri : uri = ""
    · simp [settled, huri] at h
    · obtain rfl : uri = uri' := by simpa [settled, huri] using h
      exact h

theorem Proper.extend {s : Scope} (hs : s.Proper) (attributes : Attributes) :
    (s.extend attributes).Proper := by
  intro qualifier uri h
  rw [uri?_extend] at h
  cases hget : attributes.get? (keyFor qualifier) with
  | none =>
    rw [hget] at h
    exact hs qualifier uri h
  | some declared =>
    rw [hget] at h
    exact settled_idem h

theorem empty_extend_insertAllNew {outer : Scope} (houter : outer.Proper)
    (attributes : Attributes) :
    Scope.empty.extend (attributes.insertAllNew (outer.extend attributes).attributeEntries) =
      outer.extend attributes := by
  apply ext_uri?
  intro qualifier
  rw [uri?_extend, Dictionary.get?_insertAllNew, attributeEntries_lookup_keyFor, uri?_extend,
    empty_uri?]
  cases attributes.get? (keyFor qualifier) with
  | some uri => rfl
  | none =>
    rw [Option.none_or, Option.map_none, Option.getD_none]
    cases hs : outer.uri? qualifier with
    | none => rfl
    | some uri => exact houter qualifier uri hs

end Scope

end MarkupTree

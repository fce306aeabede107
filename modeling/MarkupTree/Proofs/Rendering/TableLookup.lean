import MarkupTree.Proofs.Namespace.Naming
import MarkupTree.Proofs.Query.Selection
import MarkupTree.Rendering

/-!
# Table keys are qualified names

A table lists elements under names as a caller writes them in a query. The table is asked for one
key, which is made from the element; a query compares the element with a name that it is given. For
tables and options that pass the check the two agree: an element is listed under the names that name
it, of which there is at most one, and under the wildcard if there is none.
-/

set_option autoImplicit false

namespace MarkupTree

theorem Dictionary.mem_keys_iff {α : Type} {d : Dictionary α} {k : String} :
    k ∈ d.keys ↔ (d.get? k).isSome := by
  rw [keys, get?, List.lookup_isSome_iff, List.mem_map]
  constructor
  · rintro ⟨e, he, rfl⟩
    exact ⟨e, he, beq_self_eq_true e.1⟩
  · rintro ⟨e, he, heq⟩
    exact ⟨e, he, (eq_of_beq heq).symm⟩

namespace Mapping

variable {entries : Dictionary TableEntry} {o : RenderOptions} {scope : Scope} {name k : String}

theorem check_eq_ok_iff {m : Mapping} :
    m.check o = .ok () ↔ (∀ d ∈ o.declared, d.qualifier.isSome) ∧
      ∀ k ∈ m.keys, ∀ q, Name.qualifier? k = some q →
        (Declaration.forQualifier? o.declared q).isSome := by
  have hdeclared : o.declared.find? (·.qualifier.isNone) = none ↔
      ∀ d ∈ o.declared, d.qualifier.isSome := by
    simp [List.find?_eq_none, Option.isSome_iff_ne_none]
  have hkeys : m.keys.findSome? (undeclared? o.declared) = none ↔
      ∀ k ∈ m.keys, ∀ q, Name.qualifier? k = some q →
        (Declaration.forQualifier? o.declared q).isSome := by
    simp [List.findSome?_eq_none_iff, undeclared?, Option.filter_eq_none_iff,
      Option.isSome_iff_ne_none]
  rw [← hdeclared, ← hkeys, check]
  cases o.declared.find? (·.qualifier.isNone) with
  | some d => simp
  | none => cases m.keys.findSome? (undeclared? o.declared) <;> simp

/-- A name whose qualifier is declared names an element just when a table would be asked for it. -/
theorem named_eq_key? (hdeclared : ∀ d ∈ o.declared, d.qualifier.isSome)
    (hk : ∀ q, Name.qualifier? k = some q → (Declaration.forQualifier? o.declared q).isSome) :
    scope.named o.declared name k = .ok (decide (key? o scope name = some k)) := by
  unfold Scope.named key?
  cases scope.resolve? name with
  | none => simp
  | some uri =>
    cases hfirst : Declaration.forUri? o.declared uri with
    | some d =>
      obtain ⟨qualifier, _⟩ := d
      obtain ⟨q, rfl⟩ : ∃ q, qualifier = some q :=
        Option.isSome_iff_exists.mp (hdeclared _ (Declaration.forUri?_eq_some hfirst).1)
      simp only [hfirst, Option.bind_some, Option.map_some, Option.some.injEq]
      congr 2
      exact propext eq_comm
    | none =>
      simp only [hfirst, Option.bind_none, Option.map_none, reduceCtorEq, decide_false]
      cases hqual : Name.qualifier? k with
      | none => rfl
      | some q => simp [Option.isNone_eq_false_iff.mpr (hk q hqual)]

/-- The key of a table under which an element itself is listed, if there is one. -/
def ownKey? (entries : Dictionary TableEntry) (o : RenderOptions) (scope : Scope)
    (name : String) : Option String :=
  (key? o scope name).filter fun k => (entries.get? k).isSome

/-- The key of the entry that an element gets, if it gets one. -/
def usedKey? (entries : Dictionary TableEntry) (o : RenderOptions) (scope : Scope)
    (name : String) : Option String :=
  (ownKey? entries o scope name).or
    ((some wildcard).filter fun k => (entries.get? k).isSome)

theorem bind_filter_get? (k? : Option String) :
    (k?.filter fun k => (entries.get? k).isSome).bind entries.get? = k?.bind entries.get? := by
  cases k? with
  | none => rfl
  | some k => cases h : entries.get? k <;> simp [Option.filter, h]

theorem own?_eq_bind_ownKey? :
    own? entries o scope name = (ownKey? entries o scope name).bind entries.get? :=
  (bind_filter_get? _).symm

theorem find?_eq_bind_usedKey? :
    find? entries o scope name = (usedKey? entries o scope name).bind entries.get? := by
  have hwildcard : ((some wildcard).filter fun k => (entries.get? k).isSome).bind entries.get? =
      entries.get? wildcard := bind_filter_get? (some wildcard)
  rw [find?, own?_eq_bind_ownKey?, usedKey?]
  cases hown : ownKey? entries o scope name with
  | none => simpa using hwildcard.symm
  | some k =>
    obtain ⟨-, hk⟩ := Option.filter_eq_some_iff.mp hown
    obtain ⟨entry, hentry⟩ := Option.isSome_iff_exists.mp hk
    simp [hentry]

theorem ownKey?_eq_some_iff (hk : k ∈ entries.keys) :
    ownKey? entries o scope name = some k ↔ key? o scope name = some k := by
  rw [ownKey?, Option.filter_eq_some_iff]
  exact and_iff_left (Dictionary.mem_keys_iff.mp hk)

theorem usedKey?_eq_wildcard_iff :
    usedKey? entries o scope name = some wildcard ↔
      wildcard ∈ entries.keys ∧ ∀ k ∈ entries.keys, k ≠ wildcard → key? o scope name ≠ some k := by
  rw [usedKey?]
  cases hown : ownKey? entries o scope name with
  | some own =>
    obtain ⟨hkey, hlisted⟩ := Option.filter_eq_some_iff.mp hown
    rw [Option.some_or, Option.some.injEq, hkey]
    constructor
    · rintro rfl
      exact ⟨Dictionary.mem_keys_iff.mpr hlisted, fun k _ hne heq => hne (Option.some.inj heq).symm⟩
    · rintro ⟨-, hnone⟩
      by_contra hne
      exact hnone own (Dictionary.mem_keys_iff.mpr hlisted) hne rfl
  | none =>
    rw [Option.none_or, Option.filter_eq_some_iff, Dictionary.mem_keys_iff]
    constructor
    · rintro ⟨-, hlisted⟩
      refine ⟨hlisted, ?_⟩
      intro k hk _ hkey
      rw [(ownKey?_eq_some_iff hk).mpr hkey] at hown
      cases hown
    · rintro ⟨hlisted, -⟩
      exact ⟨rfl, hlisted⟩

/-- For a table and options that pass the check, a table key other than the wildcard lists an
element exactly if it names the element. Whether it does is always decided, and it does for at most
one key. The wildcard lists the elements that no other key names. -/
theorem listed_iff_named (h : (Mapping.table entries).check o = .ok ()) (scope : Scope)
    (name : String) :
    (∀ k ∈ entries.keys, k ≠ wildcard →
      (∃ answer, scope.named o.declared name k = .ok answer) ∧
        (ownKey? entries o scope name = some k ↔ scope.named o.declared name k = .ok true)) ∧
      (∀ k ∈ entries.keys, ∀ k' ∈ entries.keys, scope.named o.declared name k = .ok true →
        scope.named o.declared name k' = .ok true → k = k') ∧
      (usedKey? entries o scope name = some wildcard ↔ wildcard ∈ entries.keys ∧
        ∀ k ∈ entries.keys, k ≠ wildcard → scope.named o.declared name k ≠ .ok true) ∧
      own? entries o scope name = (ownKey? entries o scope name).bind entries.get? ∧
      find? entries o scope name = (usedKey? entries o scope name).bind entries.get? := by
  obtain ⟨hdeclared, hkeys⟩ := check_eq_ok_iff.mp h
  have hnamed : ∀ k ∈ entries.keys,
      scope.named o.declared name k = .ok (decide (key? o scope name = some k)) :=
    fun k hk => named_eq_key? hdeclared (hkeys k hk)
  have htrue : ∀ k ∈ entries.keys,
      scope.named o.declared name k = .ok true ↔ key? o scope name = some k := by
    intro k hk
    rw [hnamed k hk, Except.ok.injEq, decide_eq_true_iff]
  refine ⟨?_, ?_, ?_, own?_eq_bind_ownKey?, find?_eq_bind_usedKey?⟩
  · intro k hk _
    exact ⟨⟨_, hnamed k hk⟩, (ownKey?_eq_some_iff hk).trans (htrue k hk).symm⟩
  · intro k hk k' hk' htruek htruek'
    rw [htrue k hk] at htruek
    rw [htrue k' hk', htruek] at htruek'
    exact Option.some.inj htruek'
  · rw [usedKey?_eq_wildcard_iff]
    refine and_congr_right fun _ => forall₂_congr fun k hk => ?_
    rw [Ne, Ne, Ne, htrue k hk]

/-- A name in the default namespace is listed under the qualifier that the options declare, and a
name in another namespace under the wildcard. -/
theorem listed_iff_named_default :
    let entries : Dictionary TableEntry :=
      Dictionary.ofList [("p:a", .tag "x"), ("*", .tag "y"), ("a", .tag "z")]
    let o : RenderOptions := ⟨[⟨some "p", "urn:u"⟩], false⟩
    let scope := Scope.ofDeclarations [⟨none, "urn:u"⟩, ⟨some "v", "urn:v"⟩]
    (Mapping.table entries).check o = .ok () ∧ "p:a" ∈ entries.keys ∧
      ownKey? entries o scope "a" = some "p:a" ∧ scope.named o.declared "a" "p:a" = .ok true ∧
      usedKey? entries o scope "v:a" = some wildcard ∧
      scope.named o.declared "v:a" "p:a" ≠ .ok true := by
  intro entries o scope
  have hcheck : (Mapping.table entries).check o = .ok () := rfl
  have hkey : "p:a" ∈ entries.keys := by decide
  have hne : "p:a" ≠ wildcard := by decide
  have hnamed : scope.named o.declared "a" "p:a" = .ok true := rfl
  have hused : usedKey? entries o scope "v:a" = some wildcard := by decide
  have hlisted := listed_iff_named hcheck scope "a"
  have hwildcard := (listed_iff_named hcheck scope "v:a").2.2.1.mp hused
  exact ⟨hcheck, hkey, ((hlisted.1 "p:a" hkey hne).2).mpr hnamed, hnamed, hused,
    hwildcard.2 "p:a" hkey hne⟩

end Mapping

end MarkupTree

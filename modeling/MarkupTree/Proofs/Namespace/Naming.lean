import Mathlib.Data.List.Nodup
import MarkupTree.Namespace.Matching

/-!
# What a qualified name names

A caller's `p:l` is meant to name the elements in the namespace that the caller declares for `p`.
The decision goes the other way round: from the namespace of the element to one declaration of it,
the first. So a name means its URI exactly when its qualifier is the first one declared for that
URI, and every later qualifier of the same URI names nothing.
-/

set_option autoImplicit false

namespace MarkupTree

namespace Name

/-- A qualifier that a written name can carry: the first colon of the name ends it. -/
def IsQualifier (q : String) : Prop := q ≠ "" ∧ ':' ∉ q.toList

instance (q : String) : Decidable (IsQualifier q) := inferInstanceAs (Decidable (_ ∧ _))

theorem split_append {q : List Char} (hne : q ≠ []) (hq : ':' ∉ q) (l : List Char) :
    split (q ++ ':' :: l) = (some q, l) := by
  have hpos : ∀ c ∈ q, (c != ':') = true := by
    intro c hc
    exact bne_iff_ne.mpr fun heq => hq (heq ▸ hc)
  unfold split
  rw [List.dropWhile_append_of_pos hpos, List.takeWhile_append_of_pos hpos]
  simp [hne]

theorem toList_qualified (q l : String) : (qualified q l).toList = q.toList ++ ':' :: l.toList := by
  simp [qualified]

theorem split_qualified {q : String} (hq : IsQualifier q) (l : String) :
    split (qualified q l).toList = (some q.toList, l.toList) := by
  rw [toList_qualified]
  exact split_append (by simpa using hq.1) hq.2 _

theorem qualifier?_qualified {q : String} (hq : IsQualifier q) (l : String) :
    qualifier? (qualified q l) = some q := by
  simp [qualifier?, split_qualified hq]

theorem localPart_qualified {q : String} (hq : IsQualifier q) (l : String) :
    localPart (qualified q l) = l := by
  simp [localPart, split_qualified hq]

theorem qualified_inj {p q : String} (hp : IsQualifier p) (hq : IsQualifier q) {l m : String} :
    qualified p l = qualified q m ↔ p = q ∧ l = m := by
  constructor
  · intro h
    have hqual := congrArg qualifier? h
    have hlocal := congrArg localPart h
    rw [qualifier?_qualified hp, qualifier?_qualified hq] at hqual
    rw [localPart_qualified hp, localPart_qualified hq] at hlocal
    exact ⟨Option.some.inj hqual, hlocal⟩
  · rintro ⟨rfl, rfl⟩
    rfl

end Name

namespace Declaration

/-- What a caller is expected to declare: every declaration has a qualifier, none has two. -/
structure Regular (declared : List Declaration) : Prop where
  qualified : ∀ d ∈ declared, ∃ q, d.qualifier = some q ∧ Name.IsQualifier q
  unique : (declared.map (·.qualifier)).Nodup

theorem forUri?_eq_some {declared : List Declaration} {uri : String} {d : Declaration}
    (h : forUri? declared uri = some d) : d ∈ declared ∧ d.uri = uri :=
  ⟨List.mem_of_find?_eq_some h, by simpa using List.find?_some h⟩

theorem forQualifier?_isSome_of_mem {declared : List Declaration} {q uri : String}
    (h : ⟨some q, uri⟩ ∈ declared) : (forQualifier? declared q).isSome := by
  rw [forQualifier?, List.find?_isSome]
  exact ⟨_, h, by simp⟩

end Declaration

namespace Scope

open Declaration

variable {declared : List Declaration} {p U : String} {s : Scope} {element uri : String}

/-- The answer for a name with a declared qualifier: there always is one, and it is yes just for
the elements with that local part in the qualifier's namespace, provided that the qualifier is the
first one declared for it. -/
theorem named_qualified (hd : Regular declared) (hp : ⟨some p, U⟩ ∈ declared) (l : String)
    (hr : s.resolve? element = some uri) :
    s.named declared element (Name.qualified p l) =
      .ok (decide (uri = U ∧ Name.localPart element = l ∧
        forUri? declared U = some ⟨some p, U⟩)) := by
  obtain ⟨_, heq, hpq⟩ := hd.qualified _ hp
  obtain rfl := Option.some.inj heq
  cases hf : forUri? declared uri with
  | none =>
    have hsome := forQualifier?_isSome_of_mem hp
    have hnot : ¬ (uri = U ∧ Name.localPart element = l ∧
        forUri? declared U = some ⟨some p, U⟩) := by
      rintro ⟨rfl, -, hfirst⟩
      simp [hf] at hfirst
    simp [named, hr, hf, Name.qualifier?_qualified hpq, Option.isNone_iff_eq_none,
      Option.isSome_iff_ne_none.mp hsome, hnot]
  | some d =>
    obtain ⟨hmem, rfl⟩ := forUri?_eq_some hf
    obtain ⟨q, hq, hqq⟩ := hd.qualified d hmem
    obtain ⟨_, uri⟩ := d
    obtain rfl : _ = some q := hq
    simp only [named, hr, hf, Name.qualified_inj hpq hqq]
    congr 2
    apply propext
    constructor
    · rintro ⟨rfl, rfl⟩
      -- Both declarations have the qualifier, so they are one.
      have hone := List.inj_on_of_nodup_map hd.unique hmem hp rfl
      obtain rfl : uri = U := congrArg Declaration.uri hone
      exact ⟨rfl, rfl, hf⟩
    · rintro ⟨rfl, rfl, hfirst⟩
      rw [hf] at hfirst
      cases hfirst
      exact ⟨rfl, rfl⟩

/-- When a qualified name means the URI declared for its qualifier: always, except that only the
first qualifier declared for a URI names the elements in that namespace. -/
theorem named_means_uri_iff_first (hd : Regular declared) (hp : ⟨some p, U⟩ ∈ declared) (l : String)
    (hr : s.resolve? element = some uri) :
    s.named declared element (Name.qualified p l) =
        .ok (decide (uri = U ∧ Name.localPart element = l ∧
          forUri? declared U = some ⟨some p, U⟩)) ∧
      (s.named declared element (Name.qualified p l) =
          .ok (decide (uri = U ∧ Name.localPart element = l)) ↔
        (uri = U → Name.localPart element = l → forUri? declared U = some ⟨some p, U⟩)) := by
  have hanswer := named_qualified hd hp l hr
  refine ⟨hanswer, ?_⟩
  rw [hanswer, Except.ok.injEq, decide_eq_decide]
  constructor
  · intro h huri hlocal
    exact (h.mpr ⟨huri, hlocal⟩).2.2
  · intro h
    constructor
    · rintro ⟨huri, hlocal, -⟩
      exact ⟨huri, hlocal⟩
    · rintro ⟨huri, hlocal⟩
      exact ⟨huri, hlocal, h huri hlocal⟩

theorem named_means_uri_iff_first_shadowed :
    let declared : List Declaration := [⟨some "a", "urn:u"⟩, ⟨some "b", "urn:v"⟩]
    let s := (ofDeclarations [⟨none, "urn:v"⟩, ⟨some "d", "urn:v"⟩]).bind ⟨some "d", "urn:u"⟩
    Regular declared ∧ ⟨some "a", "urn:u"⟩ ∈ declared ∧ s.resolve? "d:x" = some "urn:u" ∧
      s.named declared "d:x" "a:x" = .ok true := by
  intro declared s
  have hd : Regular declared := ⟨by decide, by decide⟩
  have hr : s.resolve? "d:x" = some "urn:u" := by decide
  have hp : ⟨some "a", "urn:u"⟩ ∈ declared := by decide
  exact ⟨hd, hp, hr, (named_means_uri_iff_first hd hp "x" hr).1⟩

/-- Two qualifiers for one URI: an element in that namespace is not named by the second. -/
theorem second_qualifier_names_nothing :
    let declared : List Declaration := [⟨some "a", "urn:u"⟩, ⟨some "b", "urn:u"⟩]
    let s := ofDeclarations [⟨some "d", "urn:u"⟩]
    Regular declared ∧ ⟨some "b", "urn:u"⟩ ∈ declared ∧ s.resolve? "d:x" = some "urn:u" ∧
      Name.localPart "d:x" = "x" ∧ s.named declared "d:x" (Name.qualified "b" "x") = .ok false := by
  exact ⟨⟨by decide, by decide⟩, by decide, by decide, by decide, rfl⟩

end Scope

end MarkupTree

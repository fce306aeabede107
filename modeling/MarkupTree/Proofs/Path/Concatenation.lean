import MarkupTree.Proofs.Path.Locality
import MarkupTree.Path.Parse

/-!
# Paths written one after the other

Two paths that start with a separator may be written one after the other, and the result has the
segments of both. A path may also stand behind a dot, as the operand of a condition.
-/

set_option autoImplicit false

namespace MarkupTree.Path.Surface

theorem whole_eq_some {α : Type} {p : Parser α} {cs : List Char} {x : α} :
    whole p cs = some x ↔ p cs = some (x, []) := by
  unfold whole
  split
  · next h => simp [h]
  · next h =>
    refine ⟨nofun, fun hx => absurd hx (h x)⟩

theorem conditionOf_consumes (cs : List Char) : Consumes (conditionOf cs) := condition_consumes _

theorem exists_depth (cs : List Char) : ∃ n, conditionOf cs = condition n ∧ cs.length ≤ n :=
  ⟨_, rfl, Nat.le_succ _⟩

theorem ofPath?_eq_some {cs : List Char} {segs : List Segment} :
    ofPath? cs = some segs ↔
      segs ≠ [] ∧ repeated (separated (conditionOf cs)) cs.length cs = (segs, []) := by
  have hitem := separated_consumes (conditionOf_consumes cs)
  have hfirst : ∀ first rest, separated (conditionOf cs) cs = some (first, rest) →
      repeated (separated (conditionOf cs)) cs.length cs =
        (first :: (repeated (separated (conditionOf cs)) rest.length rest).1,
          (repeated (separated (conditionOf cs)) rest.length rest).2) := by
    intro first rest h
    have hlt := (hitem h).2
    obtain ⟨n, hn⟩ : ∃ n, cs.length = n + 1 := ⟨cs.length - 1, by omega⟩
    have hfuel : repeated (separated (conditionOf cs)) n rest =
        repeated (separated (conditionOf cs)) rest.length rest :=
      repeated_fuel hitem (by omega) (Nat.le_refl _)
    rw [hn, repeated_of_some h, hfuel]
  rw [ofPath?, whole_eq_some]
  simp only [Option.bind_eq_bind, Option.bind_eq_some_iff]
  constructor
  · rintro ⟨⟨first, rest⟩, h, heq⟩
    obtain ⟨rfl, hleft⟩ := Prod.mk.inj (Option.some.inj heq)
    refine ⟨List.cons_ne_nil _ _, ?_⟩
    rw [hfirst first rest h, hleft]
  · rintro ⟨hne, hrun⟩
    cases h : separated (conditionOf cs) cs with
    | none =>
      rw [repeated_of_none h] at hrun
      cases hrun
      exact absurd rfl hne
    | some found =>
      rw [hfirst found.1 found.2 h] at hrun
      exact ⟨found, rfl, by rw [← hrun]⟩

theorem ofPath?_singleton {cs : List Char} {seg : Segment}
    (h : separated (conditionOf cs) cs = some (seg, [])) : ofPath? cs = some [seg] := by
  rw [ofPath?, whole_eq_some, h]
  rfl

section

variable {P : Segment → Prop}
variable (h : ∀ n d cs seg rest, segment (condition n) d cs = some (seg, rest) → P seg)

include h

theorem forall_mem_ofPath? {cs : List Char} {segs : List Segment} (hread : ofPath? cs = some segs) :
    ∀ seg ∈ segs, P seg := by
  have hall := forall_mem_separated (h (cs.length + 1)) cs.length cs
  rwa [show repeated (separated (condition (cs.length + 1))) cs.length cs = (segs, []) from
    (ofPath?_eq_some.mp hread).2] at hall

theorem forall_mem_ofRelative? {cs : List Char} {segs : List Segment}
    (hread : ofRelative? cs = some segs) : ∀ seg ∈ segs, P seg := by
  unfold ofRelative? at hread
  split at hread
  · cases hread
    nofun
  · exact forall_mem_segments (h _) (whole_eq_some.mp hread)

end

theorem head_of_ofPath? {s : List Char} {segs : List Segment} (h : ofPath? s = some segs) :
    s.head? = some '/' := by
  obtain ⟨hne, hrun⟩ := ofPath?_eq_some.mp h
  apply separated_head (c := conditionOf s)
  cases hread : separated (conditionOf s) s with
  | some => rfl
  | none =>
    rw [repeated_of_none hread] at hrun
    cases hrun
    exact absurd rfl hne

theorem breaks_of_ofPath? {s : List Char} {segs : List Segment} (h : ofPath? s = some segs) :
    Breaks s := by
  obtain ⟨after, rfl⟩ := List.head?_eq_some_iff.mp (head_of_ofPath? h)
  exact breaks_cons (by decide) (by decide) after

theorem repeated_of_ofPath? {s v : List Char} {segs : List Segment} {n more : Nat}
    (h : ofPath? s = some segs) (hv : Breaks v) (hn : s.length ≤ n)
    (hmore : (s ++ v).length ≤ more) :
    repeated (separated (condition n)) more (s ++ v) =
      (segs ++ (repeated (separated (condition n)) more v).1,
        (repeated (separated (condition n)) more v).2) := by
  obtain ⟨-, hrun⟩ := ofPath?_eq_some.mp h
  have hrun' : repeated (separated (conditionOf s)) s.length (s ++ []) = (segs, []) := by
    rw [List.append_nil, hrun]
  exact repeated_separated_local (conditionOf_consumes s) (condition_consumes n)
    (condition_local _ n) hn breaks_nil hv hrun' hmore

/-- The segments of two paths written one after the other. -/
theorem ofPath?_append {cs ds : List Char} {segs more : List Segment}
    (hcs : ofPath? cs = some segs) (hds : ofPath? ds = some more) :
    ofPath? (cs ++ ds) = some (segs ++ more) := by
  have hlen : cs.length + ds.length = (cs ++ ds).length := List.length_append.symm
  obtain ⟨n, hn, hdepth⟩ := exists_depth (cs ++ ds)
  have hnil : separated (condition n) [] = none :=
    (separated_consumes (condition_consumes n)).nil
  have hrest : repeated (separated (condition n)) (cs ++ ds).length (ds ++ []) = _ :=
    repeated_of_ofPath? hds breaks_nil (by omega) (by simp)
  rw [List.append_nil, repeated_of_none hnil, List.append_nil] at hrest
  have hboth : repeated (separated (condition n)) (cs ++ ds).length (cs ++ ds) = _ :=
    repeated_of_ofPath? hcs (breaks_of_ofPath? hds) (by omega) (Nat.le_refl _)
  apply ofPath?_eq_some.mpr
  refine ⟨by simp [(ofPath?_eq_some.mp hcs).1], ?_⟩
  rw [hn, hboth, hrest]

theorem segments_dot {s v : List Char} {segs : List Segment} {n : Nat}
    (h : (s = [] ∧ segs = []) ∨ ofPath? s = some segs) (hv : Breaks v) (hslash : v.head? ≠ some '/')
    (hn : s.length ≤ n) :
    segments (condition n) ('.' :: (s ++ v)) = some (.self false :: segs, v) := by
  have hstuck : separated (condition n) v = none := separated_eq_none hslash
  have hrun : repeated (separated (condition n)) (s ++ v).length (s ++ v) = (segs, v) := by
    rcases h with ⟨rfl, rfl⟩ | h
    · exact repeated_of_none hstuck _
    · rw [repeated_of_ofPath? h hv hn (Nat.le_refl _), repeated_of_none hstuck, List.append_nil]
  have hends : EndsName (s ++ v) := by
    rcases h with ⟨rfl, -⟩ | h
    · exact hv.1
    · obtain ⟨after, rfl⟩ := List.head?_eq_some_iff.mp (head_of_ofPath? h)
      exact endsName_cons (by decide) (by decide) _
  apply segments_eq_some.mpr
  refine ⟨.self false, s ++ v, ?_, by rw [hrun], by rw [hrun]⟩
  exact segment_eq_some.mpr (.inr (.inl ⟨rfl, startsName_append hends [], rfl⟩))

end MarkupTree.Path.Surface

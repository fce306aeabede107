import Mathlib.Algebra.Order.Field.Power
import Mathlib.Data.Rat.Cast.Order
import Mathlib.Tactic.Linarith
import Mathlib.Tactic.NormNum
import Mathlib.Tactic.Ring
import MarkupTree.Json.Reader
import MarkupTree.Number.Shortest

/-!
# How far rounding goes

A rounded quotient exceeds the quotient by half a spacing at most. So the shortest decimal of a
double exceeds the double by half a spacing at most, and what is read from it, cut and rounded
twice, stays finite. All bounds are upper bounds, and in units: what lies below does no harm.
-/

set_option autoImplicit false

namespace MarkupTree

namespace Double

/-- The distance of the greatest doubles, in units. -/
def topSpacing : Nat := Nat.pow 2 2045

theorem bound_eq : bound = 2 ^ 53 * topSpacing := by
  decide +kernel

theorem one_pos : 0 < one := by
  decide +kernel

theorem topSpacing_pos : 0 < topSpacing := by
  decide +kernel

theorem spacing_pos (n : Nat) : 0 < spacing n := by
  rw [spacing, Nat.pow_eq]
  exact Nat.two_pow_pos _

theorem spacing_mul_le {n : Nat} (h : 2 ^ 52 ≤ n) : spacing n * 2 ^ 52 ≤ n := by
  have hne : n ≠ 0 := by
    rintro rfl
    cases h
  have hlog : 52 ≤ n.log2 := (Nat.le_log2 hne).mpr h
  have hsplit : spacing n * 2 ^ 52 = 2 ^ n.log2 := by
    rw [spacing, Nat.pow_eq, ← Nat.pow_add, Nat.sub_add_cancel hlog]
  rw [hsplit]
  exact Nat.log2_self_le hne

theorem log2_mono {n m : Nat} (h : n ≤ m) : n.log2 ≤ m.log2 := by
  by_cases hn : n = 0
  · rw [hn, Nat.log2_zero]
    exact Nat.zero_le _
  · have hm : m ≠ 0 := by omega
    exact (Nat.le_log2 hm).mpr (Nat.le_trans (Nat.log2_self_le hn) h)

theorem spacing_dvd_spacing {n m : Nat} (h : n ≤ m) : spacing n ∣ spacing m := by
  rw [spacing, spacing, Nat.pow_eq, Nat.pow_eq]
  exact Nat.pow_dvd_pow 2 (Nat.sub_le_sub_right (log2_mono h) 52)

theorem spacing_mono {n m : Nat} (h : n ≤ m) : spacing n ≤ spacing m :=
  Nat.le_of_dvd (spacing_pos m) (spacing_dvd_spacing h)

theorem spacing_le_of_lt_bound {n : Nat} (h : n < bound) : spacing n ≤ topSpacing := by
  have htop : spacing (bound - 1) = topSpacing := by decide +kernel
  rw [← htop]
  exact spacing_mono (Nat.le_sub_one_of_lt h)

theorem nearest_le (num : Nat) {den : Nat} (hden : 0 < den) :
    2 * den * nearest num den ≤ 2 * num + den := by
  have hsplit := Nat.div_add_mod num den
  have hlow : 2 * den * (num / den) ≤ 2 * num := by linarith [Nat.zero_le (num % den)]
  have hhigh : 2 * den * (num / den + 1) = 2 * den * (num / den) + 2 * den := by ring
  unfold nearest
  dsimp only
  split
  · linarith
  split
  · linarith
  split
  · linarith
  · linarith

theorem roundUnits_le (num : Nat) {den : Nat} (hden : 0 < den) :
    2 * den * roundUnits num den ≤ 2 * num + den * spacing (num / den) := by
  have h := nearest_le num (Nat.mul_pos hden (spacing_pos (num / den)))
  rw [roundUnits]
  linarith

theorem roundUnits_lt_bound {num den : Nat} (hden : 0 < den)
    (h : 2 * num + den * topSpacing < 2 * (den * bound)) : roundUnits num den < bound := by
  have hquotient : num / den < bound := by
    apply Nat.div_lt_of_lt_mul
    linarith [Nat.zero_le (den * topSpacing)]
  have hspacing := Nat.mul_le_mul_left den (spacing_le_of_lt_bound hquotient)
  have hround := roundUnits_le num hden
  by_contra hle
  have hbound := Nat.mul_le_mul_left den (Nat.not_lt.mp hle)
  linarith

theorem roundUnits_relative {num den : Nat} (hden : 0 < den) (h : den * 2 ^ 52 ≤ num) :
    2 ^ 53 * (den * roundUnits num den) ≤ (2 ^ 53 + 1) * num := by
  have hquotient : 2 ^ 52 ≤ num / den := (Nat.le_div_iff_mul_le hden).mpr (by linarith)
  have hspacing := Nat.mul_le_mul_left den (spacing_mul_le hquotient)
  have hsplit := Nat.div_add_mod num den
  have hround := roundUnits_le num hden
  linarith [Nat.zero_le (num % den)]

theorem roundUnits_whole (n : Nat) :
    2 ^ 53 * roundUnits (n * one) 1 ≤ (2 ^ 53 + 1) * (n * one) := by
  cases n with
  | zero =>
    rw [Nat.zero_mul]
    decide
  | succ n =>
    have hone : 2 ^ 52 ≤ one := by decide +kernel
    have hlarge : 1 * 2 ^ 52 ≤ (n + 1) * one := by
      linarith [Nat.zero_le (n * one)]
    have h := roundUnits_relative Nat.one_pos hlarge
    rwa [Nat.one_mul] at h

theorem nearest_eq_or (num den : Nat) :
    nearest num den = num / den ∨ nearest num den = num / den + 1 := by
  unfold nearest
  dsimp only
  split
  · exact .inl rfl
  split
  · exact .inr rfl
  split
  · exact .inl rfl
  · exact .inr rfl

theorem nearestOnGrid?_eq_some {units : Nat} {k : Int} {d : Decimal}
    (h : nearestOnGrid? units k = some d) :
    d.exponent = k ∧ 0 < d.digits ∧ (interval units).holds d.digits k = true := by
  simp only [nearestOnGrid?] at h
  generalize (onGrid (4 * units) k).1 = num at h
  generalize (onGrid (4 * units) k).2 = den at h
  split at h
  · next hlow hhigh =>
    rw [Bool.and_eq_true, decide_eq_true_eq] at hlow
    cases h
    rcases nearest_eq_or num den with heq | heq
    · rw [heq]
      exact ⟨rfl, hlow.1, hlow.2⟩
    · rw [heq]
      exact ⟨rfl, Nat.succ_pos _, hhigh⟩
  · next hlow _ =>
    rw [Bool.and_eq_true, decide_eq_true_eq] at hlow
    cases h
    exact ⟨rfl, hlow.1, hlow.2⟩
  · next hhigh =>
    cases h
    exact ⟨rfl, Nat.succ_pos _, hhigh⟩
  · cases h

theorem shortest_eq_or (units : Nat) :
    shortest units = ⟨0, 0⟩ ∨ 0 < (shortest units).digits ∧
      (interval units).holds (shortest units).digits (shortest units).exponent = true := by
  simp only [shortest]
  cases hhit : (List.range 24).findSome? fun i : Nat =>
      nearestOnGrid? units (topExponent units - i) with
  | none => exact .inl rfl
  | some d =>
    obtain ⟨i, -, hi⟩ := List.exists_of_findSome?_eq_some hhit
    obtain ⟨hexponent, hpos, hholds⟩ := nearestOnGrid?_eq_some hi
    rw [Option.getD_some, hexponent]
    exact .inr ⟨hpos, hholds⟩

theorem le_onGrid {quarters c : Nat} {k : Int} :
    c * (onGrid quarters k).2 ≤ (onGrid quarters k).1 ↔
      4 * ((c : ℚ) * 10 ^ k * one) ≤ quarters := by
  have hten : ∀ n : Nat, (0 : ℚ) < 10 ^ n := fun n => by positivity
  unfold onGrid
  split
  · next hk =>
    obtain ⟨n, rfl⟩ := Int.eq_ofNat_of_zero_le hk
    rw [Int.toNat_natCast, zpow_natCast, Nat.pow_eq, ← Nat.cast_le (α := ℚ)]
    push_cast
    constructor <;> intro h <;> linarith
  · next hk =>
    obtain ⟨n, rfl⟩ : ∃ n : Nat, k = -n := ⟨(-k).toNat, by omega⟩
    rw [neg_neg, Int.toNat_natCast, zpow_neg, zpow_natCast, Nat.pow_eq, ← Nat.cast_le (α := ℚ)]
    have hsplit : 4 * ((c : ℚ) * (10 ^ n)⁻¹ * one) = c * (4 * one) / 10 ^ n := by ring
    rw [hsplit, div_le_iff₀ (hten n)]
    push_cast
    rfl

theorem holds_le {units c : Nat} {k : Int} (h : (interval units).holds c k = true) :
    2 * ((c : ℚ) * 10 ^ k * one) ≤ 2 * units + spacing units := by
  have hden : (onGrid (interval units).low k).2 = (onGrid (interval units).high k).2 := by
    unfold onGrid
    split <;> rfl
  have hhigh : c * (onGrid (interval units).high k).2 ≤ (onGrid (interval units).high k).1 := by
    simp only [Interval.holds, hden] at h
    split at h
    · simp only [Bool.and_eq_true, decide_eq_true_eq] at h
      exact h.2
    · simp only [Bool.and_eq_true, decide_eq_true_eq] at h
      exact Nat.le_of_lt h.2
  have hquarters : ((interval units).high : ℚ) = 4 * units + 2 * spacing units := by
    simp [interval]
  have := le_onGrid.mp hhigh
  rw [hquarters] at this
  linarith

end Double

/-- The number a decimal stands for. -/
def Decimal.value (d : Decimal) : ℚ := d.digits * 10 ^ d.exponent

namespace Double

theorem value_shortest_le (units : Nat) :
    2 * ((shortest units).value * one) ≤ 2 * units + spacing units := by
  rcases shortest_eq_or units with hzero | ⟨-, hholds⟩
  · rw [hzero, Decimal.value]
    have : (0 : ℚ) ≤ units + spacing units := by positivity
    push_cast
    linarith
  · exact holds_le hholds

/-- Two rounded factors and a rounded product stay finite where the exact product leaves room for
five halves of the top spacing. -/
theorem times_lt_bound {x y a b : Nat} (hx : 2 ^ 53 * x ≤ (2 ^ 53 + 1) * (a * one))
    (hy : 2 ^ 53 * y ≤ (2 ^ 53 + 1) * (b * one))
    (h : 2 * (a * b * one) + 5 * topSpacing ≤ 2 * bound) : times x y < bound := by
  apply roundUnits_lt_bound one_pos
  rw [bound_eq] at h ⊢
  have hxy := Nat.mul_le_mul hx hy
  have hab := Nat.mul_le_mul_left ((2 ^ 53 + 1) * (2 ^ 53 + 1) * one) h
  have hpos := Nat.mul_pos one_pos topSpacing_pos
  linarith

theorem tenTo_relative (n : Nat) : 2 ^ 53 * tenTo n ≤ (2 ^ 53 + 1) * (10 ^ n * one) :=
  roundUnits_whole (10 ^ n)

open Json.Reader

theorem exponent_le {digits n : Nat} (hdigits : 0 < digits)
    (h : 2 * (digits * 10 ^ n * one) + 5 * topSpacing ≤ 2 * bound) : n ≤ 308 := by
  by_contra hn
  have hmono : ∀ m, m ≤ n → 10 ^ m ≤ 10 ^ n := fun m hm => Nat.pow_le_pow_right (by decide) hm
  have hten := hmono 309 (by omega)
  have hlarge : bound < 10 ^ 309 * one := by decide +kernel
  have hmul : 10 ^ n ≤ digits * 10 ^ n := Nat.le_mul_of_pos_left _ hdigits
  have hlt := Nat.lt_of_lt_of_le hlarge (Nat.mul_le_mul_right one (Nat.le_trans hten hmul))
  linarith only [h, hlt, Nat.zero_le (5 * topSpacing)]

theorem scale?_isSome {digits : Nat} {exponent : Int}
    (h : ∀ n : Nat, exponent = n → 2 * (digits * 10 ^ n * one) + 5 * topSpacing ≤ 2 * bound) :
    (scale? (roundUnits (digits * one) 1) exponent).isSome := by
  unfold scale?
  split
  · rfl
  · next hunits =>
    have hdigits : 0 < digits := by
      apply Nat.pos_of_ne_zero
      rintro rfl
      rw [Nat.zero_mul] at hunits
      exact hunits rfl
    by_cases hexponent : 0 ≤ exponent
    · obtain ⟨n, rfl⟩ := Int.eq_ofNat_of_zero_le hexponent
      have hroom := h n rfl
      have hn := exponent_le hdigits hroom
      have hlt := times_lt_bound (roundUnits_whole digits) (tenTo_relative n) hroom
      rw [if_neg (by omega), if_pos hexponent, Int.toNat_natCast, if_pos hlt]
      rfl
    · rw [if_neg (by omega), if_neg hexponent]
      dsimp only
      split <;> rfl

/-- The magnitude of a finite double: as many digits as there are, and not too great. -/
def Representable (units : Nat) : Prop := units < bound ∧ spacing units ∣ units

theorem Representable.room_or {units : Nat} (h : Representable units) :
    units + 3 * topSpacing ≤ bound ∨ units = bound - 2 * topSpacing ∨
      units = bound - topSpacing := by
  by_cases hroom : units + 3 * topSpacing ≤ bound
  · exact .inl hroom
  · right
    have hspacing : spacing units = topSpacing := by
      apply Nat.le_antisymm (spacing_le_of_lt_bound h.1)
      have hhalf : spacing (bound - 3 * topSpacing) = topSpacing := by decide +kernel
      rw [← hhalf]
      exact spacing_mono (by omega)
    obtain ⟨m, hm⟩ := h.2
    rw [hspacing] at hm
    have hlt := h.1
    rw [bound_eq] at hroom hlt ⊢
    have hpos := topSpacing_pos
    generalize topSpacing = q at hm hroom hlt hpos ⊢
    have hupper : m < 2 ^ 53 := by nlinarith
    have hlower : 2 ^ 53 < m + 3 := by nlinarith
    obtain rfl | rfl : m = 2 ^ 53 - 2 ∨ m = 2 ^ 53 - 1 := by omega
    · left
      omega
    · right
      omega

end Double

end MarkupTree

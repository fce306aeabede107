import Mathlib.Data.List.TakeWhile
import MarkupTree.Proofs.Number.Digits
import MarkupTree.Proofs.Number.Rounding

/-!
# Integers as doubles

The double nearest to an integer keeps the order of the integers: rounding never crosses a power of
two, and between two of them it rounds to one grid. Up to 2 ^ 53 nothing is rounded at all. The
decimal text of an integer is read as just this double.
-/

set_option autoImplicit false

namespace MarkupTree

namespace Double

theorem nearest_mono {num num' : Nat} (den : Nat) (h : num ≤ num') :
    nearest num den ≤ nearest num' den := by
  rcases Nat.lt_or_eq_of_le (Nat.div_le_div_right (c := den) h) with hlt | heq
  · have hlow : nearest num den ≤ num / den + 1 := by
      rcases nearest_eq_or num den with h | h <;> omega
    have hhigh : num' / den ≤ nearest num' den := by
      rcases nearest_eq_or num' den with h | h <;> omega
    omega
  · -- With one quotient for both, the remainders decide.
    have hrest : num % den ≤ num' % den := by
      have hnum := Nat.div_add_mod num den
      have hnum' := Nat.div_add_mod num' den
      rw [← heq] at hnum'
      omega
    unfold nearest
    dsimp only
    rw [← heq]
    generalize num / den = q
    split_ifs <;> omega

theorem nearest_mul {den : Nat} (hden : 0 < den) (q : Nat) : nearest (den * q) den = q := by
  unfold nearest
  dsimp only
  rw [Nat.mul_mod_right, if_pos hden, Nat.mul_div_cancel_left q hden]

theorem roundUnits_le_of_dvd {num den g : Nat} (hden : 0 < den) (hg : spacing (num / den) ∣ g)
    (h : num ≤ den * g) : roundUnits num den ≤ g := by
  obtain ⟨m, rfl⟩ := hg
  have hs := spacing_pos (num / den)
  have hle := nearest_mono (den * spacing (num / den)) (h.trans_eq (Nat.mul_assoc _ _ m).symm)
  rw [nearest_mul (Nat.mul_pos hden hs)] at hle
  rw [roundUnits, Nat.mul_comm (spacing _) m]
  exact Nat.mul_le_mul_right _ hle

theorem le_roundUnits_of_dvd {num den g : Nat} (hden : 0 < den) (hg : spacing (num / den) ∣ g)
    (h : den * g ≤ num) : g ≤ roundUnits num den := by
  obtain ⟨m, rfl⟩ := hg
  have hs := spacing_pos (num / den)
  have hle := nearest_mono (den * spacing (num / den)) ((Nat.mul_assoc _ _ m).trans_le h)
  rw [nearest_mul (Nat.mul_pos hden hs)] at hle
  rw [roundUnits, Nat.mul_comm (spacing _) m]
  exact Nat.mul_le_mul_right _ hle

theorem spacing_dvd_two_pow (n : Nat) : spacing n ∣ 2 ^ n.log2 := by
  rw [spacing, Nat.pow_eq]
  exact Nat.pow_dvd_pow 2 (Nat.sub_le _ _)

theorem roundUnits_mono {num num' den : Nat} (hden : 0 < den) (h : num ≤ num') :
    roundUnits num den ≤ roundUnits num' den := by
  have hquotient : num / den ≤ num' / den := Nat.div_le_div_right h
  rcases Nat.lt_or_eq_of_le (spacing_mono hquotient) with hlt | heq
  · -- The power of two at the greater quotient is on both grids, and between the two.
    have hlog : (num / den).log2 < (num' / den).log2 := by
      by_contra hle
      have heq := Nat.le_antisymm (log2_mono hquotient) (Nat.not_lt.mp hle)
      rw [spacing, spacing, heq] at hlt
      exact Nat.lt_irrefl _ hlt
    have hne : num' / den ≠ 0 := by
      intro hzero
      rw [hzero, Nat.log2_zero] at hlog
      exact Nat.not_lt_zero _ hlog
    have hlow : num ≤ den * 2 ^ (num' / den).log2 := by
      have hbelow : num / den < 2 ^ (num' / den).log2 := by
        by_cases hzero : num / den = 0
        · rw [hzero]
          exact Nat.two_pow_pos _
        · exact (Nat.log2_lt hzero).mp hlog
      rw [Nat.mul_comm]
      exact Nat.le_of_lt ((Nat.div_lt_iff_lt_mul hden).mp hbelow)
    have hhigh : den * 2 ^ (num' / den).log2 ≤ num' := by
      rw [Nat.mul_comm]
      exact (Nat.le_div_iff_mul_le hden).mp (Nat.log2_self_le hne)
    have hgrid := spacing_dvd_two_pow (num' / den)
    exact (roundUnits_le_of_dvd hden ((spacing_dvd_spacing hquotient).trans hgrid) hlow).trans
      (le_roundUnits_of_dvd hden hgrid hhigh)
  · rw [roundUnits, roundUnits, heq]
    exact Nat.mul_le_mul_right _ (nearest_mono _ h)

theorem roundUnits_of_dvd {g : Nat} (hg : spacing g ∣ g) : roundUnits g 1 = g := by
  have hg : spacing (g / 1) ∣ g := by rwa [Nat.div_one]
  apply Nat.le_antisymm
  · exact roundUnits_le_of_dvd Nat.one_pos hg (Nat.le_of_eq (Nat.one_mul g).symm)
  · exact le_roundUnits_of_dvd Nat.one_pos hg (Nat.le_of_eq (Nat.one_mul g))

theorem spacing_dvd_whole {n : Nat} (h : n ≤ 2 ^ 53) : spacing (n * one) ∣ n * one := by
  rcases Nat.lt_or_eq_of_le h with hlt | rfl
  · have htop : spacing (2 ^ 53 * one - 1) = one := by decide +kernel
    have hmul := Nat.mul_lt_mul_of_pos_right hlt one_pos
    have hdvd := spacing_dvd_spacing (Nat.le_sub_one_of_lt hmul)
    rw [htop] at hdvd
    exact hdvd.mul_left n
  · decide +kernel

theorem roundUnits_whole_of_le {n : Nat} (h : n ≤ 2 ^ 53) : roundUnits (n * one) 1 = n * one :=
  roundUnits_of_dvd (spacing_dvd_whole h)

/-- The least natural whose double is no longer finite: half a spacing below 2 ^ 1024. -/
def wholeBound : Nat := 2 ^ 1024 - 2 ^ 970

theorem roundUnits_whole_lt_bound_iff {n : Nat} :
    roundUnits (n * one) 1 < bound ↔ n < wholeBound := by
  constructor
  · intro h
    by_contra hle
    have hmono := roundUnits_mono Nat.one_pos (Nat.mul_le_mul_right one (Nat.not_lt.mp hle))
    have hbound : roundUnits (wholeBound * one) 1 = bound := by decide +kernel
    omega
  · intro h
    have hmono := roundUnits_mono Nat.one_pos (Nat.mul_le_mul_right one (Nat.le_sub_one_of_lt h))
    have hbound : roundUnits ((wholeBound - 1) * one) 1 < bound := by decide +kernel
    omega

/-- The double nearest to an integer, if that is finite. -/
def ofInt? (v : Int) : Option Double := ofUnits? (decide (v < 0)) (roundUnits (v.natAbs * one) 1)

theorem ofInt?_eq_some {v : Int} {x : Double} (h : ofInt? v = some x) :
    x.toInt = if v < 0 then -(roundUnits (v.natAbs * one) 1 : Int)
      else roundUnits (v.natAbs * one) 1 := by
  unfold ofInt? ofUnits? at h
  split at h
  · cases h
    simp [toInt]
  · cases h

theorem isSome_ofInt?_iff {v : Int} : (ofInt? v).isSome = true ↔ v.natAbs < wholeBound := by
  rw [← roundUnits_whole_lt_bound_iff]
  simp [ofInt?, ofUnits?]

theorem toInt_mono {a b : Int} (h : a ≤ b) {x y : Double} (hx : ofInt? a = some x)
    (hy : ofInt? b = some y) : x.toInt ≤ y.toInt := by
  rw [ofInt?_eq_some hx, ofInt?_eq_some hy]
  have hround : ∀ {m n : Nat}, m ≤ n → roundUnits (m * one) 1 ≤ roundUnits (n * one) 1 :=
    fun hmn => roundUnits_mono Nat.one_pos (Nat.mul_le_mul_right one hmn)
  by_cases ha : a < 0
  · rw [if_pos ha]
    by_cases hb : b < 0
    · have := hround (show b.natAbs ≤ a.natAbs by omega)
      rw [if_pos hb]
      omega
    · rw [if_neg hb]
      omega
  · have := hround (show a.natAbs ≤ b.natAbs by omega)
    rw [if_neg ha, if_neg (by omega)]
    omega

theorem exists_ofInt?_of_le {v : Int} (h : v.natAbs ≤ 2 ^ 53) :
    ∃ x, ofInt? v = some x ∧ x.toInt = v * one := by
  have hbound : v.natAbs < wholeBound := Nat.lt_of_le_of_lt h (by decide +kernel)
  obtain ⟨x, hx⟩ := Option.isSome_iff_exists.mp (isSome_ofInt?_iff.mpr hbound)
  refine ⟨x, hx, ?_⟩
  rw [ofInt?_eq_some hx, roundUnits_whole_of_le h, Nat.cast_mul]
  by_cases hv : v < 0
  · rw [if_pos hv, Int.ofNat_natAbs_of_nonpos (Int.le_of_lt hv), Int.neg_mul, Int.neg_neg]
  · rw [if_neg hv, Int.natAbs_of_nonneg (Int.not_lt.mp hv)]

end Double

namespace Decimal

theorem toList_toString_int (v : Int) :
    (toString v).toList = (if v < 0 then ['-'] else []) ++ v.natAbs.repr.toList := by
  cases v <;> simp [Int.repr]

theorem sign_of_digits {ds : List Char} (h : ∀ c ∈ ds, isDigit c = true) : sign ds = (false, ds) := by
  unfold sign
  split
  · cases h '-' List.mem_cons_self
  · cases h '+' List.mem_cons_self
  · rfl

theorem mantissa?_of_digits {ds : List Char} (hne : ds ≠ []) (h : ∀ c ∈ ds, isDigit c = true) :
    mantissa? ds = some (ds, [], []) := by
  unfold mantissa?
  rw [List.takeWhile_eq_self_iff.mpr h, List.dropWhile_eq_nil_iff.mpr h]
  simp [hne]

end Decimal

namespace Double

theorem ofDecimal?_zero (negative : Bool) (n : Nat) :
    ofDecimal? negative n 0 = ofUnits? negative (roundUnits (n * one) 1) := by
  by_cases hn : n = 0
  · have hround : roundUnits (0 * one) 1 = 0 := by decide +kernel
    have hbound : 0 < bound := by decide +kernel
    rw [ofDecimal?, if_pos hn, hn, hround, ofUnits?, if_pos hbound]
  · have hlow : ¬ (0 : Int) + n.log2 + 1 < -400 := by omega
    rw [ofDecimal?, if_neg hn, if_neg (by decide), if_neg hlow, if_pos (Int.le_refl 0),
      Int.toNat_zero, Nat.pow_eq, Nat.pow_zero, Nat.mul_one]

theorem ofText?_toString (v : Int) : ofText? (toString v).toList = ofInt? v := by
  have hdigits : ∀ c ∈ v.natAbs.repr.toList, Decimal.isDigit c = true :=
    fun c => Decimal.isDigit_of_mem_repr
  have hsign : Decimal.sign (toString v).toList = (decide (v < 0), v.natAbs.repr.toList) := by
    rw [Decimal.toList_toString_int]
    by_cases hv : v < 0
    · rw [if_pos hv, decide_eq_true hv]
      rfl
    · rw [if_neg hv, decide_eq_false hv]
      exact Decimal.sign_of_digits hdigits
  have hmantissa := Decimal.mantissa?_of_digits (Decimal.repr_ne_nil v.natAbs) hdigits
  simp only [ofText?, hsign, hmantissa, Decimal.exponent?, Option.bind_eq_bind, Option.bind_some,
    List.append_nil, Decimal.ofDigits_repr, List.length_nil]
  exact ofDecimal?_zero _ _

end Double

end MarkupTree

import Mathlib.Data.Set.Insert
import MarkupTree.Comparison

/-!
# The laws of the six operators

Every operator is the negation of one and the converse of one, whatever the two texts are. Equality
looks at the texts and order at what they stand for, so texts that differ may well be equal in
order, but never the other way round. Numbers have an order of their own and so have all other
texts; the two do not fit together, and only within one of them is the order transitive.
-/

set_option autoImplicit false

namespace MarkupTree.Comparison

theorem order_of_number? {a b : String} {x y : Double} (hx : number? a = some x)
    (hy : number? b = some y) : order a b = compare x.toInt y.toInt := by
  unfold order
  rw [hx, hy]

theorem order_of_word {a b : String} (h : number? a = none ∨ number? b = none) :
    order a b = compare a b := by
  unfold order
  split
  · next hx hy =>
    rw [hx, hy] at h
    exact absurd h (by simp)
  · rfl

theorem order_swap (a b : String) : order b a = (order a b).swap := by
  by_cases hword : number? a = none ∨ number? b = none
  · rw [order_of_word hword, order_of_word hword.symm]
    exact Std.OrientedOrd.eq_swap
  · rw [not_or] at hword
    obtain ⟨x, hx⟩ := Option.ne_none_iff_exists'.mp hword.1
    obtain ⟨y, hy⟩ := Option.ne_none_iff_exists'.mp hword.2
    rw [order_of_number? hx hy, order_of_number? hy hx]
    exact Std.OrientedOrd.eq_swap

theorem order_self (a : String) : order a a = .eq := by
  cases hx : number? a with
  | none =>
    rw [order_of_word (.inl hx)]
    exact Std.ReflOrd.compare_self
  | some x =>
    rw [order_of_number? hx hx]
    exact Std.ReflOrd.compare_self

/-- The operator that holds where this one does not. -/
def negation : Comparison → Comparison
  | .equal => .unequal
  | .unequal => .equal
  | .less => .greaterOrEqual
  | .lessOrEqual => .greater
  | .greater => .lessOrEqual
  | .greaterOrEqual => .less

/-- The operator for the two texts the other way round. -/
def converse : Comparison → Comparison
  | .equal => .equal
  | .unequal => .unequal
  | .less => .greater
  | .lessOrEqual => .greaterOrEqual
  | .greater => .less
  | .greaterOrEqual => .lessOrEqual

theorem holds_negation (op : Comparison) (a b : String) :
    op.negation.holds a b = !op.holds a b := by
  cases op <;> simp [negation, holds]

theorem holds_converse (op : Comparison) (a b : String) :
    op.converse.holds b a = op.holds a b := by
  have horder := order_swap a b
  cases op with
  | equal => simp [converse, holds, eq_comm]
  | unequal => simp [converse, holds, eq_comm]
  | less | lessOrEqual | greater | greaterOrEqual =>
    cases h : order a b <;> simp [converse, holds, h, horder]

/-- What the operators say of two texts. -/
structure Coherent (a b : String) : Prop where
  /-- One text comes before the other, or they are level, and only one of these. -/
  one_order : [less.holds a b, greater.holds a b,
    lessOrEqual.holds a b && greaterOrEqual.holds a b].count true = 1
  lessOrEqual_iff : lessOrEqual.holds a b = true ↔ ¬ greater.holds a b = true
  greaterOrEqual_iff : greaterOrEqual.holds a b = true ↔ ¬ less.holds a b = true
  less_converse : less.holds a b = greater.holds b a
  lessOrEqual_converse : lessOrEqual.holds a b = greaterOrEqual.holds b a
  one_equality : [equal.holds a b, unequal.holds a b].count true = 1
  level_of_equal : equal.holds a b = true →
    lessOrEqual.holds a b = true ∧ greaterOrEqual.holds a b = true

theorem coherent (a b : String) : Coherent a b where
  one_order := by cases h : order a b <;> simp [holds, h]
  lessOrEqual_iff := by
    rw [show lessOrEqual = greater.negation from rfl, holds_negation]
    simp
  greaterOrEqual_iff := by
    rw [show greaterOrEqual = less.negation from rfl, holds_negation]
    simp
  less_converse := (holds_converse .less a b).symm
  lessOrEqual_converse := (holds_converse .lessOrEqual a b).symm
  one_equality := by
    rw [show unequal = equal.negation from rfl, holds_negation]
    cases equal.holds a b <;> rfl
  level_of_equal := by
    intro h
    obtain rfl : a = b := by simpa [holds] using h
    simp [holds, order_self]

/-- The texts are all numbers, or none of them is one. -/
def Uniform (texts : Set String) : Prop :=
  (∀ s ∈ texts, (number? s).isSome) ∨ ∀ s ∈ texts, number? s = none

theorem less_iff {a b : String} : less.holds a b = true ↔ order a b = .lt := by
  simp [holds]

theorem less_trans {texts : Set String} (h : Uniform texts) {a b c : String} (ha : a ∈ texts)
    (hb : b ∈ texts) (hc : c ∈ texts) (hab : less.holds a b = true) (hbc : less.holds b c = true) :
    less.holds a c = true := by
  rw [less_iff] at hab hbc ⊢
  rcases h with hnumbers | hwords
  · obtain ⟨x, hx⟩ := Option.isSome_iff_exists.mp (hnumbers a ha)
    obtain ⟨y, hy⟩ := Option.isSome_iff_exists.mp (hnumbers b hb)
    obtain ⟨z, hz⟩ := Option.isSome_iff_exists.mp (hnumbers c hc)
    rw [order_of_number? hx hy] at hab
    rw [order_of_number? hy hz] at hbc
    rw [order_of_number? hx hz]
    exact Std.TransCmp.lt_trans hab hbc
  · rw [order_of_word (.inl (hwords a ha))] at hab ⊢
    rw [order_of_word (.inl (hwords b hb))] at hbc
    exact Std.TransCmp.lt_trans hab hbc

/-- The operators are coherent on any two texts, and among numbers as among other texts what comes
before comes before all that comes later. -/
theorem operators_coherent :
    (∀ a b : String, Coherent a b) ∧
      ∀ texts : Set String, Uniform texts → ∀ a ∈ texts, ∀ b ∈ texts, ∀ c ∈ texts,
        less.holds a b = true → less.holds b c = true → less.holds a c = true :=
  ⟨coherent, fun _ h _ ha _ hb _ hc hab hbc => less_trans h ha hb hc hab hbc⟩

/-- Two texts of one number, numbers with signs and blanks, and words and too great a number, which
are no finite numbers. -/
theorem operators_coherent_written :
    Coherent "-0" " 0.0 " ∧ equal.holds "-0" " 0.0 " = false ∧
      lessOrEqual.holds "-0" " 0.0 " = true ∧
      Uniform {"-5", "+.5", "\t1e1 "} ∧ less.holds "-5" "+.5" = true ∧
      less.holds "+.5" "\t1e1 " = true ∧ less.holds "-5" "\t1e1 " = true ∧
      Uniform {"1e999", "inf", "nan"} ∧ less.holds "1e999" "inf" = true ∧
      less.holds "inf" "nan" = true ∧ less.holds "1e999" "nan" = true := by
  have hnumbers : Uniform {"-5", "+.5", "\t1e1 "} := by
    refine .inl ?_
    rintro s (rfl | rfl | rfl) <;> decide +kernel
  have hwords : Uniform {"1e999", "inf", "nan"} := by
    refine .inr ?_
    rintro s (rfl | rfl | rfl) <;> decide +kernel
  have hlow : less.holds "-5" "+.5" = true := by decide +kernel
  have hhigh : less.holds "+.5" "\t1e1 " = true := by decide +kernel
  have hfirst : less.holds "1e999" "inf" = true := by decide +kernel
  have hsecond : less.holds "inf" "nan" = true := by decide +kernel
  obtain ⟨hcoherent, htrans⟩ := operators_coherent
  refine ⟨hcoherent _ _, by decide +kernel, by decide +kernel, hnumbers, hlow, hhigh, ?_,
    hwords, hfirst, hsecond, ?_⟩
  · exact htrans _ hnumbers _ (by simp) _ (by simp) _ (by simp) hlow hhigh
  · exact htrans _ hwords _ (by simp) _ (by simp) _ (by simp) hfirst hsecond

/-- Numbers and other texts together may go round in a circle. -/
example : less.holds "9" "10" = true ∧ less.holds "10" "1a" = true ∧
    less.holds "1a" "9" = true := by
  decide +kernel

end MarkupTree.Comparison

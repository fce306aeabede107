import Mathlib.Algebra.Group.Nat.Defs
import Mathlib.Data.List.Induction
import MarkupTree.Number.Decimal

/-!
# Runs of digits

The decimal digits of a natural write it without a leading zero, and a run of digits writes less
than the power of ten of its length.
-/

set_option autoImplicit false

namespace MarkupTree.Decimal

theorem ofDigits_eq (ds : List Char) : ofDigits ds = Nat.ofDigitChars 10 ds 0 :=
  Nat.ofDigitChars_eq_foldl.symm

theorem ofDigits_append (front ds : List Char) :
    ofDigits (front ++ ds) = ofDigits front * 10 ^ ds.length + ofDigits ds := by
  rw [ofDigits_eq, ofDigits_eq, ofDigits_eq, Nat.ofDigitChars_append,
    Nat.ofDigitChars_eq_ofDigitChars_zero, Nat.mul_comm]

theorem ofDigits_singleton (c : Char) : ofDigits [c] = digitValue c := by
  simp [ofDigits]

theorem ofDigits_cons (c : Char) (ds : List Char) :
    ofDigits (c :: ds) = digitValue c * 10 ^ ds.length + ofDigits ds := by
  rw [← List.singleton_append, ofDigits_append, ofDigits_singleton]

theorem ofDigits_zeros (n : Nat) : ofDigits (List.replicate n '0') = 0 := by
  induction n with
  | zero => rfl
  | succ n ih =>
    rw [List.replicate_succ, ofDigits_cons, ih]
    simp [digitValue]

theorem digitValue_lt {c : Char} (h : isDigit c = true) : digitValue c < 10 := by
  rw [isDigit, Bool.and_eq_true, decide_eq_true_eq, decide_eq_true_eq] at h
  have hnine : c.toNat ≤ 57 := h.2
  have hzero : '0'.toNat = 48 := rfl
  rw [digitValue, hzero]
  omega

theorem ofDigits_lt {ds : List Char} (h : ∀ c ∈ ds, isDigit c = true) :
    ofDigits ds < 10 ^ ds.length := by
  induction ds with
  | nil => exact Nat.one_pos
  | cons c ds ih =>
    rw [List.forall_mem_cons] at h
    have hc := Nat.mul_le_mul_right (10 ^ ds.length) (Nat.le_of_lt_succ (digitValue_lt h.1))
    have hds := ih h.2
    rw [ofDigits_cons, List.length_cons, Nat.pow_succ]
    omega

theorem ofDigits_repr (n : Nat) : ofDigits n.repr.toList = n := by
  rw [Nat.toList_repr, ofDigits_eq]
  exact Nat.ofDigitChars_ten_toDigits

theorem isDigit_of_mem_repr {n : Nat} {c : Char} (h : c ∈ n.repr.toList) : isDigit c = true := by
  rw [Nat.toList_repr] at h
  have hdigit := Nat.isDigit_of_mem_toDigits (by decide) (by decide) h
  rw [Char.isDigit, Bool.and_eq_true, decide_eq_true_eq, decide_eq_true_eq] at hdigit
  rw [isDigit, Bool.and_eq_true, decide_eq_true_eq, decide_eq_true_eq]
  exact hdigit

theorem repr_ne_nil (n : Nat) : n.repr.toList ≠ [] := by
  rw [Nat.toList_repr]
  exact Nat.toDigits_ne_nil

theorem head_toDigits_ne_zero {n : Nat} (h : 0 < n) : (Nat.toDigits 10 n).head? ≠ some '0' := by
  induction n using Nat.strongRecOn with
  | ind n ih =>
    by_cases hn : n < 10
    · rw [Nat.toDigits_of_lt_base hn]
      have hdigit : ∀ m, m < 10 → 0 < m → m.digitChar ≠ '0' := by decide
      simpa using hdigit n hn h
    · rw [Nat.toDigits_of_base_le (by decide) (Nat.not_lt.mp hn), List.head?_append]
      have hrest := ih (n / 10) (by omega) (by omega)
      cases hhead : (Nat.toDigits 10 (n / 10)).head? with
      | none => exact absurd (List.head?_eq_none_iff.mp hhead) Nat.toDigits_ne_nil
      | some c =>
        rw [hhead] at hrest
        exact hrest

theorem head_repr_ne_zero {n : Nat} (h : 0 < n) : n.repr.toList.head? ≠ some '0' := by
  rw [Nat.toList_repr]
  exact head_toDigits_ne_zero h

theorem head_repr_eq_zero {n : Nat} (h : n.repr.toList.head? = some '0') : n = 0 := by
  rcases Nat.eq_zero_or_pos n with hzero | hpos
  · exact hzero
  · exact absurd h (head_repr_ne_zero hpos)

theorem digitChar_digitValue {c : Char} (h : isDigit c = true) : (digitValue c).digitChar = c := by
  rw [isDigit, Bool.and_eq_true, decide_eq_true_eq, decide_eq_true_eq] at h
  have hlow : 48 ≤ c.toNat := h.1
  have hhigh : c.toNat ≤ 57 := h.2
  have hall : ∀ m, m < 10 → m.digitChar = Char.ofNat (48 + m) := by decide
  have hzero : '0'.toNat = 48 := rfl
  rw [digitValue, hzero, hall _ (by omega), Nat.add_sub_cancel' hlow, Char.ofNat_toNat]

theorem exists_zeros {ds : List Char} (hne : ds ≠ []) (h : ∀ c ∈ ds, isDigit c = true) :
    ∃ n, ds = List.replicate n '0' ++ (ofDigits ds).repr.toList := by
  -- The last digit is the last one of the number; the others write what comes before it.
  induction ds using List.reverseRecOn with
  | nil => exact absurd rfl hne
  | append_singleton ds c ih =>
    rw [List.forall_mem_append, List.forall_mem_singleton] at h
    have hc := digitValue_lt h.2
    have hvalue : ofDigits (ds ++ [c]) = ofDigits ds * 10 + digitValue c := by
      rw [ofDigits_append, ofDigits_singleton]
      rfl
    have hlast : Nat.toDigits 10 (digitValue c) = [c] := by
      rw [Nat.toDigits_of_lt_base hc, digitChar_digitValue h.2]
    rw [hvalue, Nat.toList_repr]
    by_cases hds : ds = []
    · subst hds
      refine ⟨0, ?_⟩
      rw [show ofDigits [] = 0 from rfl, Nat.zero_mul, Nat.zero_add, hlast]
      rfl
    · obtain ⟨n, hn⟩ := ih hds h.1
      rw [Nat.toList_repr] at hn
      rcases Nat.eq_zero_or_pos (ofDigits ds) with hzero | hpos
      · refine ⟨n + 1, ?_⟩
        rw [hzero] at hn
        rw [hzero, Nat.zero_mul, Nat.zero_add, hlast, hn, List.replicate_succ']
        rfl
      · refine ⟨n, ?_⟩
        have hfront : (ofDigits ds * 10 + digitValue c) / 10 = ofDigits ds := by omega
        have hback : (ofDigits ds * 10 + digitValue c) % 10 = digitValue c := by omega
        rw [Nat.toDigits_of_base_le (by decide) (by omega), hfront, hback,
          digitChar_digitValue h.2, ← List.append_assoc, ← hn]

theorem length_repr_pos (n : Nat) : 0 < n.repr.toList.length :=
  List.length_pos_iff.mpr (repr_ne_nil n)

end MarkupTree.Decimal

import Mathlib.Data.List.TakeWhile
import MarkupTree.Json.Printer
import MarkupTree.Proofs.Number.Digits
import MarkupTree.Proofs.Number.Rounding

/-!
# Printed numbers are read back

A number is printed as a numeral, and the numeral is read back before every text that does not go on
with it. A whole number of 64 bits is what its numeral denotes. What the numeral of a double denotes
is cut to 64 bits and rounded, so it may be another double, but it is a finite one.
-/

set_option autoImplicit false

namespace MarkupTree.Json

open Reader Decimal

/-- Texts before which every number ends. -/
def EndsNumber (rest : List Char) : Prop :=
  ∀ c ∈ rest.head?, isDigit c = false ∧ c ≠ '.' ∧ c ≠ 'e' ∧ c ≠ 'E'

theorem endsNumber_nil : EndsNumber [] := nofun

theorem endsNumber_cons {c : Char} (h : c ∈ [',', ']', '\x7d']) (rest : List Char) :
    EndsNumber (c :: rest) := by
  rintro _ ⟨⟩
  simp only [List.mem_cons, List.not_mem_nil, or_false] at h
  rcases h with rfl | rfl | rfl <;> decide

namespace Reader.Numeral

def exponentChars (e : Int) : List Char :=
  'e' :: (if e < 0 then '-' else '+') :: e.natAbs.repr.toList

def unsignedChars (n : Numeral) : List Char :=
  n.whole ++ (n.part.elim [] ('.' :: ·) ++ n.exponent.elim [] exponentChars)

def chars (n : Numeral) : List Char :=
  (if n.negative then ['-'] else []) ++ n.unsignedChars

/-- Digits on both sides of the point, and no zero in front of another digit. -/
structure Legible (n : Numeral) : Prop where
  whole_ne_nil : n.whole ≠ []
  whole_digits : ∀ c ∈ n.whole, isDigit c = true
  leading : n.whole.head? = some '0' → n.whole.length ≤ 1
  part_ne_nil : n.part ≠ some []
  part_digits : ∀ c ∈ n.part.getD [], isDigit c = true

end Reader.Numeral

section Reading

variable {care : Care} {ds rest : List Char}

theorem someDigits_append (hne : ds ≠ []) (hds : ∀ c ∈ ds, isDigit c = true)
    (hrest : ∀ c ∈ rest.head?, isDigit c = false) :
    someDigits care (ds ++ rest) = .ok (ds, rest) := by
  have htake : (ds ++ rest).takeWhile isDigit = ds := by
    rw [List.takeWhile_append_of_pos hds]
    cases rest with
    | nil => simp
    | cons c rest => simp [hrest c rfl]
  have hdrop : (ds ++ rest).dropWhile isDigit = rest := by
    rw [List.dropWhile_append_of_pos hds]
    cases rest with
    | nil => simp
    | cons c rest => simp [hrest c rfl]
  obtain ⟨c, after, rfl⟩ := List.exists_cons_of_ne_nil hne
  simp only [List.cons_append] at htake hdrop
  simp only [List.cons_append, someDigits, htake, hdrop]
  rw [if_pos (hds c List.mem_cons_self)]

theorem wholeDigits_append (hne : ds ≠ []) (hds : ∀ c ∈ ds, isDigit c = true)
    (hleading : ds.head? = some '0' → ds.length ≤ 1)
    (hrest : ∀ c ∈ rest.head?, isDigit c = false) :
    wholeDigits care (ds ++ rest) = .ok (ds, rest) := by
  have hok : ¬ (ds.head? = some '0' ∧ 1 < ds.length) := by
    rintro ⟨hhead, hlength⟩
    exact Nat.not_lt.mpr (hleading hhead) hlength
  simp only [wholeDigits, someDigits_append hne hds hrest, bind, Except.bind, if_neg hok]

/-- The digits after a point, if there is one. -/
def readPart (care : Care) : Reader (Option (List Char))
  | '.' :: rest => (someDigits care rest).map fun read => (some read.1, read.2)
  | rest => .ok (none, rest)

def readExponent (care : Care) : Reader (Option Int)
  | c :: after =>
    if c = 'e' ∨ c = 'E' then
      (someDigits care (sign after).2).map fun read =>
        (some (if (sign after).1 then -(ofDigits read.1 : Int) else ofDigits read.1), read.2)
    else .ok (none, c :: after)
  | [] => .ok (none, [])

theorem readExponent_map (care : Care) {β : Type} (f : Option Int → β) (rest : List Char) :
    ((readExponent care rest).map fun exponent => (f exponent.1, exponent.2)) =
      match rest with
      | c :: after =>
        if c = 'e' ∨ c = 'E' then
          ((someDigits care (sign after).2).map fun read =>
              (some (if (sign after).1 then -(ofDigits read.1 : Int) else ofDigits read.1),
                read.2)).bind
            fun exponent => .ok (f exponent.1, exponent.2)
        else .ok (f none, rest)
      | [] => .ok (f none, rest) := by
  cases rest with
  | nil => rfl
  | cons c after =>
    simp only [readExponent]
    split
    · cases someDigits care (sign after).2 <;> rfl
    · rfl

theorem readPart_of_ne {rest : List Char} (h : ∀ after, rest ≠ '.' :: after) :
    readPart care rest = .ok (none, rest) := by
  unfold readPart
  split
  · next after => exact absurd rfl (h after)
  · rfl

theorem numeral_eq (cs : List Char) :
    numeral care cs =
      (wholeDigits care (if cs.head? = some '-' then cs.drop 1 else cs)).bind fun whole =>
        (readPart care whole.2).bind fun part =>
          (readExponent care part.2).map fun exponent =>
            (⟨cs.head? = some '-', whole.1, part.1, exponent.1⟩, exponent.2) := by
  simp only [numeral]
  refine bind_congr ?_
  rintro ⟨whole, rest⟩
  dsimp only
  have hexponent := fun part rest =>
    (readExponent_map care (Numeral.mk (cs.head? = some '-') whole part) rest).symm
  split
  · next after =>
    rw [readPart]
    cases someDigits care after with
    | error fault => rfl
    | ok part => exact hexponent (some part.1) part.2
  · next hpoint =>
    rw [readPart_of_ne hpoint]
    exact hexponent none rest

theorem readPart_append {part : Option (List Char)} (hne : part ≠ some [])
    (hdigits : ∀ c ∈ part.getD [], isDigit c = true)
    (hrest : ∀ c ∈ rest.head?, isDigit c = false ∧ c ≠ '.') :
    readPart care (part.elim [] ('.' :: ·) ++ rest) = .ok (part, rest) := by
  cases part with
  | none =>
    cases rest with
    | nil => rfl
    | cons c rest =>
      have hc := (hrest c rfl).2
      simp [readPart, hc]
  | some ds =>
    have hds : ds ≠ [] := fun h => hne (congrArg some h)
    have hread : someDigits care (ds ++ rest) = .ok (ds, rest) :=
      someDigits_append hds hdigits fun c hc => (hrest c hc).1
    simp only [Option.elim_some, List.cons_append, readPart, hread, Except.map]

theorem readExponent_append (exponent : Option Int) (hrest : EndsNumber rest) :
    readExponent care (exponent.elim [] Numeral.exponentChars ++ rest) = .ok (exponent, rest) := by
  cases exponent with
  | none =>
    cases rest with
    | nil => rfl
    | cons c rest =>
      obtain ⟨-, -, hsmall, hlarge⟩ := hrest c rfl
      simp [readExponent, hsmall, hlarge]
  | some e =>
    have hread : someDigits care (e.natAbs.repr.toList ++ rest) =
        .ok (e.natAbs.repr.toList, rest) :=
      someDigits_append (repr_ne_nil e.natAbs) (fun c => isDigit_of_mem_repr)
        fun c hc => (hrest c hc).1
    have hsign : sign ((if e < 0 then '-' else '+') :: (e.natAbs.repr.toList ++ rest)) =
        (decide (e < 0), e.natAbs.repr.toList ++ rest) := by
      by_cases he : e < 0
      · simp [he, sign]
      · simp [he, sign]
    simp only [Option.elim_some, Numeral.exponentChars, List.cons_append, readExponent, true_or,
      if_true, hsign, hread, Except.map, ofDigits_repr, decide_eq_true_eq]
    have he : (if e < 0 then -(e.natAbs : Int) else e.natAbs) = e := by omega
    rw [he]

theorem numeral_chars {n : Numeral} (h : n.Legible) (hrest : EndsNumber rest) :
    numeral care (n.chars ++ rest) = .ok (n, rest) := by
  obtain ⟨negative, whole, part, exponent⟩ := n
  obtain ⟨hne, hdigits, hleading, hpart, hpartDigits⟩ := h
  have hexponent : ∀ c ∈ (exponent.elim [] Numeral.exponentChars ++ rest).head?,
      isDigit c = false ∧ c ≠ '.' := by
    cases exponent with
    | none =>
      intro c hc
      exact ⟨(hrest c hc).1, (hrest c hc).2.1⟩
    | some e =>
      rintro _ ⟨⟩
      decide
  have hafter : ∀ c ∈ (part.elim [] ('.' :: ·) ++
      (exponent.elim [] Numeral.exponentChars ++ rest)).head?, isDigit c = false := by
    cases part with
    | none =>
      intro c hc
      exact (hexponent c hc).1
    | some ds =>
      rintro _ ⟨⟩
      rfl
  have hunsigned : wholeDigits care (whole ++ (part.elim [] ('.' :: ·) ++
      (exponent.elim [] Numeral.exponentChars ++ rest))) = .ok (whole, _) :=
    wholeDigits_append hne hdigits hleading hafter
  rw [numeral_eq, Numeral.chars, Numeral.unsignedChars]
  simp only [List.append_assoc]
  cases negative with
  | true =>
    simp [hunsigned, Except.bind, readPart_append hpart hpartDigits hexponent,
      readExponent_append exponent hrest, Except.map]
  | false =>
    obtain ⟨c, after, rfl⟩ := List.exists_cons_of_ne_nil hne
    have hc : c ≠ '-' := by
      rintro rfl
      exact absurd (hdigits '-' List.mem_cons_self) (by decide)
    simp [hc] at hunsigned ⊢
    simp [hunsigned, Except.bind, readPart_append hpart hpartDigits hexponent,
      readExponent_append exponent hrest, Except.map]

end Reading

theorem appendDigits_eq {significand : Nat} {ds : List Char}
    (h : significand * 10 ^ ds.length + ofDigits ds ≤ maxSignificand) :
    appendDigits significand ds = (significand * 10 ^ ds.length + ofDigits ds, []) := by
  induction ds generalizing significand with
  | nil => simp [appendDigits, ofDigits]
  | cons d ds ih =>
    have hsplit : significand * 10 ^ (d :: ds).length + ofDigits (d :: ds) =
        (significand * 10 + digitValue d) * 10 ^ ds.length + ofDigits ds := by
      rw [ofDigits_cons, List.length_cons]
      ring
    rw [hsplit] at h ⊢
    have hnext : ¬ maxSignificand < significand * 10 + digitValue d := by
      have := Nat.le_mul_of_pos_right (significand * 10 + digitValue d)
        (Nat.pow_pos (n := ds.length) (a := 10) (by decide))
      omega
    rw [appendDigits]
    simp only [if_neg hnext, ih h]

theorem appendDigits_le (significand : Nat) (ds : List Char) :
    (appendDigits significand ds).1 * 10 ^ (appendDigits significand ds).2.length ≤
        significand * 10 ^ ds.length + ofDigits ds ∧
      (appendDigits significand ds).2.length ≤ ds.length := by
  induction ds generalizing significand with
  | nil => simp [appendDigits, ofDigits]
  | cons d ds ih =>
    rw [appendDigits]
    split
    · exact ⟨Nat.le_add_right _ _, Nat.le_refl _⟩
    · obtain ⟨hvalue, hlength⟩ := ih (significand * 10 + digitValue d)
      refine ⟨Nat.le_trans hvalue (Nat.le_of_eq ?_), Nat.le_succ_of_le hlength⟩
      rw [ofDigits_cons, List.length_cons]
      ring

namespace Reader.Numeral

/-- The number that a numeral writes. -/
def value (n : Numeral) : ℚ :=
  ofDigits (n.whole ++ n.part.getD []) * 10 ^ (n.exponent.getD 0 - (n.part.getD []).length)

/-- A numeral with a point or an exponent, and not too many digits before the point. -/
structure Fractional (n : Numeral) : Prop where
  whole_digits : ∀ c ∈ n.whole, isDigit c = true
  whole_length : n.whole.length ≤ 16
  not_whole : n.part ≠ none ∨ n.exponent ≠ none

variable {n : Numeral}

theorem Fractional.number?_eq (h : n.Fractional) :
    ∃ (digits : Nat) (exponent : Int), (digits : ℚ) * 10 ^ exponent ≤ n.value ∧
      n.number? = (scale? (Double.roundUnits (digits * Double.one) 1) exponent).map
        fun u => .double ⟨n.negative, u⟩ := by
  obtain ⟨negative, whole, part, exponent⟩ := n
  obtain ⟨hdigits, hlength, hnot⟩ := h
  have hwhole : appendDigits 0 whole = (ofDigits whole, []) := by
    have hlt : ofDigits whole < 10 ^ whole.length := ofDigits_lt hdigits
    have hpow : 10 ^ whole.length ≤ 10 ^ 16 := Nat.pow_le_pow_right (by decide) hlength
    have hmax : 10 ^ 16 ≤ maxSignificand := by decide
    rw [appendDigits_eq (by omega)]
    simp
  obtain ⟨hvalue, hunread⟩ := appendDigits_le (ofDigits whole) (part.getD [])
  refine ⟨(appendDigits (ofDigits whole) (part.getD [])).1,
    exponent.getD 0 - ((part.getD []).length -
      (appendDigits (ofDigits whole) (part.getD [])).2.length : Nat), ?_, ?_⟩
  · have hten : (10 : ℚ) ≠ 0 := by decide
    have hexponent : exponent.getD 0 - (((part.getD []).length -
        (appendDigits (ofDigits whole) (part.getD [])).2.length : Nat) : Int) =
          (appendDigits (ofDigits whole) (part.getD [])).2.length +
            (exponent.getD 0 - (part.getD []).length) := by
      omega
    rw [value, ofDigits_append, hexponent, zpow_add₀ hten, zpow_natCast, ← mul_assoc]
    apply mul_le_mul_of_nonneg_right
    · exact_mod_cast hvalue
    · positivity
  · unfold number?
    simp only [hwhole]
    split
    · exact absurd hnot (by simp)
    · simp

theorem Fractional.exists_double (h : n.Fractional) (hsome : n.number?.isSome) :
    ∃ units, n.number? = some (.double ⟨n.negative, units⟩) := by
  obtain ⟨_, _, -, heq⟩ := h.number?_eq
  rw [heq, Option.isSome_map] at hsome
  obtain ⟨units, hunits⟩ := Option.isSome_iff_exists.mp hsome
  exact ⟨units, by rw [heq, hunits]; rfl⟩

/-- A numeral that exceeds a magnitude by half a spacing at most denotes a finite double, if the
magnitude leaves room for rounding up. -/
theorem Fractional.number?_isSome (h : n.Fractional) {units : Nat}
    (hvalue : 2 * (n.value * Double.one) ≤ 2 * units + Double.spacing units)
    (hroom : units + 3 * Double.topSpacing ≤ Double.bound) : n.number?.isSome := by
  obtain ⟨digits, exponent, hle, heq⟩ := h.number?_eq
  rw [heq, Option.isSome_map]
  apply Double.scale?_isSome
  rintro m rfl
  have hpos := Double.topSpacing_pos
  have hspacing := Double.spacing_le_of_lt_bound (n := units) (by omega)
  have hone : (0 : ℚ) ≤ Double.one := Nat.cast_nonneg _
  have hscaled := mul_le_mul_of_nonneg_right hle hone
  have hunits : 2 * ((digits : ℚ) * 10 ^ m * Double.one) ≤ 2 * units + Double.spacing units := by
    rw [zpow_natCast] at hscaled
    linarith
  have hnat : 2 * (digits * 10 ^ m * Double.one) ≤ 2 * units + Double.spacing units := by
    exact_mod_cast hunits
  omega

/-- The numeral that a decimal is printed as. -/
def ofDecimal (negative : Bool) (d : Decimal) : Numeral :=
  let ds := d.digits.repr.toList
  let first : Int := d.exponent + ds.length - 1
  if -5 ≤ first ∧ first ≤ 15 then
    if 0 ≤ d.exponent then
      ⟨negative, ds ++ List.replicate d.exponent.toNat '0', some ['0'], none⟩
    else if 0 ≤ first then
      ⟨negative, ds.take (first + 1).toNat, some (ds.drop (first + 1).toNat), none⟩
    else ⟨negative, ['0'], some (List.replicate (-first - 1).toNat '0' ++ ds), none⟩
  else ⟨negative, ds.take 1, if ds.length = 1 then none else some (ds.drop 1), some first⟩

theorem toList_decimalText (negative : Bool) (d : Decimal) :
    (decimalText d).toList = (ofDecimal negative d).unsignedChars := by
  unfold decimalText ofDecimal
  generalize d.digits.repr.toList = ds
  generalize hfirst : d.exponent + ds.length - 1 = first
  simp only [hfirst]
  split
  · split
    · simp [unsignedChars, zeros]
    split
    · simp [unsignedChars]
    · simp [unsignedChars, zeros]
  · have hexponent : ((if first < 0 then "-" else "+") ++ first.natAbs.repr).toList =
        (if first < 0 then '-' else '+') :: first.natAbs.repr.toList := by
      split <;> simp
    split
    · simp [unsignedChars, exponentChars, hexponent]
    · simp [unsignedChars, exponentChars, hexponent]

theorem ofDecimal_eq_or (negative : Bool) (d : Decimal) :
    (∃ k : Nat, d.exponent = k ∧ d.digits.repr.toList.length + k ≤ 16 ∧
        ofDecimal negative d =
          ⟨negative, d.digits.repr.toList ++ List.replicate k '0', some ['0'], none⟩) ∨
      (∃ front back, d.digits.repr.toList = front ++ back ∧ front ≠ [] ∧ back ≠ [] ∧
        front.length ≤ 16 ∧ d.exponent = -back.length ∧
        ofDecimal negative d = ⟨negative, front, some back, none⟩) ∨
      (∃ k : Nat, d.exponent = -(k + d.digits.repr.toList.length) ∧
        ofDecimal negative d =
          ⟨negative, ['0'], some (List.replicate k '0' ++ d.digits.repr.toList), none⟩) ∨
      ∃ c back, d.digits.repr.toList = c :: back ∧
        ofDecimal negative d = ⟨negative, [c], if back = [] then none else some back,
          some (d.exponent + back.length)⟩ := by
  have hpos := length_repr_pos d.digits
  unfold ofDecimal
  generalize d.digits.repr.toList = ds at hpos ⊢
  generalize hfirst : d.exponent + ds.length - 1 = first
  simp only [hfirst]
  split
  · next hrange =>
    split
    · next hexponent =>
      left
      exact ⟨d.exponent.toNat, by omega, by omega, rfl⟩
    split
    · next hexponent hpoint =>
      right; left
      refine ⟨_, _, (List.take_append_drop (first + 1).toNat ds).symm, ?_, ?_, ?_, ?_, rfl⟩
      · apply List.ne_nil_of_length_pos
        rw [List.length_take]
        omega
      · apply List.ne_nil_of_length_pos
        rw [List.length_drop]
        omega
      · rw [List.length_take]
        omega
      · rw [List.length_drop]
        omega
    · right; right; left
      exact ⟨(-first - 1).toNat, by omega, rfl⟩
  · right; right; right
    obtain ⟨c, back, rfl⟩ := List.exists_cons_of_length_pos hpos
    refine ⟨c, back, rfl, ?_⟩
    have hback : d.exponent + back.length = first := by
      rw [List.length_cons] at hfirst
      omega
    rw [hback]
    simp

theorem head?_of_append {front back : List Char} {c : Char} (hne : front ≠ [])
    (h : (front ++ back).head? = some c) : front.head? = some c := by
  obtain ⟨x, after, rfl⟩ := List.exists_cons_of_ne_nil hne
  exact h

section Decimals

variable (negative : Bool) {d : Decimal}

theorem getD_part (back : List Char) :
    (if back = [] then none else some back).getD [] = back := by
  split
  · next h => exact h.symm
  · rfl

theorem legible_ofDecimal (hd : d.digits = 0 → d.exponent = 0) :
    (ofDecimal negative d).Legible := by
  have hdigits : ∀ c ∈ d.digits.repr.toList, isDigit c = true := fun c => isDigit_of_mem_repr
  have hzeros : ∀ k, ∀ c ∈ List.replicate k '0', isDigit c = true := by
    intro k c hc
    rw [List.eq_of_mem_replicate hc]
    rfl
  rcases ofDecimal_eq_or negative d with ⟨k, hk, -, heq⟩ |
    ⟨front, back, hsplit, hfront, hback, -, hk, heq⟩ | ⟨k, -, heq⟩ | ⟨c, back, hsplit, heq⟩
  · rw [heq]
    refine ⟨by simp, List.forall_mem_append.mpr ⟨hdigits, hzeros k⟩, ?_, by simp, by simp [isDigit]⟩
    intro hhead
    have hzero := head_repr_eq_zero (head?_of_append (repr_ne_nil _) hhead)
    rw [hd hzero] at hk
    obtain rfl : k = 0 := by omega
    rw [hzero]
    exact Nat.le_refl 1
  · rw [heq]
    rw [hsplit, List.forall_mem_append] at hdigits
    refine ⟨hfront, hdigits.1, ?_, by simpa using hback, hdigits.2⟩
    intro hhead
    have hzero : d.digits = 0 := by
      apply head_repr_eq_zero
      rw [hsplit, List.head?_append, hhead, Option.some_or]
    have := List.length_pos_iff.mpr hback
    have := hd hzero
    omega
  · rw [heq]
    refine ⟨by simp, by simp [isDigit], by simp, by simp, ?_⟩
    exact List.forall_mem_append.mpr ⟨hzeros k, hdigits⟩
  · rw [heq]
    rw [hsplit, List.forall_mem_cons] at hdigits
    refine ⟨by simp, by simpa using hdigits.1, by simp, ?_, ?_⟩
    · by_cases hback : back = []
      · simp [hback]
      · simp [hback]
    · rw [getD_part]
      exact hdigits.2

theorem fractional_ofDecimal (hd : d.digits = 0 → d.exponent = 0) :
    (ofDecimal negative d).Fractional := by
  have hdigits := (legible_ofDecimal negative hd).whole_digits
  rcases ofDecimal_eq_or negative d with ⟨k, -, hlength, heq⟩ |
    ⟨front, back, -, -, -, hlength, -, heq⟩ | ⟨k, -, heq⟩ | ⟨c, back, -, heq⟩
  · rw [heq] at hdigits ⊢
    exact ⟨hdigits, by simpa using hlength, by simp⟩
  · rw [heq] at hdigits ⊢
    exact ⟨hdigits, hlength, by simp⟩
  · rw [heq] at hdigits ⊢
    exact ⟨hdigits, by simp, by simp⟩
  · rw [heq] at hdigits ⊢
    exact ⟨hdigits, by simp, by simp⟩

theorem negative_ofDecimal (d : Decimal) : (ofDecimal negative d).negative = negative := by
  rcases ofDecimal_eq_or negative d with ⟨_, -, -, heq⟩ | ⟨_, _, -, -, -, -, -, heq⟩ | ⟨_, -, heq⟩ |
    ⟨_, _, -, heq⟩ <;> rw [heq]

theorem value_ofDecimal (d : Decimal) : (ofDecimal negative d).value = d.value := by
  have hread := ofDigits_repr d.digits
  have hten : (10 : ℚ) ≠ 0 := by decide
  have hzero : digitValue '0' = 0 := rfl
  rcases ofDecimal_eq_or negative d with ⟨k, hk, -, heq⟩ | ⟨front, back, hsplit, -, -, -, hk, heq⟩ |
    ⟨k, hk, heq⟩ | ⟨c, back, hsplit, heq⟩
  · have hdigits : ofDigits (d.digits.repr.toList ++ List.replicate k '0' ++ ['0']) =
        d.digits * 10 ^ k * 10 := by
      rw [ofDigits_append, ofDigits_append, ofDigits_zeros, ofDigits_singleton, hread, hzero,
        List.length_replicate]
      rfl
    rw [heq, value, Decimal.value, hk, Option.getD_some, hdigits, zpow_natCast]
    norm_num
    ring
  · rw [heq, value, Decimal.value, hk, Option.getD_some, ← hsplit, hread]
    simp
  · have hdigits :
        ofDigits (['0'] ++ (List.replicate k '0' ++ d.digits.repr.toList)) = d.digits := by
      rw [ofDigits_append, ofDigits_append, ofDigits_zeros, ofDigits_singleton, hread, hzero]
      simp
    rw [heq, value, Decimal.value, hk, Option.getD_some, hdigits, List.length_append,
      List.length_replicate]
    simp
  · rw [heq, value, Decimal.value, getD_part, List.singleton_append, ← hsplit, hread]
    simp

end Decimals

end Reader.Numeral

namespace Number

/-- The decimal that a magnitude is printed as. -/
def decimalOf (units : Nat) : Decimal := if units = 0 then ⟨0, 0⟩ else Double.shortest units

/-- The numeral that a number is printed as. -/
def numeral : Number → Numeral
  | .whole n => ⟨decide (n < 0), n.natAbs.repr.toList, none, none⟩
  | .double d => Numeral.ofDecimal d.negative (decimalOf d.units)

/-- Numbers that there are: whole numbers of 64 bits, signed or not, and finite doubles. -/
def Regular : Number → Prop
  | .whole n => -(2 ^ 63) ≤ n ∧ n < 2 ^ 64
  | .double d => Double.Representable d.units

/-- The number that the text of a number is read as. -/
def reread : Number → Number
  | .whole n => .whole n
  | .double d => (Number.double d).numeral.number?.getD (.double d)

theorem decimalOf_proper {units : Nat} (h : (decimalOf units).digits = 0) :
    (decimalOf units).exponent = 0 := by
  unfold decimalOf at h ⊢
  split at h
  · next hunits => rw [if_pos hunits]
  · next hunits =>
    rw [if_neg hunits]
    rcases Double.shortest_eq_or units with hzero | ⟨hpos, -⟩
    · rw [hzero]
    · omega

theorem value_decimalOf_le (units : Nat) :
    2 * ((decimalOf units).value * Double.one) ≤ 2 * units + Double.spacing units := by
  unfold decimalOf
  split
  · rw [Decimal.value]
    have : (0 : ℚ) ≤ units + Double.spacing units := by positivity
    push_cast
    linarith
  · exact Double.value_shortest_le units

theorem toList_text (n : Number) : n.text.toList = n.numeral.chars := by
  cases n with
  | whole n =>
    by_cases hn : n < 0
    · simp [text, numeral, Numeral.chars, Numeral.unsignedChars, hn]
    · simp [text, numeral, Numeral.chars, Numeral.unsignedChars, hn]
  | double d =>
    have hzero : decimalText ⟨0, 0⟩ = "0.0" := by decide
    have htext : (if d.units = 0 then "0.0" else decimalText (Double.shortest d.units)) =
        decimalText (decimalOf d.units) := by
      rw [decimalOf]
      split
      · exact hzero.symm
      · rfl
    rw [text, htext, numeral, Numeral.chars, String.toList_append,
      Numeral.toList_decimalText d.negative, Numeral.negative_ofDecimal]
    cases d.negative <;> simp

theorem legible_numeral (n : Number) : n.numeral.Legible := by
  cases n with
  | whole n =>
    refine ⟨repr_ne_nil _, fun c => isDigit_of_mem_repr, ?_, nofun, nofun⟩
    intro hhead
    rw [numeral, head_repr_eq_zero hhead]
    exact Nat.le_refl 1
  | double d => exact Numeral.legible_ofDecimal d.negative decimalOf_proper

theorem number?_whole {n : Int} (h : (Number.whole n).Regular) :
    (Number.whole n).numeral.number? = some (.whole n) := by
  obtain ⟨hlow, hhigh⟩ := h
  have hmax : maxSignificand = 2 ^ 64 - 1 := rfl
  have hbound : Nat.pow 2 63 = 2 ^ 63 := rfl
  have hdigits : appendDigits 0 n.natAbs.repr.toList = (n.natAbs, []) := by
    rw [appendDigits_eq (by rw [ofDigits_repr, hmax]; omega), ofDigits_repr]
    simp
  unfold Numeral.number?
  simp only [numeral, hdigits, hbound]
  by_cases hn : n < 0
  · have hfits : ¬ (n.natAbs = 0 ∨ 2 ^ 63 < n.natAbs) := by omega
    have habs : -(n.natAbs : Int) = n := by omega
    simp only [hn, decide_true, Bool.not_true, Bool.false_eq_true, if_false, if_neg hfits, habs]
  · have habs : (n.natAbs : Int) = n := by omega
    simp only [hn, decide_false, Bool.not_false, if_true, habs]

theorem fractional_numeral (d : Double) : (Number.double d).numeral.Fractional :=
  Numeral.fractional_ofDecimal d.negative decimalOf_proper

theorem number?_double {d : Double} (h : (Number.double d).Regular) :
    (Number.double d).numeral.number?.isSome := by
  rcases Double.Representable.room_or h with hroom | hunits | hunits
  · refine (fractional_numeral d).number?_isSome ?_ hroom
    rw [numeral, Numeral.value_ofDecimal]
    exact value_decimalOf_le d.units
  · rw [numeral, hunits]
    have hread : ∀ negative, (Numeral.ofDecimal negative
        (decimalOf (Double.bound - 2 * Double.topSpacing))).number?.isSome := by
      decide +kernel
    exact hread d.negative
  · rw [numeral, hunits]
    have hread : ∀ negative, (Numeral.ofDecimal negative
        (decimalOf (Double.bound - Double.topSpacing))).number?.isSome := by
      decide +kernel
    exact hread d.negative

theorem number?_numeral {n : Number} (h : n.Regular) : n.numeral.number? = some n.reread := by
  cases n with
  | whole n => exact number?_whole h
  | double d =>
    obtain ⟨n, hn⟩ := Option.isSome_iff_exists.mp (number?_double h)
    rw [reread, hn, Option.getD_some]

theorem exists_reread_double (d : Double) : ∃ d', (Number.double d).reread = .double d' := by
  rw [reread]
  cases hread : (Number.double d).numeral.number? with
  | none => exact ⟨d, rfl⟩
  | some n =>
    obtain ⟨units, hunits⟩ := (fractional_numeral d).exists_double (by rw [hread]; rfl)
    rw [hread] at hunits
    exact ⟨_, Option.some.inj hunits⟩

theorem number_text {n : Number} (h : n.Regular) (care : Care) {rest : List Char}
    (hrest : EndsNumber rest) :
    Reader.number care (n.text.toList ++ rest) = .ok (n.reread, rest) := by
  rw [toList_text]
  simp only [Reader.number, numeral_chars n.legible_numeral hrest, bind, Except.bind,
    number?_numeral h]

theorem exists_head (n : Number) :
    ∃ c after, n.text.toList = c :: after ∧ (c = '-' ∨ isDigit c = true) := by
  have hlegible := n.legible_numeral
  obtain ⟨c, after, hwhole⟩ := List.exists_cons_of_ne_nil hlegible.whole_ne_nil
  have hc := hlegible.whole_digits c (by rw [hwhole]; exact List.mem_cons_self)
  rw [toList_text, Numeral.chars, Numeral.unsignedChars, hwhole]
  cases n.numeral.negative with
  | true => exact ⟨'-', _, rfl, .inl rfl⟩
  | false => exact ⟨c, _, rfl, .inr hc⟩

end Number

end MarkupTree.Json

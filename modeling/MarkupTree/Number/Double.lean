/-!
# Doubles

The finite double-precision numbers, held exactly: every one is a whole number of units of
2⁻¹⁰⁷⁴. A quotient of naturals is rounded to the nearest double, an exact half going to the even
neighbour, so comparison and rounding are arithmetic on naturals.
-/

namespace MarkupTree

/-- A finite double: its sign and its magnitude in units of 2⁻¹⁰⁷⁴. -/
structure Double where
  negative : Bool
  units : Nat
deriving DecidableEq

namespace Double

def one : Nat := Nat.pow 2 1074

/-- The least magnitude, in units, that is no longer finite. -/
def bound : Nat := Nat.pow 2 2098

/-- The whole number nearest to a quotient, a half going to the even one. -/
def nearest (num den : Nat) : Nat :=
  let q := num / den
  let r := num % den
  if 2 * r < den then q
  else if den < 2 * r then q + 1
  else if q % 2 = 0 then q else q + 1

/-- The distance of neighbouring doubles at a magnitude, in units: 53 binary digits are kept. -/
def spacing (units : Nat) : Nat := Nat.pow 2 (units.log2 - 52)

/-- The magnitude of the double nearest to a quotient of units, as if there were no bound. -/
def roundUnits (num den : Nat) : Nat :=
  let s := spacing (num / den)
  nearest num (den * s) * s

def ofUnits? (negative : Bool) (units : Nat) : Option Double :=
  if units < bound then some ⟨negative, units⟩ else none

/-- The double nearest to `digits * 10 ^ exponent`; none when that is not finite. The two guards
only spare huge powers of ten: past them the answer is none and zero already. -/
def ofDecimal? (negative : Bool) (digits : Nat) (exponent : Int) : Option Double :=
  if digits = 0 then some ⟨negative, 0⟩
  else if 400 < exponent then none
  else if exponent + digits.log2 + 1 < -400 then some ⟨negative, 0⟩
  else if 0 ≤ exponent then
    ofUnits? negative (roundUnits (digits * Nat.pow 10 exponent.toNat * one) 1)
  else
    ofUnits? negative (roundUnits (digits * one) (Nat.pow 10 (-exponent).toNat))

/-- The value in units, with its sign; the two zeros are equal in value. -/
def toInt (d : Double) : Int := if d.negative then -d.units else d.units

def times (a b : Nat) : Nat := roundUnits (a * b) one

def divided (a b : Nat) : Nat := roundUnits (a * one) b

def tenTo (n : Nat) : Nat := roundUnits (Nat.pow 10 n * one) 1

end Double

end MarkupTree

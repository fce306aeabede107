import MarkupTree.Number.Double

/-!
# Decimal notation

Reading a text as a finite double: an optional sign, digits with at most one point among or around
them, and an optional exponent. Nothing else is a number here; in particular words such as
infinity are not, and neither is a value too large to be finite.
-/

namespace MarkupTree

namespace Decimal

def isDigit (c : Char) : Bool := '0' ≤ c && c ≤ '9'

def digitValue (c : Char) : Nat := c.toNat - '0'.toNat

def ofDigits (ds : List Char) : Nat := ds.foldl (fun n c => 10 * n + digitValue c) 0

/-- A sign and what follows it; true for a minus. -/
def sign : List Char → Bool × List Char
  | '-' :: rest => (true, rest)
  | '+' :: rest => (false, rest)
  | cs => (false, cs)

/-- The exponent part up to the end of the text; no exponent part is zero. -/
def exponent? : List Char → Option Int
  | [] => some 0
  | c :: rest =>
    if c = 'e' ∨ c = 'E' then
      let (negative, ds) := sign rest
      if ds.isEmpty ∨ ds.any (fun d => !isDigit d) then none
      else some (if negative then -ofDigits ds else ofDigits ds)
    else none

/-- Digits with at most one point, at least one digit, and the rest of the text. -/
def mantissa? (cs : List Char) : Option (List Char × List Char × List Char) :=
  let whole := cs.takeWhile isDigit
  let (part, rest) :=
    match cs.dropWhile isDigit with
    | '.' :: rest => (rest.takeWhile isDigit, rest.dropWhile isDigit)
    | rest => ([], rest)
  if whole.isEmpty ∧ part.isEmpty then none else some (whole, part, rest)

end Decimal

/-- The double nearest to the number a text writes, if it writes one. -/
def Double.ofText? (cs : List Char) : Option Double := do
  let (negative, unsigned) := Decimal.sign cs
  let (whole, part, rest) ← Decimal.mantissa? unsigned
  let e ← Decimal.exponent? rest
  Double.ofDecimal? negative (Decimal.ofDigits (whole ++ part)) (e - part.length)

end MarkupTree

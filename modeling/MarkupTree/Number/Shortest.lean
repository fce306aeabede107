import MarkupTree.Number.Double

/-!
# Shortest decimals

The decimal with the fewest digits that rounds to a given double, and of those the nearest to it.
Everything is decided by comparing naturals: a magnitude of `u` units is compared with a decimal
`c * 10 ^ k` after clearing both denominators.
-/

namespace MarkupTree

structure Decimal where
  digits : Nat
  exponent : Int
deriving DecidableEq, Repr

namespace Double

/-- The magnitudes that round to a double, in quarters of a unit, and whether the two ends do. The
gap below a power of two is half as wide as the gap above it. -/
structure Interval where
  low : Nat
  high : Nat
  closed : Bool

def interval (units : Nat) : Interval :=
  let s := spacing units
  let m := units / s
  let below := if m = Nat.pow 2 52 ∧ 1 < s then s else 2 * s
  ⟨4 * units - below, 4 * units + 2 * s, m % 2 = 0⟩

/-- Quarters of a unit as a quotient over `10 ^ k`. -/
def onGrid (quarters : Nat) (k : Int) : Nat × Nat :=
  if 0 ≤ k then (quarters, 4 * one * Nat.pow 10 k.toNat)
  else (quarters * Nat.pow 10 (-k).toNat, 4 * one)

def Interval.holds (i : Interval) (c : Nat) (k : Int) : Bool :=
  let (low, den) := onGrid i.low k
  let (high, _) := onGrid i.high k
  if i.closed then low ≤ c * den && c * den ≤ high else low < c * den && c * den < high

/-- Of the multiples of `10 ^ k` that round to the double, the nearest to it; a tie is even. -/
def nearestOnGrid? (units : Nat) (k : Int) : Option Decimal :=
  let i := interval units
  let (num, den) := onGrid (4 * units) k
  let c := num / den
  match decide (0 < c) && i.holds c k, i.holds (c + 1) k with
  | true, true => some ⟨nearest num den, k⟩
  | true, false => some ⟨c, k⟩
  | false, true => some ⟨c + 1, k⟩
  | false, false => none

/-- A power of ten above the magnitude, as an exponent, and close to it. -/
def topExponent (units : Nat) : Int := ((units.log2 : Int) - 1073) * 30103 / 100000 + 2

/-- The coarsest grid with a hit gives the fewest digits. -/
def shortest (units : Nat) : Decimal :=
  let hit := (List.range 24).findSome? fun i : Nat => nearestOnGrid? units (topExponent units - i)
  hit.getD ⟨0, 0⟩

end Double

end MarkupTree

import MarkupTree.Number.Decimal
import MarkupTree.Text.Blank

/-!
# Comparisons

The six operators on texts. Equality is equality of the texts. Order is the order of the numbers
when both texts write finite numbers, blanks around them apart, and else code point order.
-/

namespace MarkupTree

inductive Comparison
  | equal
  | unequal
  | less
  | lessOrEqual
  | greater
  | greaterOrEqual
deriving DecidableEq, Repr

namespace Comparison

def all : List Comparison := [.equal, .unequal, .less, .lessOrEqual, .greater, .greaterOrEqual]

def symbol : Comparison → String
  | .equal => "="
  | .unequal => "!="
  | .less => "<"
  | .lessOrEqual => "<="
  | .greater => ">"
  | .greaterOrEqual => ">="

/-- The finite number that a text writes. -/
def number? (s : String) : Option Double := Double.ofText? (Text.trim s.toList)

def order (a b : String) : Ordering :=
  match number? a, number? b with
  | some x, some y => compare x.toInt y.toInt
  | _, _ => if a < b then .lt else if a = b then .eq else .gt

def holds (op : Comparison) (a b : String) : Bool :=
  match op with
  | .equal => a = b
  | .unequal => a ≠ b
  | .less => order a b = .lt
  | .lessOrEqual => order a b ≠ .gt
  | .greater => order a b = .gt
  | .greaterOrEqual => order a b ≠ .lt

end Comparison

end MarkupTree

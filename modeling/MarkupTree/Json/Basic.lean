import MarkupTree.Dictionary
import MarkupTree.Number.Double

/-!
# JSON values

A value keeps the entries of an object as they are written, in order and with repetitions, because
some readers refuse a repeated key. `Json.canonical` is the value without that detail.
-/

namespace MarkupTree

inductive Json.Number
  | whole (value : Int)
  | double (value : Double)
deriving DecidableEq

inductive Json
  | null
  | bool (value : Bool)
  | number (value : Json.Number)
  | text (value : String)
  | array (items : List Json)
  | object (entries : List (String × Json))

namespace Json

def text? : Json → Option String
  | .text s => some s
  | _ => none

def items? : Json → Option (List Json)
  | .array items => some items
  | _ => none

def entries? : Json → Option (List (String × Json))
  | .object entries => some entries
  | _ => none

/-- All values that stand under a key of an object, in order. -/
def valuesOf (key : String) (entries : List (String × Json)) : List Json :=
  (entries.filter (·.1 = key)).map (·.2)

mutual

/-- Every object with its entries in key order, the last of equal keys standing. -/
def canonical : Json → Json
  | .array items => .array (canonicalItems items)
  | .object entries => .object (canonicalEntries [] entries)
  | v => v

def canonicalItems : List Json → List Json
  | [] => []
  | v :: rest => canonical v :: canonicalItems rest

def canonicalEntries (placed : List (String × Json)) : List (String × Json) → List (String × Json)
  | [] => placed
  | (key, v) :: rest => canonicalEntries (Dictionary.place key (canonical v) placed) rest

end

end Json

end MarkupTree

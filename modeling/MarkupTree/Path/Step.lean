import MarkupTree.Comparison

/-!
# Steps

A path is a list of steps. A step goes from a node to its children, or to everything below it,
keeps the nodes that pass its test and its conditions, and may pick one of them by position. The
last step may yield an attribute of what it keeps.
-/

namespace MarkupTree

namespace Path

/-- What a step asks of a node before its conditions. -/
inductive NameTest
  | context
  | any
  | text
  | anyNamespace (localName : String)
  | name (name : String)
deriving DecidableEq, Repr

mutual

structure Step where
  descendant : Bool
  test : NameTest
  /-- The attribute whose value the step yields. -/
  reads : Option String
  predicates : List Predicate

/-- Positions count from one. A condition keeps the text it was written as. -/
inductive Predicate
  | position (number : Nat)
  | condition (source : String) (test : Condition)

inductive Condition
  | compare (lhs : Operand) (op : Comparison) (rhs : Operand)
  | present (steps : List Step)

inductive Operand
  | path (steps : List Step)
  | literal (text : String)

end

def NameTest.display : NameTest → String
  | .context => "."
  | .any => "*"
  | .text => "text()"
  | .anyNamespace localName => "*:" ++ localName
  | .name n => n

namespace Predicate

def position? : Predicate → Option Nat
  | .position n => some n
  | .condition _ _ => none

/-- The text and the meaning of a condition. -/
def condition? : Predicate → Option (String × Condition)
  | .position _ => none
  | .condition source test => some (source, test)

/-- The text between the brackets. -/
def display : Predicate → String
  | .position n => n.repr
  | .condition source _ => source

end Predicate

namespace Step

/-- The step that selects the context itself. -/
def self : Step := ⟨false, .context, none, []⟩

/-- The first position among the predicates. -/
def position? (s : Step) : Option Nat := s.predicates.findSome? Predicate.position?

def conditions (s : Step) : List (String × Condition) := s.predicates.filterMap Predicate.condition?

/-- The step as it is written after a slash. -/
def display (s : Step) : String :=
  (if s.descendant then "/" else "") ++ s.test.display ++
    String.join (s.predicates.map fun p => "[" ++ p.display ++ "]") ++
    match s.reads with
    | some key => "/@" ++ key
    | none => ""

end Step

end Path

end MarkupTree

import MarkupTree.Query.Node
import MarkupTree.Namespace.Matching
import MarkupTree.Path.Step

/-!
# Walking a path

A step looks at candidates in document order: it keeps those that pass its test and its conditions,
then picks one of them if it has a position, and the next step looks at the children of what is
left. The last step yields the nodes themselves or an attribute of theirs. A condition walks its
own paths from the candidate.
-/

open MarkupTree.Path

namespace MarkupTree

/-- A selected node, or the value of an attribute together with the node that has it. -/
inductive Match
  | node (n : Node)
  | attribute (n : Node) (value : String)

namespace Match

def origin : Match → Node
  | .node n => n
  | .attribute n _ => n

def stringValue : Match → String
  | .node n => n.fragment.stringValue
  | .attribute _ value => value

end Match

namespace Walk

/-- Whether the path of steps starts at the context itself rather than below it. -/
def startsAtContext : List Step → Bool
  | s :: _ => s.test == .context && !s.descendant
  | [] => false

/-- The candidates of the first step of a path that starts at a node. -/
def start (steps : List Step) (n : Node) : List Node :=
  if startsAtContext steps then [n] else n.children

def candidates (descendant : Bool) (nodes : List Node) : List Node :=
  if descendant then nodes.flatMap Node.subtree else nodes

/-- Whether a node passes a test; a name is understood by the caller's declarations. -/
def passes (declared : List Declaration) (test : NameTest) (n : Node) :
    Except UnresolvedName Bool :=
  match test, n.fragment with
  | .context, _ => .ok true
  | .text, .text _ => .ok true
  | .any, .element _ _ _ => .ok true
  | .anyNamespace localName, .element name _ _ => .ok (Name.localPart name = localName)
  | .name name, .element element _ _ => n.scope.named declared element name
  | _, _ => .ok false

/-- The items that a test keeps, unless the test fails on one. -/
def keep {ε α : Type} (p : α → Except ε Bool) : List α → Except ε (List α)
  | [] => .ok []
  | x :: rest => do
    let kept ← p x
    let more ← keep p rest
    .ok (if kept then x :: more else more)

/-- What each item leads to, one after the other, unless one fails. -/
def collect {ε α β : Type} (f : α → Except ε (List β)) : List α → Except ε (List β)
  | [] => .ok []
  | x :: rest => do
    let found ← f x
    let more ← collect f rest
    .ok (found ++ more)

/-- Positions count from one; none picks everything. -/
def pick {α : Type} (position : Option Nat) (items : List α) : List α :=
  match position with
  | none => items
  | some 0 => []
  | some (n + 1) => items[n]?.toList

/-- What the last step yields for a node it has kept. -/
def yields (reads : Option String) (n : Node) : Option Match :=
  match reads with
  | none => some (.node n)
  | some key => (n.fragment.attributes.get? key).map (.attribute n)

variable (declared : List Declaration)

mutual

/-- The matches of a path whose first step looks at the given nodes. -/
def walk : List Step → List Node → Except UnresolvedName (List Match)
  | [], _ => .ok []
  | ⟨descendant, test, reads, predicates⟩ :: rest, nodes => do
    let kept ← keep (fun n => do
      if ← passes declared test n then holdAll predicates n else .ok false)
      (candidates descendant nodes)
    let picked := pick (predicates.findSome? Predicate.position?) kept
    if rest.isEmpty then .ok (picked.filterMap (yields reads))
    else collect (fun n => walk rest n.children) picked

/-- Whether all conditions hold at a node, up to the first that does not. -/
def holdAll : List Predicate → Node → Except UnresolvedName Bool
  | [], _ => .ok true
  | .position _ :: rest, n => holdAll rest n
  | .condition _ test :: rest, n => do
    if ← holds test n then holdAll rest n else .ok false

def holds : Condition → Node → Except UnresolvedName Bool
  | .compare lhs op rhs, n => do
    let left ← value lhs n
    let right ← value rhs n
    .ok (op.holds left right)
  | .present steps, n => do
    let found ← walk steps (start steps n)
    .ok (!found.isEmpty)

/-- The text of an operand: of a path its first match counts, and no match is the empty text. -/
def value : Operand → Node → Except UnresolvedName String
  | .literal text, _ => .ok text
  | .path steps, n => do
    let found ← walk steps (start steps n)
    .ok ((found.head?.map Match.stringValue).getD "")

end

def walkFrom (steps : List Step) (n : Node) : Except UnresolvedName (List Match) :=
  walk declared steps (start steps n)

end Walk

end MarkupTree

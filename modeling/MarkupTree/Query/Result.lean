import MarkupTree.Query.Walk
import MarkupTree.Path.Parse
import MarkupTree.Tree.Form
import MarkupTree.Tree.OfJson

/-!
# Query results

A query answers with trees and texts. A matched element becomes a tree of its own that declares
every namespace in scope at its place, so that its names keep their meaning; what it declares
itself stays as it is.
-/

namespace MarkupTree

inductive Result
  | tree (t : Tree)
  | text (value : String)
deriving DecidableEq

namespace Result

def tree? : Result → Option Tree
  | .tree t => some t
  | .text _ => none

def text? : Result → Option String
  | .tree _ => none
  | .text value => some value

def rootName? (r : Result) : Option String := r.tree?.bind Tree.rootName?

/-- An element with the declarations of a scope added to its attributes. -/
def declareAll (scope : Scope) : Fragment → Fragment
  | .element name attributes children =>
    .element name (attributes.insertAllNew scope.attributeEntries) children
  | .text content => .text content

def ofMatch : Match → Result
  | .attribute _ value => .text value
  | .node n =>
    match n.fragment with
    | .text content => .text content
    | .element name attributes children =>
      .tree (Tree.ofRoot (declareAll n.scope (.element name attributes children)))

def toJson : Result → Json
  | .tree t => t.toJson
  | .text value => .text value

/-- A result from its JSON form. A tree may leave out its list of roots, may be an array that holds
that list, and its roots may tell their kind by number. -/
def ofJson? : Json → Option Result
  | .object entries =>
    match Json.valuesOf "elements" entries with
    | [] => some (.tree Tree.empty)
    | [.array roots] => do some (.tree ⟨(← Fragment.listOfJson? roots).head?⟩)
    | _ => none
  | .array [] => some (.tree Tree.empty)
  | .array [.array roots] => do some (.tree ⟨(← Fragment.listOfJson? roots).head?⟩)
  | .text value => some (.text value)
  | _ => none

end Result

/-- The results of a parsed path on a tree. -/
def Path.Compiled.evaluate (p : Path.Compiled) (t : Tree) (declared : List Declaration) :
    Except UnresolvedName (List Result) :=
  match t.root, p.steps with
  | none, _ => .ok []
  | some _, none => .ok [.tree t]
  | some root, some steps => do
    let found ← Walk.walkFrom declared steps (Node.ofRoot root)
    .ok (found.map Result.ofMatch)

end MarkupTree

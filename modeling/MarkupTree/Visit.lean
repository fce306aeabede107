import MarkupTree.Query.Node

/-!
# Visiting a tree

Every node of a tree with its parent, children before their parent.
-/

namespace MarkupTree

structure Visit where
  node : Node
  parent : Option Node
deriving DecidableEq

namespace Visit

mutual

/-- The visits at and below a fragment that stands in the scope `outer`. -/
def postorder (parent : Option Node) (address : List Nat) (outer : Scope) : Fragment → List Visit
  | .text content => [⟨⟨address, .text content, outer⟩, parent⟩]
  | .element name attributes children =>
    let node : Node := ⟨address, .element name attributes children, outer.extend attributes⟩
    postorders node 0 children ++ [⟨node, parent⟩]

def postorders (parent : Node) (index : Nat) : List Fragment → List Visit
  | [] => []
  | f :: rest =>
    postorder (some parent) (parent.address ++ [index]) parent.scope f ++
      postorders parent (index + 1) rest

end

end Visit

def Tree.visits (t : Tree) : List Visit :=
  match t.root with
  | some root => Visit.postorder none [] Scope.empty root
  | none => []

end MarkupTree

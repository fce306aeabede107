import MarkupTree.Namespace.Scope

/-!
# Nodes

A node is a fragment at its place in a tree: its address, which lists the child to take at every
level from the root, and the namespaces in scope inside it. Nodes at different places differ even
when their fragments are equal.
-/

namespace MarkupTree

structure Node where
  address : List Nat
  fragment : Fragment
  scope : Scope
deriving DecidableEq

namespace Node

def ofRoot (root : Fragment) : Node := ⟨[], root, Scope.empty.enter root⟩

/-- Fragments that stand side by side in a scope, numbered from `index`. -/
def siblings (address : List Nat) (outer : Scope) (index : Nat) : List Fragment → List Node
  | [] => []
  | f :: rest => ⟨address ++ [index], f, outer.enter f⟩ :: siblings address outer (index + 1) rest

def children (n : Node) : List Node := siblings n.address n.scope 0 n.fragment.children

mutual

/-- A fragment and all below it in document order, each before what is below it. -/
def preorder (address : List Nat) (scope : Scope) : Fragment → List Node
  | .text content => [⟨address, .text content, scope⟩]
  | .element name attributes children =>
    ⟨address, .element name attributes children, scope⟩ :: preorders address scope 0 children

def preorders (address : List Nat) (outer : Scope) (index : Nat) : List Fragment → List Node
  | [] => []
  | f :: rest =>
    preorder (address ++ [index]) (outer.enter f) f ++ preorders address outer (index + 1) rest

end

/-- The node and all below it, in document order. -/
def subtree (n : Node) : List Node := preorder n.address n.scope n.fragment

theorem subtree_eq (n : Node) :
    n.subtree = n :: preorders n.address n.scope 0 n.fragment.children := by
  obtain ⟨address, f, scope⟩ := n
  cases f <;> simp [subtree, preorder, preorders, Fragment.children]

theorem preorders_eq_flatMap (address : List Nat) (outer : Scope) (index : Nat)
    (fs : List Fragment) :
    preorders address outer index fs = (siblings address outer index fs).flatMap subtree := by
  induction fs generalizing index with
  | nil => simp [preorders, siblings]
  | cons f rest ih => simp [preorders, siblings, subtree, ih]

theorem subtree_eq_cons_flatMap (n : Node) : n.subtree = n :: n.children.flatMap subtree := by
  rw [subtree_eq, preorders_eq_flatMap, children]

end Node

end MarkupTree

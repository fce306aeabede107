import MarkupTree.Proofs.Query.Simulation

/-!
# Walks do not see where a tree stands

A walk reads the fragments and scopes of nodes, never their addresses. So a walk in a tree that
stands below an address finds what it finds in the tree alone, at addresses below that one.
-/

set_option autoImplicit false

open MarkupTree.Path

namespace MarkupTree

/-- The node when its tree stands at an address. -/
def Node.under (base : List Nat) (n : Node) : Node := { n with address := base ++ n.address }

def Match.under (base : List Nat) : Match → Match
  | .node n => .node (n.under base)
  | .attribute n value => .attribute (n.under base) value

variable (base : List Nat)

theorem Result.ofMatch_under (m : Match) : Result.ofMatch (m.under base) = Result.ofMatch m := by
  cases m <;> rfl

namespace Node

theorem siblings_under (address : List Nat) (outer : Scope) (index : Nat) (fs : List Fragment) :
    siblings (base ++ address) outer index fs =
      (siblings address outer index fs).map (under base) := by
  induction fs generalizing index with
  | nil => rfl
  | cons f fs ih => simp [siblings, under, ih]

theorem children_under (n : Node) : (n.under base).children = n.children.map (under base) :=
  siblings_under base n.address n.scope 0 n.fragment.children

end Node

theorem forall₂_map_iff {α β : Type} {f : α → β} {xs : List α} {ys : List β} :
    List.Forall₂ (fun x y => y = f x) xs ys ↔ ys = xs.map f := by
  induction xs generalizing ys with
  | nil => simp
  | cons x xs ih => simp [List.forall₂_cons_left_iff, ih]

namespace Walk

section Loops

variable {ε α β γ : Type}

theorem collect_map (f : β → Except ε (List γ)) (g : α → β) (xs : List α) :
    collect f (xs.map g) = collect (fun x => f (g x)) xs := by
  induction xs with
  | nil => rfl
  | cons x rest ih => simp only [List.map_cons, collect, ih]

theorem collect_map_result (f : α → Except ε (List β)) (g : β → γ) (xs : List α) :
    collect (fun x => (f x).map (List.map g)) xs = (collect f xs).map (List.map g) := by
  induction xs with
  | nil => rfl
  | cons x rest ih =>
    simp only [collect, ih]
    cases f x with
    | error e => rfl
    | ok found =>
      cases collect f rest with
      | error e => rfl
      | ok more => exact congrArg Except.ok List.map_append.symm

end Loops

variable (declared : List Declaration)

theorem under_simulation :
    Simulation declared declared (fun _ => True) (· = ·) (fun n m => m = Node.under base n) where
  passes := by
    rintro s n _ - rfl
    exact corresponds_self fun _ _ => rfl
  reads := by
    rintro s n _ key - - rfl
    rfl
  stringValue := by
    rintro n _ rfl
    rfl
  children := by
    rintro n _ rfl
    exact forall₂_map_iff.mpr (Node.children_under base n)

theorem walk_under (steps : List Step) (nodes : List Node) :
    walk declared steps (nodes.map (Node.under base)) =
      (walk declared steps nodes).map (List.map (Match.under base)) := by
  have hwalk := (under_simulation base declared).walk steps (fun _ _ => trivial)
    (forall₂_map_iff.mpr (rfl : nodes.map (Node.under base) = nodes.map (Node.under base)))
  rcases corresponds_iff.mp hwalk with ⟨e, _, hhere, hthere, rfl⟩ | ⟨found, _, hhere, hthere, hboth⟩
  · rw [hhere, hthere]
    rfl
  · rw [hhere, hthere]
    apply congrArg Except.ok
    apply forall₂_map_iff.mp
    apply hboth.imp
    intro x y hxy
    cases hxy with
    | node h => rw [h]; rfl
    | reading h => rw [h]; rfl

end Walk

end MarkupTree

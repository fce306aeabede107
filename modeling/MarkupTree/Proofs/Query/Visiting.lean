import Mathlib.Data.List.Perm.Basic
import MarkupTree.Visit
import MarkupTree.Proofs.Query.Extraction
import MarkupTree.Proofs.Query.Filtering

/-!
# Visiting every node

A tree is visited from the leaves up, with scopes and parents handed down on the way. The visits are
the nodes of the tree in another order, so that their scopes are those that queries see, and the
elements below the root are those that `//*` finds.
-/

set_option autoImplicit false

namespace MarkupTree

/-- The fragment at an address below a fragment. -/
def Fragment.at? (f : Fragment) : List Nat → Option Fragment
  | [] => some f
  | i :: address => f.children[i]?.bind fun child => child.at? address

def Tree.at? (t : Tree) (address : List Nat) : Option Fragment :=
  t.root.bind fun root => root.at? address

namespace Node

/-- The order of the visits: what is below a node comes before it, and else the document counts. -/
def VisitedBefore (n m : Node) : Prop := m.Above n ∨ n.Apart m

theorem above_of_mem_subtree_children {n c m : Node} (hc : c ∈ n.children) (hm : m ∈ c.subtree) :
    n.Above m := by
  obtain ⟨i, f, -, rfl⟩ := mem_children_iff.mp hc
  obtain ⟨rest, hrest⟩ := address_prefix_of_mem_subtree hm
  have haddress : m.address = n.address ++ i :: rest := by simpa using hrest.symm
  constructor
  · exact ⟨_, haddress.symm⟩
  · intro heq
    simp [← heq] at haddress

theorem Apart.subtree {n m x y : Node} (h : n.Apart m) (hx : x ∈ n.subtree) (hy : y ∈ m.subtree) :
    x.Apart y := by
  refine ⟨h.precedes hx hy, ?_⟩
  intro hxy
  have hny := (address_prefix_of_mem_subtree hx).trans hxy
  have hmy := address_prefix_of_mem_subtree hy
  rcases List.prefix_or_prefix_of_prefix hny hmy with hnm | hmn
  · exact h.2 hnm
  · by_cases heq : m.address = n.address
    · exact h.2 (heq ▸ List.prefix_refl _)
    · have hmn : m.Above n := ⟨hmn, heq⟩
      exact h.1.asymm hmn.precedes

theorem VisitedBefore.address_ne {n m : Node} (h : n.VisitedBefore m) : n.address ≠ m.address := by
  rcases h with h | h
  · exact h.2.symm
  · intro heq
    exact h.2 (heq ▸ List.prefix_refl _)

theorem at?_of_mem_subtree {n m : Node} (hm : m ∈ n.subtree) :
    ∃ below, m.address = n.address ++ below ∧ n.fragment.at? below = some m.fragment := by
  induction n using upward with
  | h n ih =>
    rcases mem_subtree_iff.mp hm with rfl | ⟨c, hc, hm⟩
    · exact ⟨[], (List.append_nil _).symm, rfl⟩
    · obtain ⟨i, f, hf, rfl⟩ := mem_children_iff.mp hc
      obtain ⟨below, haddress, hat⟩ := ih _ hc hm
      refine ⟨i :: below, ?_, ?_⟩
      · rw [haddress, List.append_assoc, List.singleton_append]
      · rw [Fragment.at?, hf]
        exact hat

theorem exists_mem_subtree_of_at? {n : Node} {below : List Nat} {f : Fragment}
    (h : n.fragment.at? below = some f) :
    ∃ m ∈ n.subtree, m.address = n.address ++ below ∧ m.fragment = f := by
  induction below generalizing n with
  | nil =>
    cases h
    exact ⟨n, mem_subtree_self n, (List.append_nil _).symm, rfl⟩
  | cons i below ih =>
    obtain ⟨g, hg, h⟩ := Option.bind_eq_some_iff.mp h
    have hc : ⟨n.address ++ [i], g, n.scope.enter g⟩ ∈ n.children :=
      mem_children_iff.mpr ⟨i, g, hg, rfl⟩
    obtain ⟨m, hm, haddress, hf⟩ := ih (n := ⟨n.address ++ [i], g, n.scope.enter g⟩) h
    refine ⟨m, mem_subtree_iff.mpr (.inr ⟨_, hc, hm⟩), ?_, hf⟩
    rw [haddress, List.append_assoc, List.singleton_append]

end Node

/-- A fragment stands at a place of a tree exactly if a node of the tree has it there. -/
theorem Tree.at?_eq_some_iff {t : Tree} {address : List Nat} {f : Fragment} :
    t.at? address = some f ↔ ∃ n ∈ t.nodes, n.address = address ∧ n.fragment = f := by
  obtain ⟨root⟩ := t
  cases root with
  | none => simp [at?, nodes]
  | some root =>
    constructor
    · intro h
      exact Node.exists_mem_subtree_of_at? (n := Node.ofRoot root) h
    · rintro ⟨n, hn, rfl, rfl⟩
      obtain ⟨below, haddress, hat⟩ := Node.at?_of_mem_subtree hn
      rw [haddress]
      exact hat

namespace Visit

open Node

theorem postorders_eq (parent : Node) (index : Nat) (fs : List Fragment) :
    postorders parent index fs = (siblings parent.address parent.scope index fs).flatMap
      fun c => postorder (some parent) c.address parent.scope c.fragment := by
  induction fs generalizing index with
  | nil => rw [postorders, siblings, List.flatMap_nil]
  | cons f rest ih => rw [postorders, siblings, List.flatMap_cons, ih]

section Below

variable {n : Node} {outer : Scope} (hn : n.scope = outer.enter n.fragment)
include hn

theorem postorder_eq (parent : Option Node) :
    postorder parent n.address outer n.fragment =
      (n.children.flatMap fun c => postorder (some n) c.address n.scope c.fragment) ++
        [⟨n, parent⟩] := by
  obtain ⟨address, f, scope⟩ := n
  obtain rfl : scope = outer.enter f := hn
  cases f with
  | text content =>
    rw [postorder]
    rfl
  | element name attributes children =>
    rw [postorder]
    dsimp only
    rw [postorders_eq]
    rfl

theorem postorder_perm (parent : Option Node) :
    ((postorder parent n.address outer n.fragment).map node).Perm n.subtree := by
  induction n using upward generalizing outer parent with
  | h n ih =>
    rw [postorder_eq hn, List.map_append, List.map_flatMap, subtree_eq_cons_flatMap]
    refine (List.perm_append_singleton _ _).trans (List.Perm.cons n ?_)
    apply List.Perm.flatMap_left
    intro c hc
    obtain ⟨i, f, -, rfl⟩ := mem_children_iff.mp hc
    exact ih _ hc rfl _

theorem postorder_visitedBefore (parent : Option Node) :
    ((postorder parent n.address outer n.fragment).map node).Pairwise VisitedBefore := by
  induction n using upward generalizing outer parent with
  | h n ih =>
    -- What is visited at and below a child are the nodes there.
    have hvisits : ∀ c ∈ n.children, ∀ m,
        m ∈ (postorder (some n) c.address n.scope c.fragment).map node ↔ m ∈ c.subtree := by
      intro c hc m
      obtain ⟨i, f, -, rfl⟩ := mem_children_iff.mp hc
      exact (postorder_perm rfl (some n)).mem_iff
    rw [postorder_eq hn, List.map_append, List.map_flatMap, List.pairwise_append]
    refine ⟨?_, List.pairwise_singleton _ _, ?_⟩
    · apply List.pairwise_flatMap.mpr
      constructor
      · intro c hc
        obtain ⟨i, f, -, rfl⟩ := mem_children_iff.mp hc
        exact ih _ hc rfl _
      · apply n.children_apart.imp_of_mem
        intro c d hc hd hapart x hx y hy
        exact .inr (hapart.subtree ((hvisits c hc x).mp hx) ((hvisits d hd y).mp hy))
    · intro m hm k hk
      obtain ⟨c, hc, hm⟩ := List.mem_flatMap.mp hm
      obtain rfl := List.mem_singleton.mp hk
      exact .inl (above_of_mem_subtree_children hc ((hvisits c hc m).mp hm))

theorem parent_of_mem_postorder {parent : Option Node} {v : Visit}
    (hv : v ∈ postorder parent n.address outer n.fragment) :
    v = ⟨n, parent⟩ ∨ ∃ p ∈ n.subtree, v.parent = some p ∧ v.node ∈ p.children := by
  induction n using upward generalizing outer parent with
  | h n ih =>
    rw [postorder_eq hn, List.mem_append, List.mem_singleton] at hv
    rcases hv with hv | hv
    · right
      obtain ⟨c, hc, hv⟩ := List.mem_flatMap.mp hv
      obtain ⟨i, f, hf, rfl⟩ := mem_children_iff.mp hc
      rcases ih _ hc rfl hv with rfl | ⟨p, hp, hparent, hchild⟩
      · exact ⟨n, mem_subtree_self n, rfl, hc⟩
      · exact ⟨p, mem_subtree_iff.mpr (.inr ⟨_, hc, hp⟩), hparent, hchild⟩
    · exact .inl hv

end Below

end Visit

namespace Tree

open Visit

theorem visits_perm (t : Tree) : (t.visits.map node).Perm t.nodes := by
  obtain ⟨root⟩ := t
  cases root with
  | none => exact .nil
  | some root => exact postorder_perm (n := Node.ofRoot root) rfl none

theorem visits_visitedBefore (t : Tree) : (t.visits.map node).Pairwise Node.VisitedBefore := by
  obtain ⟨root⟩ := t
  cases root with
  | none => exact .nil
  | some root => exact postorder_visitedBefore (n := Node.ofRoot root) rfl none

theorem node_mem_nodes {t : Tree} {v : Visit} (hv : v ∈ t.visits) : v.node ∈ t.nodes :=
  t.visits_perm.mem_iff.mp (List.mem_map_of_mem hv)

theorem exists_visit {t : Tree} {n : Node} (hn : n ∈ t.nodes) : ∃ v ∈ t.visits, v.node = n :=
  List.mem_map.mp (t.visits_perm.mem_iff.mpr hn)

theorem at?_eq_some_iff_visit {t : Tree} {address : List Nat} {f : Fragment} :
    t.at? address = some f ↔ ∃ v ∈ t.visits, v.node.address = address ∧ v.node.fragment = f := by
  rw [at?_eq_some_iff]
  constructor
  · rintro ⟨n, hn, haddress, hf⟩
    obtain ⟨v, hv, rfl⟩ := exists_visit hn
    exact ⟨v, hv, haddress, hf⟩
  · rintro ⟨v, hv, haddress, hf⟩
    exact ⟨v.node, node_mem_nodes hv, haddress, hf⟩

theorem visits_nodup (t : Tree) : (t.visits.map (·.node.address)).Nodup := by
  have hne : (t.visits.map node).Pairwise fun n m => n.address ≠ m.address :=
    t.visits_visitedBefore.imp Node.VisitedBefore.address_ne
  rw [List.pairwise_map] at hne
  exact List.pairwise_map.mpr hne

theorem parent_of_mem_visits {root : Fragment} {v : Visit} (hv : v ∈ (ofRoot root).visits) :
    v = ⟨Node.ofRoot root, none⟩ ∨
      ∃ p ∈ (ofRoot root).nodes, v.parent = some p ∧ v.node ∈ p.children :=
  parent_of_mem_postorder (n := Node.ofRoot root) rfl hv

end Tree

theorem elementsBelow_eq (root : Fragment) :
    elementsBelow root =
      (Tree.ofRoot root).nodes.filter fun n => n.address ≠ [] ∧ n.fragment.isElement = true := by
  have hbelow : ∀ n ∈ (Node.ofRoot root).children.flatMap Node.subtree, n.address ≠ [] := by
    intro n hn
    obtain ⟨c, hc, hn⟩ := List.mem_flatMap.mp hn
    exact (Node.above_of_mem_subtree_children hc hn).2.symm
  have hnodes : (Tree.ofRoot root).nodes =
      Node.ofRoot root :: (Node.ofRoot root).children.flatMap Node.subtree :=
    Node.subtree_eq_cons_flatMap _
  rw [hnodes, List.filter_cons_of_neg (by simp [Node.ofRoot])]
  apply List.filter_congr
  intro n hn
  simp [hbelow n hn]

theorem inDocumentOrder_elementsBelow (root : Fragment) :
    InDocumentOrder (Tree.ofRoot root) (elementsBelow root) := by
  have hsublist : (elementsBelow root).Sublist (Tree.ofRoot root).nodes := by
    rw [elementsBelow_eq]
    exact List.filter_sublist
  apply (inDocumentOrder_iff fun n hn => hsublist.subset hn).mpr
  exact (Tree.ofRoot root).nodes_precedes.sublist hsublist

/-- The visits of a tree that is not empty. Every place is visited once, what is below a node before
it and else in document order. A visit has the scope that the attributes from the root down make. Its
parent is the node whose child it is, as that is visited, and only the root has none. The elements
visited below the root, each with its scope, are those that `//*` finds, there in document order. -/
theorem visits_every_place (root : Fragment) (declared : List Declaration) :
    let t := Tree.ofRoot root
    (∀ address f, t.at? address = some f ↔
      ∃ v ∈ t.visits, v.node.address = address ∧ v.node.fragment = f) ∧
    (t.visits.map (·.node.address)).Nodup ∧
    (t.visits.map (·.node)).Pairwise Node.VisitedBefore ∧
    (∀ v ∈ t.visits,
      v.node.scope =
        ((t.lineage v.node.address).map Fragment.attributes).foldl Scope.extend Scope.empty ∧
      (v.parent = none ↔ v.node.address = []) ∧
      ∀ p, v.parent = some p → v.node ∈ p.children ∧ ∃ w ∈ t.visits, w.node = p) ∧
    ∃ p nodes, Path.compile "//*" = .ok p ∧
      p.evaluate t declared = .ok (nodes.map fun n => .tree n.asTree) ∧
      InDocumentOrder t nodes ∧
      nodes.Perm ((t.visits.map (·.node)).filter fun n =>
        n.address ≠ [] ∧ n.fragment.isElement = true) := by
  intro t
  refine ⟨fun _ _ => Tree.at?_eq_some_iff_visit, t.visits_nodup, t.visits_visitedBefore, ?_, ?_⟩
  · intro v hv
    refine ⟨Tree.scope_of_mem_nodes (Tree.node_mem_nodes hv), ?_⟩
    rcases Tree.parent_of_mem_visits hv with rfl | ⟨p, hp, hparent, hchild⟩
    · exact ⟨⟨fun _ => rfl, fun _ => rfl⟩, nofun⟩
    · obtain ⟨i, f, -, hnode⟩ := Node.mem_children_iff.mp hchild
      rw [hparent]
      refine ⟨⟨nofun, ?_⟩, ?_⟩
      · intro haddress
        simp [hnode] at haddress
      · rintro _ ⟨⟩
        exact ⟨hchild, Tree.exists_visit hp⟩
  · refine ⟨⟨"//*", some [⟨true, .any, none, []⟩]⟩, elementsBelow root, rfl,
      evaluate_every rfl root declared, inDocumentOrder_elementsBelow root, ?_⟩
    rw [elementsBelow_eq]
    exact (t.visits_perm.filter _).symm

example :
    let leaf (name : String) := Fragment.element name Dictionary.empty []
    let t := Tree.ofRoot (.element "r" Dictionary.empty
      [.element "a" Dictionary.empty [.text "x", leaf "b"], leaf "c"])
    t.visits.map (fun v => (v.node.address, v.parent.map Node.address)) =
      [([0, 0], some [0]), ([0, 1], some [0]), ([0], some []), ([1], some []), ([], none)] := by
  decide +kernel

end MarkupTree

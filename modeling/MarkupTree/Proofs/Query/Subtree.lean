import MarkupTree.Proofs.Query.Selection

/-!
# Below a node

Children by index, induction from the leaves of a tree up, and the fact that a walk never leaves
the subtrees of the nodes it starts from.
-/

set_option autoImplicit false

open MarkupTree.Path

namespace MarkupTree

theorem Fragment.sizeOf_lt_of_mem_children {f g : Fragment} (h : g ∈ f.children) :
    sizeOf g < sizeOf f := by
  cases f with
  | text => cases h
  | element name attributes children =>
    have hlt := List.sizeOf_lt_of_mem h
    simp only [Fragment.children] at hlt
    simp only [Fragment.element.sizeOf_spec]
    omega

namespace Node

theorem mem_siblings_iff {address : List Nat} {outer : Scope} {index : Nat} {fs : List Fragment}
    {n : Node} :
    n ∈ siblings address outer index fs ↔
      ∃ i f, fs[i]? = some f ∧ n = ⟨address ++ [index + i], f, outer.enter f⟩ := by
  induction fs generalizing index with
  | nil => simp [siblings]
  | cons g rest ih =>
    rw [siblings, List.mem_cons, ih]
    constructor
    · rintro (rfl | ⟨i, f, hf, rfl⟩)
      · exact ⟨0, g, rfl, rfl⟩
      · exact ⟨i + 1, f, by simpa using hf, by simp [Nat.add_comm i 1, Nat.add_assoc]⟩
    · rintro ⟨i, f, hf, rfl⟩
      cases i with
      | zero => cases hf; exact .inl rfl
      | succ i => exact .inr ⟨i, f, by simpa using hf, by simp [Nat.add_comm i 1, Nat.add_assoc]⟩

theorem mem_children_iff {n c : Node} :
    c ∈ n.children ↔ ∃ i f, n.fragment.children[i]? = some f ∧
      c = ⟨n.address ++ [i], f, n.scope.enter f⟩ := by
  simp [children, mem_siblings_iff]

theorem sizeOf_fragment_lt_of_mem_children {n c : Node} (h : c ∈ n.children) :
    sizeOf c.fragment < sizeOf n.fragment := by
  obtain ⟨i, f, hf, rfl⟩ := mem_children_iff.mp h
  exact Fragment.sizeOf_lt_of_mem_children (List.mem_of_getElem? hf)

@[elab_as_elim] theorem upward {P : Node → Prop} (h : ∀ n, (∀ c ∈ n.children, P c) → P n)
    (n : Node) : P n :=
  h n fun c _ => upward h c
termination_by sizeOf n.fragment
decreasing_by exact sizeOf_fragment_lt_of_mem_children ‹_›

theorem mem_subtree_iff {n m : Node} : m ∈ n.subtree ↔ m = n ∨ ∃ c ∈ n.children, m ∈ c.subtree := by
  rw [subtree_eq_cons_flatMap, List.mem_cons, List.mem_flatMap]

theorem mem_subtree_self (n : Node) : n ∈ n.subtree := mem_subtree_iff.mpr (.inl rfl)

theorem mem_subtree_trans {n m k : Node} (hm : m ∈ n.subtree) (hk : k ∈ m.subtree) :
    k ∈ n.subtree := by
  induction n using upward with
  | h n ih =>
    rcases mem_subtree_iff.mp hm with rfl | ⟨c, hc, hm⟩
    · exact hk
    · exact mem_subtree_iff.mpr (.inr ⟨c, hc, ih c hc hm⟩)

theorem downward {P : Node → Prop} (h : ∀ n, P n → ∀ c ∈ n.children, P c) {n m : Node} (hn : P n)
    (hm : m ∈ n.subtree) : P m := by
  induction n using upward with
  | h n ih =>
    rcases mem_subtree_iff.mp hm with rfl | ⟨c, hc, hm⟩
    · exact hn
    · exact ih c hc (h n hn c hc) hm

theorem mem_subtree_of_mem_children {n c : Node} (hc : c ∈ n.children) : c ∈ n.subtree :=
  mem_subtree_iff.mpr (.inr ⟨c, hc, mem_subtree_self c⟩)

theorem mem_flatMap_subtree_children_iff {n m : Node} :
    m ∈ n.children.flatMap subtree ↔ ∃ parent ∈ n.subtree, m ∈ parent.children := by
  constructor
  · intro h
    obtain ⟨c, hc, hm⟩ := List.mem_flatMap.mp h
    induction n using upward generalizing c with
    | h n ih =>
      rcases mem_subtree_iff.mp hm with rfl | ⟨c', hc', hm⟩
      · exact ⟨n, mem_subtree_self n, hc⟩
      · obtain ⟨parent, hparent, hm⟩ :=
          ih c hc (List.mem_flatMap.mpr ⟨c', hc', hm⟩) c' hc' hm
        exact ⟨parent, mem_subtree_iff.mpr (.inr ⟨c, hc, hparent⟩), hm⟩
  · rintro ⟨parent, hparent, hm⟩
    rcases mem_subtree_iff.mp hparent with rfl | ⟨c, hc, hparent⟩
    · exact List.mem_flatMap.mpr ⟨m, hm, mem_subtree_self m⟩
    · exact List.mem_flatMap.mpr
        ⟨c, hc, mem_subtree_trans hparent (mem_subtree_of_mem_children hm)⟩

theorem address_prefix_of_mem_subtree {n m : Node} (h : m ∈ n.subtree) :
    n.address <+: m.address := by
  induction n using upward with
  | h n ih =>
    rcases mem_subtree_iff.mp h with rfl | ⟨c, hc, hm⟩
    · exact List.prefix_refl _
    · obtain ⟨i, f, _, rfl⟩ := mem_children_iff.mp hc
      exact (List.prefix_append _ _).trans (ih _ hc hm)

end Node

namespace Walk

variable {declared : List Declaration}

theorem mem_candidates {descendant : Bool} {nodes : List Node} {m : Node}
    (h : m ∈ candidates descendant nodes) : ∃ n ∈ nodes, m ∈ n.subtree := by
  cases descendant with
  | false => exact ⟨m, h, Node.mem_subtree_self m⟩
  | true => exact List.mem_flatMap.mp h

theorem mem_selected {s : Step} {nodes picked : List Node} {m : Node}
    (h : selected declared s nodes = .ok picked) (hm : m ∈ picked) :
    ∃ n ∈ nodes, m ∈ n.subtree :=
  mem_candidates ((selected_sublist declared h).subset hm)

theorem exists_subtree_of_mem_walk {steps : List Step} {nodes : List Node} {found : List Match}
    {m : Match} (h : walk declared steps nodes = .ok found) (hm : m ∈ found) :
    ∃ n ∈ nodes, m.origin ∈ n.subtree := by
  induction steps generalizing nodes found with
  | nil => cases h; cases hm
  | cons s rest ih =>
    rw [walk_cons] at h
    obtain ⟨picked, hpicked, h⟩ := bind_eq_ok_iff.mp h
    split at h
    · cases h
      obtain ⟨n, hn, hy⟩ := List.mem_filterMap.mp hm
      rw [yields_origin hy]
      exact mem_selected hpicked hn
    · obtain ⟨hall, rfl⟩ := collect_eq_ok h
      obtain ⟨k, hk, hmk⟩ := List.mem_flatMap.mp hm
      obtain ⟨c, hc, hmc⟩ := ih (hall k hk) hmk
      obtain ⟨n, hn, hkn⟩ := mem_selected hpicked hk
      exact ⟨n, hn, Node.mem_subtree_trans hkn
        (Node.mem_subtree_trans (Node.mem_subtree_of_mem_children hc) hmc)⟩

theorem mem_subtree_of_mem_walkFrom {steps : List Step} {n : Node} {found : List Match} {m : Match}
    (h : walkFrom declared steps n = .ok found) (hm : m ∈ found) : m.origin ∈ n.subtree := by
  obtain ⟨k, hk, hmk⟩ := exists_subtree_of_mem_walk h hm
  unfold start at hk
  split at hk
  · rw [List.mem_singleton] at hk
    exact hk ▸ hmk
  · exact Node.mem_subtree_trans (Node.mem_subtree_of_mem_children hk) hmk

end Walk

end MarkupTree

import Mathlib.Data.List.Sort
import MarkupTree.Proofs.Query.Subtree

/-!
# Document order of what a path finds

One step selects nodes in document order, but the steps after it run once for each of them. Where a
selected node stands above another, both runs reach into the subtree of the lower one. So results
may repeat and come out of order, and this is the only way in which they do: the results of a path
are distinct and in document order exactly when no two such runs cross.
-/

set_option autoImplicit false

open MarkupTree.Path

namespace MarkupTree

namespace Node

/-- Document order: addresses are compared from the root, and a node comes before all below it. -/
def Precedes (n m : Node) : Prop := n.address < m.address

/-- The way from the root to `m` goes through `n`. -/
def Above (n m : Node) : Prop := n.address <+: m.address ∧ n.address ≠ m.address

/-- `n` comes before `m` without standing above it. -/
def Apart (n m : Node) : Prop := n.Precedes m ∧ ¬ n.address <+: m.address

theorem precedes_irrefl (n : Node) : ¬ n.Precedes n := List.lt_irrefl n.address

theorem Precedes.asymm {n m : Node} (h : n.Precedes m) : ¬ m.Precedes n := List.lt_asymm h

theorem lt_append_cons (a : List Nat) (i : Nat) (b : List Nat) : a < a ++ i :: b := by
  have h : a ++ [] < a ++ i :: b := List.append_left_lt (List.nil_lt_cons i b)
  rwa [List.append_nil] at h

theorem append_lt_append {a b : List Nat} (h : a < b) (hab : ¬ a <+: b) (u v : List Nat) :
    a ++ u < b ++ v := by
  induction a generalizing b with
  | nil => exact absurd List.nil_prefix hab
  | cons i a ih =>
    cases b with
    | nil => exact absurd h (List.not_lt_nil _)
    | cons j b =>
      rw [List.cons_append, List.cons_append, List.cons_lt_cons_iff]
      rcases List.cons_lt_cons_iff.mp h with hij | ⟨rfl, hlt⟩
      · exact .inl hij
      · refine .inr ⟨rfl, ih hlt fun hp => hab ?_⟩
        exact List.cons_prefix_cons.mpr ⟨rfl, hp⟩

theorem Above.precedes {n m : Node} (h : n.Above m) : n.Precedes m := by
  obtain ⟨⟨rest, hrest⟩, hne⟩ := h
  unfold Precedes
  rw [← hrest]
  cases rest with
  | nil => exact absurd (by simpa using hrest) hne
  | cons i rest => exact lt_append_cons _ _ _

theorem Apart.precedes {n m x y : Node} (h : n.Apart m) (hx : x ∈ n.subtree) (hy : y ∈ m.subtree) :
    x.Precedes y := by
  obtain ⟨u, hu⟩ := address_prefix_of_mem_subtree hx
  obtain ⟨v, hv⟩ := address_prefix_of_mem_subtree hy
  unfold Precedes
  rw [← hu, ← hv]
  exact append_lt_append h.1 h.2 u v

theorem siblings_apart (address : List Nat) (outer : Scope) (index : Nat) (fs : List Fragment) :
    (siblings address outer index fs).Pairwise Apart := by
  induction fs generalizing index with
  | nil => exact .nil
  | cons f rest ih =>
    refine List.pairwise_cons.mpr ⟨?_, ih _⟩
    intro n hn
    obtain ⟨i, g, _, rfl⟩ := mem_siblings_iff.mp hn
    constructor
    · exact List.append_left_lt (List.cons_lt_cons_iff.mpr (.inl (by omega)))
    · intro hp
      have := (List.prefix_append_right_inj address).mp hp
      simp at this
      omega

theorem children_apart (n : Node) : n.children.Pairwise Apart := siblings_apart _ _ _ _

theorem flatMap_subtree_precedes {nodes : List Node} (h : nodes.Pairwise Apart)
    (hsub : ∀ n ∈ nodes, n.subtree.Pairwise Precedes) :
    (nodes.flatMap subtree).Pairwise Precedes :=
  List.pairwise_flatMap.mpr ⟨hsub, h.imp fun hap x hx y hy => hap.precedes (x := x) (y := y) hx hy⟩

theorem subtree_precedes (n : Node) : n.subtree.Pairwise Precedes := by
  induction n using upward with
  | h n ih =>
    rw [subtree_eq_cons_flatMap]
    refine List.pairwise_cons.mpr ⟨?_, flatMap_subtree_precedes n.children_apart ih⟩
    intro m hm
    obtain ⟨c, hc, hm⟩ := List.mem_flatMap.mp hm
    obtain ⟨i, f, _, rfl⟩ := mem_children_iff.mp hc
    obtain ⟨rest, hrest⟩ := address_prefix_of_mem_subtree hm
    unfold Precedes
    rw [← hrest, List.append_assoc]
    exact lt_append_cons _ _ _

theorem Precedes.above_or_apart {n m : Node} (h : n.Precedes m) : n.Above m ∨ n.Apart m := by
  by_cases hp : n.address <+: m.address
  · refine .inl ⟨hp, ?_⟩
    intro heq
    unfold Precedes at h
    exact List.lt_irrefl _ (heq ▸ h)
  · exact .inr ⟨h, hp⟩

end Node

open Node

namespace Walk

variable (declared : List Declaration)

/-- Two runs of the later steps cross: a step selects a node and another one above it, and a result
reached from the upper node does not come before one reached from the lower. -/
inductive Tangled : List Step → List Node → Prop
  | crossing {s : Step} {rest : List Step} {nodes picked : List Node} {upper lower : Node}
      {fromUpper fromLower : List Match} {x y : Match}
      (selects : selected declared s nodes = .ok picked)
      (hupper : upper ∈ picked) (hlower : lower ∈ picked) (above : upper.Above lower)
      (walkUpper : walk declared rest upper.children = .ok fromUpper)
      (walkLower : walk declared rest lower.children = .ok fromLower)
      (hx : x ∈ fromUpper) (hy : y ∈ fromLower) (late : ¬ x.origin.Precedes y.origin) :
      Tangled (s :: rest) nodes
  | later {s : Step} {rest : List Step} {nodes picked : List Node} {n : Node}
      (selects : selected declared s nodes = .ok picked) (hn : n ∈ picked)
      (tangled : Tangled rest n.children) : Tangled (s :: rest) nodes

/-- Every step but the last selects children, or at most one node. -/
def Flat : List Step → Prop
  | [] => True
  | s :: rest => (rest = [] ∨ s.descendant = false ∨ s.position?.isSome) ∧ Flat rest

variable {declared}

theorem candidates_precedes (descendant : Bool) {nodes : List Node} (h : nodes.Pairwise Apart) :
    (candidates descendant nodes).Pairwise Precedes := by
  cases descendant with
  | false => exact h.imp And.left
  | true => exact flatMap_subtree_precedes h fun n _ => n.subtree_precedes

theorem selected_precedes {s : Step} {nodes picked : List Node} (h : nodes.Pairwise Apart)
    (hs : selected declared s nodes = .ok picked) : picked.Pairwise Precedes :=
  (candidates_precedes s.descendant h).sublist (selected_sublist declared hs)

theorem not_tangled_singleton (s : Step) (nodes : List Node) : ¬ Tangled declared [s] nodes := by
  intro h
  cases h with
  | crossing _ _ _ _ walkUpper _ hx => cases walkUpper; cases hx
  | later _ _ tangled => cases tangled

/-- The results of runs that start at nodes in document order are in document order if and only if
every run is and no two runs cross. -/
theorem pairwise_flatMap_iff {picked : List Node} (hpicked : picked.Pairwise Precedes)
    {reach : Node → List Node} (hreach : ∀ n ∈ picked, ∀ x ∈ reach n, x ∈ n.subtree) :
    (picked.flatMap reach).Pairwise Precedes ↔
      (∀ n ∈ picked, (reach n).Pairwise Precedes) ∧
        ∀ n ∈ picked, ∀ m ∈ picked, n.Above m → ∀ x ∈ reach n, ∀ y ∈ reach m, x.Precedes y := by
  rw [List.pairwise_flatMap]
  apply and_congr_right
  intro _
  constructor
  · intro h n hn m hm habove
    -- `n` stands before `m` in the list, since it precedes `m`.
    have hall := List.Pairwise.forall_of_forall_of_flip
      (R := fun n m => n.Precedes m → ∀ x ∈ reach n, ∀ y ∈ reach m, x.Precedes y)
      (fun n _ hnn => absurd hnn n.precedes_irrefl)
      (h.imp (by intro n m hxy _; exact hxy))
      (hpicked.imp fun hnm hmn => absurd hmn hnm.asymm)
    exact hall hn hm habove.precedes
  · intro h
    apply hpicked.imp_of_mem
    intro n m hn hm hnm x hx y hy
    rcases hnm.above_or_apart with habove | hapart
    · exact h n hn m hm habove x hx y hy
    · exact hapart.precedes (hreach n hn x hx) (hreach m hm y hy)

theorem walk_origin_mem_subtree {steps : List Step} {n : Node} {found : List Match} {x : Match}
    (h : walk declared steps n.children = .ok found) (hx : x ∈ found) : x.origin ∈ n.subtree := by
  obtain ⟨c, hc, hxc⟩ := exists_subtree_of_mem_walk h hx
  exact mem_subtree_trans (mem_subtree_of_mem_children hc) hxc

theorem walk_precedes_iff {steps : List Step} {nodes : List Node} (hnodes : nodes.Pairwise Apart)
    {found : List Match} (h : walk declared steps nodes = .ok found) :
    (found.map Match.origin).Pairwise Precedes ↔ ¬ Tangled declared steps nodes := by
  -- Below every selected node the candidates are apart again, which carries the induction.
  induction steps generalizing nodes found with
  | nil =>
    cases h
    exact ⟨fun _ ht => (nomatch ht), fun _ => .nil⟩
  | cons s rest ih =>
    rw [walk_cons] at h
    obtain ⟨picked, hpicked, h⟩ := bind_eq_ok_iff.mp h
    have hprec := selected_precedes hnodes hpicked
    cases rest with
    | nil =>
      cases h
      exact ⟨fun _ => not_tangled_singleton s nodes,
        fun _ => hprec.sublist (filterMap_yields_origin s.reads picked)⟩
    | cons r rest =>
      obtain ⟨hall, rfl⟩ := collect_eq_ok h
      rw [List.map_flatMap, pairwise_flatMap_iff hprec]
      · constructor
        · rintro ⟨hruns, hcross⟩ htangled
          cases htangled with
          | crossing selects hu hl above walkUpper walkLower hx hy late =>
            cases selects.symm.trans hpicked
            refine late (hcross _ hu _ hl above _ ?_ _ ?_)
            · exact List.mem_map_of_mem (by rw [walkUpper]; exact hx)
            · exact List.mem_map_of_mem (by rw [walkLower]; exact hy)
          | later selects hn tangled =>
            cases selects.symm.trans hpicked
            exact (ih (children_apart _) (hall _ hn)).mp (hruns _ hn) tangled
        · intro hnot
          constructor
          · intro n hn
            apply (ih n.children_apart (hall n hn)).mpr
            intro ht
            exact hnot (.later hpicked hn ht)
          · intro n hn m hm habove _ hxn _ hym
            obtain ⟨x, hx, rfl⟩ := List.mem_map.mp hxn
            obtain ⟨y, hy, rfl⟩ := List.mem_map.mp hym
            by_contra late
            exact hnot (.crossing hpicked hn hm habove (hall n hn) (hall m hm) hx hy late)
      · intro n hn _ hxn
        obtain ⟨x, hx, rfl⟩ := List.mem_map.mp hxn
        exact walk_origin_mem_subtree (hall n hn) hx

theorem not_above_of_flat {s : Step} (hs : s.descendant = false ∨ s.position?.isSome)
    {nodes picked : List Node} (hnodes : nodes.Pairwise Apart)
    (h : selected declared s nodes = .ok picked) {n m : Node} (hn : n ∈ picked) (hm : m ∈ picked) :
    ¬ n.Above m := by
  intro habove
  rcases hs with hs | hs
  · have hsub := selected_sublist declared h
    rw [hs] at hsub
    have hall := List.Pairwise.forall_of_forall_of_flip
      (R := fun n m : Node => ¬ n.Above m)
      (fun n _ hnn => hnn.2 rfl)
      ((hnodes.sublist hsub).imp fun hap hab => hap.2 hab.1)
      ((hnodes.sublist hsub).imp fun hap hab => hap.1.asymm hab.precedes)
    exact hall hn hm habove
  · obtain ⟨kept, _, h⟩ := bind_eq_ok_iff.mp h
    cases h
    have hone := pick_length_le_one hs kept
    match hp : pick s.position? kept with
    | [] => rw [hp] at hn; cases hn
    | [k] =>
      rw [hp, List.mem_singleton] at hn hm
      exact habove.2 (by rw [hn, hm])
    | _ :: _ :: _ => rw [hp] at hone; simp at hone

theorem not_tangled_of_flat {steps : List Step} (hflat : Flat steps) {nodes : List Node}
    (hnodes : nodes.Pairwise Apart) : ¬ Tangled declared steps nodes := by
  intro h
  induction h with
  | @crossing s rest _ _ _ _ _ _ _ _ selects hu hl above walkUpper _ hx =>
    rcases hflat.1 with rfl | hs
    · cases walkUpper
      cases hx
    · exact not_above_of_flat hs hnodes selects hu hl above
  | later _ _ _ ih => exact ih hflat.2 (children_apart _)

end Walk

/-- The nodes of a tree in document order. -/
def Tree.nodes (t : Tree) : List Node :=
  match t.root with
  | none => []
  | some root => (Node.ofRoot root).subtree

theorem Tree.nodes_precedes (t : Tree) : t.nodes.Pairwise Precedes := by
  obtain ⟨root⟩ := t
  cases root with
  | none => exact .nil
  | some root => exact subtree_precedes _

/-- The nodes are distinct and come in the document order of the tree. -/
structure InDocumentOrder (t : Tree) (nodes : List Node) : Prop where
  distinct : nodes.Nodup
  ordered : nodes.Sublist t.nodes

theorem inDocumentOrder_iff {t : Tree} {nodes : List Node} (hmem : ∀ n ∈ nodes, n ∈ t.nodes) :
    InDocumentOrder t nodes ↔ nodes.Pairwise Precedes := by
  constructor
  · intro h
    exact t.nodes_precedes.sublist h.ordered
  · intro h
    have : Std.Antisymm Precedes := ⟨fun _ _ hab hba => absurd hba hab.asymm⟩
    have hnodup : nodes.Nodup := by
      apply h.imp
      rintro n _ hnm rfl
      exact n.precedes_irrefl hnm
    exact ⟨hnodup, List.sublist_of_subperm_of_pairwise (List.subperm_of_subset hnodup hmem) h
      t.nodes_precedes⟩

namespace Path.Compiled

/-- The runs of a path on a tree cross somewhere. -/
def Tangled (p : Compiled) (t : Tree) (declared : List Declaration) : Prop :=
  ∃ root ∈ t.root, ∃ steps ∈ p.steps,
    Walk.Tangled declared steps (Walk.start steps (Node.ofRoot root))

/-- No step of the path but the last reaches deeper than the children, unless it has a position. -/
def Flat (p : Compiled) : Prop := ∀ steps ∈ p.steps, Walk.Flat steps

end Path.Compiled

theorem Walk.start_apart (steps : List Step) (n : Node) : (start steps n).Pairwise Apart := by
  unfold start
  split
  · exact List.pairwise_singleton _ _
  · exact children_apart n

theorem Path.Compiled.found_precedes_iff {p : Path.Compiled} {t : Tree}
    {declared : List Declaration} {found : List Match} (h : p.found t declared = .ok found) :
    (∀ m ∈ found, m.origin ∈ t.nodes) ∧
      ((found.map Match.origin).Pairwise Precedes ↔ ¬ p.Tangled t declared) := by
  obtain ⟨source, steps⟩ := p
  obtain ⟨root⟩ := t
  cases root with
  | none =>
    cases h
    exact ⟨nofun, ⟨fun _ ⟨_, hroot, _⟩ => (nomatch hroot), fun _ => .nil⟩⟩
  | some root =>
    cases steps with
    | none =>
      cases h
      refine ⟨fun m hm => ?_, ⟨fun _ ⟨_, _, _, hsteps, _⟩ => (nomatch hsteps), fun _ => ?_⟩⟩
      · rw [List.mem_singleton.mp hm]
        exact mem_subtree_self _
      · exact List.pairwise_singleton _ _
    | some steps =>
      refine ⟨fun m hm => Walk.mem_subtree_of_mem_walkFrom h hm, ?_⟩
      rw [Walk.walk_precedes_iff (Walk.start_apart _ _) h]
      refine not_congr ⟨fun ht => ⟨root, rfl, steps, rfl, ht⟩, ?_⟩
      rintro ⟨_, ⟨⟩, _, ⟨⟩, ht⟩
      exact ht

theorem Path.Compiled.not_tangled {p : Path.Compiled} (hp : p.Flat) (t : Tree)
    (declared : List Declaration) : ¬ p.Tangled t declared := by
  rintro ⟨root, -, steps, hsteps, h⟩
  exact Walk.not_tangled_of_flat (hp steps hsteps) (Walk.start_apart steps _) h

/-- The nodes behind the results of a path are distinct and in document order exactly if no two of
its runs cross. A path in which only the last step searches everything below keeps that promise on
every tree. -/
theorem evaluate_inDocumentOrder_iff (p : Path.Compiled) (t : Tree) (declared : List Declaration)
    {results : List Result} (h : p.evaluate t declared = .ok results) :
    ∃ found, p.found t declared = .ok found ∧ results = found.map (p.present t) ∧
      (InDocumentOrder t (found.map Match.origin) ↔ ¬ p.Tangled t declared) ∧
      (p.Flat → InDocumentOrder t (found.map Match.origin)) := by
  rw [Path.Compiled.evaluate_eq] at h
  cases hf : p.found t declared with
  | error e => rw [hf] at h; cases h
  | ok found =>
    rw [hf] at h
    cases h
    obtain ⟨hmem, hprec⟩ := Path.Compiled.found_precedes_iff hf
    have horder : InDocumentOrder t (found.map Match.origin) ↔ ¬ p.Tangled t declared := by
      refine (inDocumentOrder_iff ?_).trans hprec
      intro n hn
      obtain ⟨m, hm, rfl⟩ := List.mem_map.mp hn
      exact hmem m hm
    refine ⟨found, rfl, rfl, horder, ?_⟩
    intro hflat
    exact horder.mpr (Path.Compiled.not_tangled hflat t declared)

/-- `//a[1]//b/@id` where an `a` stands in an `a`: the position leaves one of them. -/
theorem evaluate_inDocumentOrder_iff_positioned :
    let b (id : String) := Fragment.element "b" (Dictionary.ofList [("id", id)]) []
    let a (fs : List Fragment) := Fragment.element "a" Dictionary.empty fs
    let t := Tree.ofRoot (a [a [a [b "1"], b "2"]])
    let p : Path.Compiled := ⟨"//a[1]//b/@id",
      some [⟨true, .name "a", none, [.position 1]⟩, ⟨true, .name "b", some "id", []⟩]⟩
    p.evaluate t [] = .ok [.text "1", .text "2"] ∧
      ∃ found, p.found t [] = .ok found ∧ InDocumentOrder t (found.map Match.origin) := by
  intro b a t p
  have h : p.evaluate t [] = .ok [.text "1", .text "2"] := rfl
  have hflat : p.Flat := by simp [Path.Compiled.Flat, p, Walk.Flat, Step.position?,
    Predicate.position?]
  obtain ⟨found, hfound, -, -, hordered⟩ := evaluate_inDocumentOrder_iff p t [] h
  exact ⟨h, found, hfound, hordered hflat⟩

/-- Without the position both `a` are searched, and what stands in the inner one is found twice, the
second time after what follows it. -/
theorem results_repeat_out_of_order :
    let b (id : String) := Fragment.element "b" (Dictionary.ofList [("id", id)]) []
    let a (fs : List Fragment) := Fragment.element "a" Dictionary.empty fs
    let t := Tree.ofRoot (a [a [a [b "1"], b "2"]])
    ∃ p found, Path.compile "//a//b/@id" = .ok p ∧
      p.evaluate t [] = .ok [.text "1", .text "2", .text "1"] ∧ p.found t [] = .ok found ∧
      ¬ InDocumentOrder t (found.map Match.origin) := by
  intro b a t
  have h : ((Path.compile "//a//b/@id").toOption.bind fun p =>
      (p.evaluate t []).toOption.bind fun results => (p.found t []).toOption.map fun found =>
        (results, decide (found.map Match.origin).Nodup)) =
      some ([.text "1", .text "2", .text "1"], false) := by decide +kernel
  obtain ⟨p, hp, h⟩ := Option.bind_eq_some_iff.mp h
  obtain ⟨results, hresults, h⟩ := Option.bind_eq_some_iff.mp h
  obtain ⟨found, hfound, h⟩ := Option.map_eq_some_iff.mp h
  rw [Prod.mk.injEq] at h
  obtain ⟨rfl, hnodup⟩ := h
  exact ⟨p, found, toOption_eq_some_iff.mp hp, toOption_eq_some_iff.mp hresults,
    toOption_eq_some_iff.mp hfound, fun hordered => of_decide_eq_false hnodup hordered.distinct⟩

end MarkupTree

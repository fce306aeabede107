import MarkupTree.Proofs.Path.Juncture
import MarkupTree.Proofs.Path.Printing
import MarkupTree.Proofs.Path.Rows
import MarkupTree.Proofs.Query.DocumentOrder
import MarkupTree.Proofs.Query.Filtering

/-!
# Descendants are the children of every element

A step behind a double slash looks at everything below its context at once. What it selects there
are the nodes that the step behind a single slash selects from their parents: on every element that
is a tree of its own and declares what is in scope, the step selects those of its children that the
descendant step selects in the whole tree.
-/

set_option autoImplicit false

open MarkupTree.Path

namespace MarkupTree

namespace Path

namespace Surface

theorem ofPath?_doubled {cs : List Char} {seg : Segment} {segs : List Segment}
    (h : ofPath? cs = some (seg :: segs)) (hd : seg.isDescendant = false) :
    ofPath? ('/' :: cs) = some (seg.doubled :: segs) := by
  obtain ⟨-, ws, rfl, hall⟩ := ofPath?_eq_some_iff.mp h
  obtain ⟨w, ws, hw, hws, rfl⟩ := List.forall₂_cons_left_iff.mp hall
  have hall' : List.Forall₂ Segment.From (seg.doubled :: segs) (('/' :: w) :: ws) :=
    .cons (hw.doubled hd) hws
  have hread := ofPath?_flatten hall' (List.cons_ne_nil _ _)
  rwa [List.flatten_cons, List.cons_append, ← List.flatten_cons] at hread

end Surface

theorem compile_doubled {s : String} {c : Compiled} {step : Step} {rest : List Step}
    (hc : compile ("/" ++ s) = .ok c) (hsteps : c.steps = some (step :: rest))
    (htest : step.test ≠ .context) (hchild : step.descendant = false) :
    compile ("//" ++ s) = .ok ⟨"//" ++ s, some (step.descend :: rest)⟩ := by
  have hne : "/" ++ s ≠ "" := by simp
  have hne' : "//" ++ s ≠ "" := by simp
  obtain ⟨found, hparse, rfl⟩ := (compile_eq_ok hne).mp hc
  obtain rfl : found = step :: rest := Option.some.inj hsteps
  obtain ⟨segs, hread, hfold, -⟩ := parse_eq_ok.mp hparse
  obtain ⟨seg, segs, rfl⟩ := List.exists_cons_of_ne_nil (Surface.ofPath?_eq_some.mp hread).1
  have hdescend : Surface.steps none true (seg :: segs) = .ok (step.descend :: rest) := by
    apply Surface.steps_descend hfold
    rintro _ ⟨⟩
    exact htest
  cases hd : seg.isDescendant with
  | true =>
    -- The step would be a descendant step already.
    rw [← Surface.steps_doubled, Surface.Segment.doubled_of_isDescendant hd, hfold] at hdescend
    have hsame : step = step.descend := (List.cons.inj (Except.ok.inj hdescend)).1
    rw [Step.descend_eq_self.mp hsame.symm] at hchild
    cases hchild
  | false =>
    rw [String.toList_append] at hread
    have hread' : Surface.ofPath? ("//" ++ s).toList = some (seg.doubled :: segs) := by
      rw [String.toList_append]
      exact Surface.ofPath?_doubled hread hd
    rw [← Surface.steps_doubled] at hdescend
    exact (compile_eq_ok hne').mpr
      ⟨_, parse_eq_ok.mpr ⟨_, hread', hdescend, List.cons_ne_nil _ _⟩, rfl⟩

theorem test_ne_context_of_compile {path : String} {c : Compiled} {steps : List Step}
    (hc : compile path = .ok c) (hsteps : c.steps = some steps) {s : Step} (hs : s ∈ steps)
    (hreads : s.reads = none) : s.test ≠ .context := by
  by_cases hne : path = ""
  · subst hne
    cases hc
    cases hsteps
  · obtain ⟨found, hparse, rfl⟩ := (compile_eq_ok hne).mp hc
    cases hsteps
    obtain ⟨segs, hread, hfold, -⟩ := parse_eq_ok.mp hparse
    have hwritten := (steps_written (Surface.ofPath?_legible hread) (by rintro _ ⟨⟩) hfold).1 s hs
    rcases hwritten.2 with ⟨hlegible, -⟩ | ⟨key, rfl⟩
    · exact hlegible.ne_context
    · cases hreads

end Path

variable {declared : List Declaration}

/-- A path that looks below its context finds on an element as a tree what it finds from the children
of the element, at addresses in that tree. -/
theorem walk_children_eq_found {c : Path.Compiled} {steps : List Step} {n : Node}
    (hc : c.steps = some steps) (hbelow : Walk.startsAtContext steps = false) (hn : n.Standing)
    (hf : n.fragment.isElement = true) :
    Walk.walk declared steps n.children =
      (c.found n.asTree declared).map (List.map (Match.under n.address)) := by
  cases hfragment : n.fragment with
  | text content =>
    rw [hfragment] at hf
    cases hf
  | element name attributes children =>
    simp only [Path.Compiled.found, Node.asTree, Tree.ofRoot, hc, hfragment, Walk.walkFrom,
      Walk.start, hbelow, Bool.false_eq_true, if_false]
    exact Node.walk_children_of_takenOut hn hfragment steps

/-- The node is a child of the element, and the path selects it on the element as a tree. -/
def Path.Compiled.SelectsChild (c : Path.Compiled) (declared : List Declaration)
    (parent n : Node) : Prop :=
  n ∈ parent.children ∧ ∃ found, c.found parent.asTree declared = .ok found ∧
    ∃ x, .node x ∈ found ∧ x.under parent.address = n

theorem isElement_of_mem_children {n parent : Node} (h : n ∈ parent.children) :
    parent.fragment.isElement = true := by
  obtain ⟨i, f, hf, -⟩ := Node.mem_children_iff.mp h
  cases hfragment : parent.fragment with
  | text =>
    rw [hfragment] at hf
    cases hf
  | element => rfl

section Step

variable {c : Path.Compiled} {step : Step} (hc : c.steps = some [step])
variable (htest : step.test ≠ .context) (hreads : step.reads = none)
variable (hposition : step.position? = none)
include hreads hposition

theorem evaluate_descend {p : Path.Compiled} (hp : p.steps = some [step.descend]) {root : Fragment}
    {results : List Result} (h : p.evaluate ⟨some root⟩ declared = .ok results) :
    ∃ (answer : Node → Bool) (nodes : List Node),
      (∀ parent ∈ (Node.ofRoot root).subtree, ∀ n ∈ parent.children,
        Walk.admits declared step n = .ok (answer n)) ∧
      InDocumentOrder ⟨some root⟩ nodes ∧
      results = nodes.map (fun n => Result.ofMatch (.node n)) ∧
      ∀ n, n ∈ nodes ↔
        ∃ parent ∈ (Node.ofRoot root).subtree, n ∈ parent.children ∧ answer n = true := by
  have hbelow : Walk.startsAtContext [step.descend] = false := by
    simp [Walk.startsAtContext, Step.descend]
  simp only [Path.Compiled.evaluate, hp, Walk.walkFrom, Walk.start, hbelow, Bool.false_eq_true,
    if_false, Walk.walk_last_nodes (show step.descend.reads = none from hreads)] at h
  obtain ⟨_, hfound, h⟩ := bind_eq_ok_iff.mp h
  obtain ⟨nodes, hnodes, rfl⟩ := map_eq_ok_iff.mp hfound
  cases h
  obtain ⟨answer, hanswer, hkept⟩ :=
    (Walk.selected_eq_ok_iff (show step.descend.position? = none from hposition)).mp hnodes
  have hmem : ∀ n, n ∈ nodes ↔
      ∃ parent ∈ (Node.ofRoot root).subtree, n ∈ parent.children ∧ answer n = true := by
    intro n
    rw [hkept, List.mem_filter]
    change n ∈ (Node.ofRoot root).children.flatMap Node.subtree ∧ _ ↔ _
    rw [Node.mem_flatMap_subtree_children_iff]
    simp only [← and_assoc, exists_and_right]
  refine ⟨answer, nodes, ?_, ?_, List.map_map, hmem⟩
  · intro parent hparent n hn
    exact hanswer n (Node.mem_flatMap_subtree_children_iff.mpr ⟨parent, hparent, hn⟩)
  · apply (inDocumentOrder_iff _).mpr
    · exact Walk.selected_precedes (Node.children_apart _) hnodes
    · intro n hn
      obtain ⟨parent, hparent, hn, -⟩ := (hmem n).mp hn
      exact Node.mem_subtree_trans hparent (Node.mem_subtree_of_mem_children hn)

include hc htest

theorem found_asTree_of_admits {parent : Node} {answer : Node → Bool}
    (hchild : step.descendant = false) (hparent : parent.Standing)
    (hf : parent.fragment.isElement = true)
    (hanswer : ∀ n ∈ parent.children, Walk.admits declared step n = .ok (answer n)) :
    ∃ found, c.found parent.asTree declared = .ok found ∧
      found.map (Match.under parent.address) = (parent.children.filter answer).map .node := by
  have hbelow : Walk.startsAtContext [step] = false := by
    simp [Walk.startsAtContext, htest]
  have hselected : Walk.selected declared step parent.children =
      .ok (parent.children.filter answer) := by
    apply (Walk.selected_eq_ok_iff hposition).mpr
    rw [hchild]
    exact ⟨answer, hanswer, rfl⟩
  have hwalk : Walk.walk declared [step] parent.children = _ :=
    walk_children_eq_found hc hbelow hparent hf
  rw [Walk.walk_last_nodes hreads, hselected] at hwalk
  exact map_eq_ok_iff.mp hwalk.symm

theorem selectsChild_iff {parent n : Node} {answer : Node → Bool}
    (hchild : step.descendant = false) (hparent : parent.Standing)
    (hanswer : ∀ n ∈ parent.children, Walk.admits declared step n = .ok (answer n)) :
    c.SelectsChild declared parent n ↔ n ∈ parent.children ∧ answer n = true := by
  apply and_congr_right
  intro hn
  obtain ⟨found, hfound, hunder⟩ := found_asTree_of_admits hc htest hreads hposition hchild hparent
    (isElement_of_mem_children hn) hanswer
  have hmem : (∃ x, .node x ∈ found ∧ x.under parent.address = n) ↔
      .node n ∈ found.map (Match.under parent.address) := by
    rw [List.mem_map]
    constructor
    · rintro ⟨x, hx, rfl⟩
      exact ⟨_, hx, rfl⟩
    · rintro ⟨x | ⟨x, value⟩, hx, hxn⟩
      · cases hxn
        exact ⟨x, hx, rfl⟩
      · cases hxn
  rw [hunder, List.mem_map_of_injective (fun _ _ h => Match.node.inj h), List.mem_filter] at hmem
  constructor
  · rintro ⟨_, hfound', hx⟩
    cases hfound.symm.trans hfound'
    exact (hmem.mp hx).2
  · intro h
    exact ⟨found, hfound, hmem.mpr ⟨hn, h⟩⟩

end Step

/-- A child step that reads no attribute and has no position, and the same step behind a double slash.
Where the latter succeeds on a tree, the former succeeds on every element of the tree, taken out as a
tree of its own. The results of the latter, each once and in document order, are the nodes below the
root that the former selects on their parent. -/
theorem evaluate_descendants {s : String} {c : Path.Compiled} {step : Step}
    (hc : Path.compile ("/" ++ s) = .ok c) (hstep : c.steps = some [step])
    (hchild : step.descendant = false) (hreads : step.reads = none)
    (hposition : step.position? = none) :
    ∃ p, Path.compile ("//" ++ s) = .ok p ∧
      ∀ (t : Tree) (declared : List Declaration) (results : List Result),
        p.evaluate t declared = .ok results →
        (∀ n ∈ t.nodes, n.fragment.isElement = true →
          ∃ found, c.evaluate n.asTree declared = .ok found) ∧
        ∃ nodes, InDocumentOrder t nodes ∧
          results = nodes.map (fun n => Result.ofMatch (.node n)) ∧
          ∀ n, n ∈ nodes ↔ ∃ parent ∈ t.nodes, c.SelectsChild declared parent n := by
  have htest := Path.test_ne_context_of_compile hc hstep (List.mem_singleton_self step) hreads
  refine ⟨_, Path.compile_doubled hc hstep htest hchild, ?_⟩
  intro t declared results h
  obtain ⟨root⟩ := t
  cases root with
  | none =>
    cases h
    refine ⟨nofun, [], ⟨.nil, .slnil⟩, rfl, ?_⟩
    simp [Tree.nodes]
  | some root =>
    -- The descendant step has asked every node below the root, so every child step has its answers.
    obtain ⟨answer, nodes, hanswer, horder, hresults, hmem⟩ :=
      evaluate_descend hreads hposition rfl h
    refine ⟨?_, nodes, horder, hresults, ?_⟩
    · intro n hn helement
      obtain ⟨found, hfound, -⟩ := found_asTree_of_admits hstep htest hreads hposition hchild
        (Node.standing_of_mem_subtree_ofRoot hn) helement (hanswer n hn)
      rw [Path.Compiled.evaluate_eq, hfound]
      exact ⟨_, rfl⟩
    · intro n
      rw [hmem]
      apply exists_congr
      intro parent
      apply and_congr_right
      intro hparent
      exact (selectsChild_iff hstep htest hreads hposition hchild
        (Node.standing_of_mem_subtree_ofRoot hparent) (hanswer parent hparent)).symm

/-- `n:a[@k]` on nested elements that bind its prefix and its namespace anew. Three elements are
selected: one right below the root, one under another prefix, and one below an element that is not
selected itself. -/
theorem evaluate_descendants_redeclared :
    let a (name : String) (entries : List (String × String)) :=
      Fragment.element name (Dictionary.ofList entries)
    let t := Tree.ofRoot (a "r" [("xmlns:p", "urn:p")]
      [a "p:a" [("k", "")] [a "p:a" [("xmlns:p", "urn:q"), ("k", "")] [a "p:a" [("k", "")] []],
          a "x:a" [("xmlns:x", "urn:p"), ("k", "")] []],
        a "p:a" [] [.text "x", a "p:a" [("k", "")] []]])
    let declared : List Declaration := [⟨some "n", "urn:p"⟩]
    ∃ c step p, Path.compile "/n:a[@k]" = .ok c ∧ c.steps = some [step] ∧
      step.descendant = false ∧ step.reads = none ∧ step.position? = none ∧
      Path.compile "//n:a[@k]" = .ok p ∧
      (∀ n ∈ t.nodes, n.fragment.isElement = true →
        ∃ found, c.evaluate n.asTree declared = .ok found) ∧
      ∃ nodes, InDocumentOrder t nodes ∧
        p.evaluate t declared = .ok (nodes.map fun n => Result.ofMatch (.node n)) ∧
        nodes.length = 3 ∧
        ∀ n, n ∈ nodes ↔ ∃ parent ∈ t.nodes, c.SelectsChild declared parent n := by
  intro a t declared
  have hparts : (Path.compile ("/" ++ "n:a[@k]")).toOption.map (fun c => c.steps.map fun steps =>
      steps.map fun s => (s.descendant, s.reads, s.position?)) = some (some [(false, none, none)]) := by
    decide +kernel
  obtain ⟨c, hc, hparts⟩ := Option.map_eq_some_iff.mp hparts
  obtain ⟨steps, hsteps, hparts⟩ := Option.map_eq_some_iff.mp hparts
  obtain ⟨step, rfl, hstep⟩ := List.map_eq_singleton_iff.mp hparts
  rw [Prod.mk.injEq, Prod.mk.injEq] at hstep
  obtain ⟨hchild, hreads, hposition⟩ := hstep
  rw [toOption_eq_some_iff] at hc
  have hthree : ((Path.compile "//n:a[@k]").toOption.bind fun p =>
      (p.evaluate t declared).toOption.map List.length) = some 3 := by
    decide +kernel
  obtain ⟨p, hp, hall⟩ := evaluate_descendants hc hsteps hchild hreads hposition
  have hp : Path.compile "//n:a[@k]" = .ok p := hp
  rw [hp, toOption_ok, Option.bind_some] at hthree
  obtain ⟨results, hresults, hlength⟩ := Option.map_eq_some_iff.mp hthree
  rw [toOption_eq_some_iff] at hresults
  obtain ⟨helements, nodes, horder, rfl, hmem⟩ := hall t declared results hresults
  rw [List.length_map] at hlength
  exact ⟨c, step, p, hc, hsteps, hchild, hreads, hposition, hp, helements, nodes, horder, hresults,
    hlength, hmem⟩

end MarkupTree

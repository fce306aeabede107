import MarkupTree.Proofs.Path.Rows
import MarkupTree.Proofs.Query.Requery

/-!
# Positions part what a step selects

A position is not asked when a node is tested. It picks one of the nodes that are left after all
tests and conditions of its step, wherever it stands among them, and the rest of the path starts
from that node alone. So the positions of a first step, from one to the number of nodes that the
step selects, part the results of the path without a position into runs.
-/

set_option autoImplicit false

open MarkupTree.Path

namespace MarkupTree

namespace Walk

theorem flatMap_pick {α : Type} (items : List α) :
    (List.range items.length).flatMap (fun i => pick (some (i + 1)) items) = items := by
  induction items with
  | nil => rfl
  | cons x items ih =>
    rw [List.length_cons, List.range_succ_eq_map, List.flatMap_cons, List.flatMap_map]
    exact congrArg (x :: ·) ih

theorem pick_of_length_lt {α : Type} {items : List α} {n : Nat} (h : items.length < n) :
    pick (some n) items = [] := by
  cases n with
  | zero => rfl
  | succ n => simp [pick, List.getElem?_eq_none (Nat.le_of_lt_succ h)]

variable {declared : List Declaration}

theorem holdAll_insert_position (front rest : List Predicate) (number : Nat) (n : Node) :
    holdAll declared (front ++ .position number :: rest) n = holdAll declared (front ++ rest) n := by
  induction front with
  | nil => rw [List.nil_append, List.nil_append, holdAll]
  | cons p front ih =>
    cases p with
    | position => rw [List.cons_append, List.cons_append, holdAll, holdAll, ih]
    | condition => rw [List.cons_append, List.cons_append, holdAll, holdAll, ih]

theorem findSome?_insert_position {front rest : List Predicate}
    (h : (front ++ rest).findSome? Predicate.position? = none) (number : Nat) :
    (front ++ .position number :: rest).findSome? Predicate.position? = some number := by
  rw [List.findSome?_append, Option.or_eq_none_iff] at h
  rw [List.findSome?_append, h.1]
  rfl

theorem selected_insert_position {s : Step} {front rest : List Predicate}
    (hps : s.predicates = front ++ rest) (hnone : s.position? = none) (number : Nat)
    (nodes : List Node) :
    selected declared { s with predicates := front ++ .position number :: rest } nodes =
      (selected declared s nodes).map (pick (some number)) := by
  have hposition : ({ s with predicates := front ++ .position number :: rest } : Step).position? =
      some number :=
    findSome?_insert_position (by rwa [← hps]) number
  have hadmits : admits declared { s with predicates := front ++ .position number :: rest } =
      admits declared s := by
    funext n
    simp only [admits, hps, holdAll_insert_position]
  rw [selected, selected, hadmits, hposition, hnone]
  cases keep (admits declared s) (candidates s.descendant nodes) <;> rfl

theorem walk_insert_position {s : Step} {front back : List Predicate} {rest : List Step}
    {nodes picked : List Node} {found : List Match} (hps : s.predicates = front ++ back)
    (hnone : s.position? = none) (hpicked : selected declared s nodes = .ok picked)
    (hfound : walk declared (s :: rest) nodes = .ok found) :
    ∃ run : Node → List Match, found = picked.flatMap run ∧ ∀ number,
      walk declared ({ s with predicates := front ++ .position number :: back } :: rest) nodes =
        .ok ((pick (some number) picked).flatMap run) := by
  rw [walk_cons_eq_collect, hpicked] at hfound
  obtain ⟨hall, rfl⟩ := collect_eq_ok hfound
  refine ⟨_, rfl, ?_⟩
  intro number
  rw [walk_cons_eq_collect, selected_insert_position hps hnone, hpicked]
  exact collect_eq_flatMap fun n hn => hall n ((pick_sublist _ _).subset hn)

end Walk

namespace Path.Compiled

/-- The first step of a path alone, which selects nodes and reads no attribute of theirs. -/
def first (p : Compiled) : Compiled :=
  { p with steps := p.steps.map fun steps => (steps.take 1).map fun s => { s with reads := none } }

variable {p : Compiled} {s : Step} {rest : List Step} {declared : List Declaration}

theorem evaluate_insert_position {front back : List Predicate} (hp : p.steps = some (s :: rest))
    (hps : s.predicates = front ++ back) (hnone : s.position? = none) {t : Tree}
    {results : List Result} (h : p.evaluate t declared = .ok results) :
    ∃ (picked : List Node) (run : Node → List Result),
      p.first.evaluate t declared = .ok (picked.map fun n => Result.ofMatch (.node n)) ∧
      results = picked.flatMap run ∧ ∀ (c : Compiled) (number : Nat),
        c.steps = some ({ s with predicates := front ++ .position number :: back } :: rest) →
        c.evaluate t declared = .ok ((Walk.pick (some number) picked).flatMap run) := by
  obtain ⟨root⟩ := t
  cases root with
  | none =>
    cases h
    refine ⟨[], fun _ => [], rfl, rfl, ?_⟩
    intro c number _
    rw [List.eq_nil_of_sublist_nil (Walk.pick_sublist (some number) [])]
    rfl
  | some root =>
    simp only [evaluate, hp] at h
    obtain ⟨found, hfound, h⟩ := bind_eq_ok_iff.mp h
    cases h
    have hwalk : Walk.walk declared (s :: rest) (Walk.start (s :: rest) (Node.ofRoot root)) =
        .ok found := hfound
    rw [Walk.walk_cons_eq_collect] at hwalk
    obtain ⟨picked, hpicked, -⟩ := bind_eq_ok_iff.mp hwalk
    obtain ⟨run, rfl, hnumber⟩ := Walk.walk_insert_position hps hnone hpicked hfound
    refine ⟨picked, fun n => (run n).map Result.ofMatch, ?_, List.map_flatMap, ?_⟩
    · have hfirst : Walk.walk declared [{ s with reads := none }]
          (Walk.start (s :: rest) (Node.ofRoot root)) = .ok (picked.map .node) := by
        rw [Walk.walk_last_nodes rfl]
        change (Walk.selected declared s _).map _ = _
        rw [hpicked]
        rfl
      simp only [evaluate, first, hp, Option.map_some, List.take_succ_cons, List.take_zero,
        List.map_cons, List.map_nil]
      apply bind_eq_ok_iff.mpr
      refine ⟨_, hfirst, ?_⟩
      rw [List.map_map]
      rfl
    · intro c number hc
      simp only [evaluate, hc]
      apply bind_eq_ok_iff.mpr
      refine ⟨_, hnumber number, ?_⟩
      rw [List.map_flatMap]

end Path.Compiled

/-- A path with a position among the predicates of one of its steps. -/
def Path.insertPosition (before : String) (row : List String) (after : String) (n : Nat) : String :=
  before ++ String.join (("[" ++ n.repr ++ "]") :: row) ++ after

/-- A position among the predicates of the first step of a path that has none there. The path is
accepted for all positions in range. The positions from one to the number of nodes that the step
selects part the results, in their order, and all other positions find nothing. -/
theorem evaluate_positions {before after : String} {row : List String} {p : Path.Compiled}
    {s : Step} (hstep : Path.AtStep before row after) (hbefore : Path.parse before = .ok [s])
    (hp : Path.compile (before ++ String.join row ++ after) = .ok p)
    (hnone : (p.steps.bind List.head?).bind Step.position? = none) :
    ∃ c : Nat → Path.Compiled,
      (∀ n ≤ Path.maxPosition,
        Path.compile (Path.insertPosition before row after n) = .ok (c n)) ∧
      (∀ n > Path.maxPosition, Path.compile (Path.insertPosition before row after n) =
        .error ⟨Path.insertPosition before row after n, .positionOutOfRange n.repr⟩) ∧
      ∀ (t : Tree) (declared : List Declaration) (results : List Result),
        p.evaluate t declared = .ok results →
        ∃ (selected : List Result) (answers : Nat → List Result),
          p.first.evaluate t declared = .ok selected ∧
          (∀ n, (c n).evaluate t declared = .ok (answers n)) ∧
          results = (List.range selected.length).flatMap (fun i => answers (i + 1)) ∧
          answers 0 = [] ∧ ∀ n > selected.length, answers n = [] := by
  obtain ⟨bs, new, lead, s', rest, hnew, hsteps, hps, hcompile, hlead⟩ := hstep.exists_steps hp
  obtain rfl : lead = [] := by
    obtain ⟨_, hfirst⟩ := hlead [s] hbefore
    simpa using congrArg List.length hfirst
  rw [List.nil_append] at hsteps
  rw [hsteps] at hnone
  have hnone' : s'.predicates.filterMap Predicate.position? = [] :=
    List.filterMap_eq_nil_iff.mpr (List.findSome?_eq_none_iff.mp hnone)
  obtain ⟨front, back, hsplit, hinsert⟩ := Path.predicates_insert hps hnone'
  let c : Nat → Path.Compiled := fun n => ⟨Path.insertPosition before row after n,
    some ({ s' with predicates := front ++ .position n :: back } :: rest)⟩
  have hposition : ∀ n, Path.compile (Path.insertPosition before row after n) =
      if Path.maxPosition < n
      then .error ⟨Path.insertPosition before row after n, .positionOutOfRange n.repr⟩
      else .ok (c n) := by
    intro n
    have hrow : List.Forall₂ Path.Surface.Bracket.From (.position n.repr :: new)
        ((("[" ++ n.repr ++ "]") :: row).map String.toList) :=
      .cons (Path.from_position n) hnew
    rw [Path.insertPosition, hcompile hrow, hinsert, Decimal.ofDigits_repr]
    split <;> rfl
  refine ⟨c, ?_, ?_, ?_⟩
  · intro n hn
    rw [hposition, if_neg (by omega)]
  · intro n hn
    rw [hposition, if_pos hn]
  · intro t declared results h
    obtain ⟨picked, run, hfirst, rfl, hnumber⟩ :=
      Path.Compiled.evaluate_insert_position hsteps hsplit hnone h
    refine ⟨_, fun n => (Walk.pick (some n) picked).flatMap run, hfirst,
      fun n => hnumber (c n) n rfl, ?_, rfl, ?_⟩
    · rw [List.length_map, ← List.flatMap_assoc, Walk.flatMap_pick]
    · intro n hn
      rw [List.length_map] at hn
      exact congrArg (List.flatMap run) (Walk.pick_of_length_lt hn)

/-- A position behind a condition and before another one, in a step that searches everything below.
One of the nodes that it selects lacks the attribute that the path reads, and it has no third. -/
theorem evaluate_positions_between_conditions :
    let b (entries : List (String × String)) (fs : List Fragment) :=
      Fragment.element "b" (Dictionary.ofList entries) fs
    let c := Fragment.element "c" Dictionary.empty []
    let t := Tree.ofRoot (Fragment.element "r" Dictionary.empty
      [b [("k", "")] [], b [("k", "")] [c, b [("k", ""), ("id", "1")] [c]],
        b [("id", "2")] [c], b [("k", ""), ("id", "3")] [c]])
    ∃ p s, Path.AtStep "/.//b[@k]" ["[./c]"] "/@id" ∧ Path.parse "/.//b[@k]" = .ok [s] ∧
      Path.compile "/.//b[@k][./c]/@id" = .ok p ∧
      (p.steps.bind List.head?).bind Step.position? = none ∧
      p.evaluate t [] = .ok [.text "1", .text "3"] ∧
      ∃ (c : Nat → Path.Compiled) (answers : Nat → List Result),
        Path.compile "/.//b[@k][2][./c]/@id" = .ok (c 2) ∧
        (∀ n, (c n).evaluate t [] = .ok (answers n)) ∧
        [.text "1", .text "3"] = answers 1 ++ answers 2 ++ answers 3 ∧
        answers 0 = [] ∧ answers 4 = [] := by
  intro b c t
  have hstep : Path.AtStep "/.//b[@k]" ["[./c]"] "/@id" :=
    ⟨by decide +kernel, by decide +kernel, .inr (by decide +kernel)⟩
  have hlength : (Path.parse "/.//b[@k]").toOption.map List.length = some 1 := by decide +kernel
  have hcompile : (Path.compile "/.//b[@k][./c]/@id").toOption.map (fun p =>
      ((p.steps.bind List.head?).bind Step.position?, (p.evaluate t []).toOption,
        (p.first.evaluate t []).toOption.map List.length)) =
      some (none, some [.text "1", .text "3"], some 3) := by decide +kernel
  obtain ⟨found, hfound, hone⟩ := Option.map_eq_some_iff.mp hlength
  obtain ⟨s, rfl⟩ := List.length_eq_one_iff.mp hone
  obtain ⟨p, hp, hevaluate⟩ := Option.map_eq_some_iff.mp hcompile
  obtain ⟨hnone, hresults, hthree⟩ : _ ∧ _ ∧ _ := by simpa only [Prod.mk.injEq] using hevaluate
  obtain ⟨chosen, hchosen, hthree⟩ := Option.map_eq_some_iff.mp hthree
  rw [toOption_eq_some_iff] at hfound hp hresults hchosen
  obtain ⟨c, haccepted, -, hparts⟩ := evaluate_positions hstep hfound hp hnone
  obtain ⟨selected, answers, hselected, hanswers, hresults', hzero, hbeyond⟩ :=
    hparts t [] _ hresults
  obtain rfl : chosen = selected := Except.ok.inj (hchosen.symm.trans hselected)
  rw [hthree] at hresults' hbeyond
  refine ⟨p, s, hstep, hfound, hp, hnone, hresults, c, answers, haccepted 2 (by decide), hanswers, ?_,
    hzero, hbeyond 4 (by decide)⟩
  simpa [List.range_succ] using hresults'

end MarkupTree

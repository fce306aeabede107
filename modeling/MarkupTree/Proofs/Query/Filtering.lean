import MarkupTree.Proofs.Path.Bracketed
import MarkupTree.Proofs.Query.Requery

/-!
# Conditions ask what queries answer

A condition walks its path from a candidate in the tree. The candidate as a result is a tree of its
own, and a query of the same path on that tree finds the same. So the elements that a path in
brackets keeps are those on which the path finds something, and those that a comparison keeps are
those on which the first thing that the path finds compares so.
-/

set_option autoImplicit false

open MarkupTree.Path

namespace MarkupTree

/-- The element as a result: a tree of its own that declares what is in scope. -/
def Node.asTree (n : Node) : Tree := Tree.ofRoot (Result.declareAll n.scope n.fragment)

theorem Result.ofMatch_of_isElement {n : Node} (h : n.fragment.isElement = true) :
    Result.ofMatch (.node n) = .tree n.asTree := by
  obtain ⟨address, f, scope⟩ := n
  cases f with
  | text => cases h
  | element => rfl

namespace Path.Compiled

/-- On every tree, a path selects those results of another path, all of them trees, whose own
results pass; it succeeds exactly where all of them can be queried. -/
def Selects (p every c : Compiled) (passes : List Result → Bool) : Prop :=
  ∀ (t : Tree) (declared : List Declaration), ∃ trees : List Tree,
    every.evaluate t declared = .ok (trees.map .tree) ∧
      ∀ results, p.evaluate t declared = .ok results ↔
        ∃ answer : Tree → List Result, (∀ u ∈ trees, c.evaluate u declared = .ok (answer u)) ∧
          results = (trees.filter fun u => passes (answer u)).map .tree

end Path.Compiled

section Conditions

variable {p : String} {c : Path.Compiled} {declared : List Declaration} {n : Node}

theorem evaluate_asTree (hp : Path.compile p = .ok c)
    (hkey : ∀ key, c.readsContext? = some key → Declaration.isKey key = false)
    (hn : n.Standing) (hf : n.fragment.isElement = true) :
    c.evaluate n.asTree declared =
      (Walk.walkFrom declared c.innerSteps n).map (List.map Result.ofMatch) := by
  by_cases hempty : p = ""
  · subst hempty
    cases hp
    have hself : Walk.walkFrom declared [Step.self] n = .ok [.node n] :=
      Walk.walkFrom_context none n
    change _ = (Walk.walkFrom declared [Step.self] n).map _
    rw [hself]
    exact congrArg (fun x => Except.ok [x]) (Result.ofMatch_of_isElement hf).symm
  · obtain ⟨found, hparse, rfl⟩ := (Path.compile_eq_ok hempty).mp hp
    have hquery : Path.Compiled.requery ⟨p, some found⟩ declared (Result.ofMatch (.node n)) =
        (Walk.walkFrom declared found n).map (List.map Result.ofMatch) :=
      Path.Compiled.requery_ofMatch rfl (Path.startsBelow_of_parse hparse) hkey hn
    rw [Result.ofMatch_of_isElement hf] at hquery
    exact hquery

variable (hp : Path.compile p = .ok c)
variable (hkey : ∀ key, c.readsContext? = some key → Declaration.isKey key = false)
include hp hkey

theorem holds_present (hn : n.Standing) (hf : n.fragment.isElement = true) :
    Walk.holds declared (.present c.innerSteps) n =
      (c.evaluate n.asTree declared).map fun found => !found.isEmpty := by
  rw [evaluate_asTree hp hkey hn hf, Walk.holds, Walk.walkFrom]
  cases Walk.walk declared c.innerSteps (Walk.start c.innerSteps n) with
  | error e => rfl
  | ok found => cases found <;> rfl

theorem holds_compare (op : Comparison) (v : String) (hn : n.Standing)
    (hf : n.fragment.isElement = true) :
    Walk.holds declared (.compare (.path c.innerSteps) op (.literal v)) n =
      (c.evaluate n.asTree declared).map fun found =>
        op.holds ((found.head?.map Result.stringValue).getD "") v := by
  rw [evaluate_asTree hp hkey hn hf, Walk.holds, Walk.value, Walk.value, Walk.walkFrom]
  cases Walk.walk declared c.innerSteps (Walk.start c.innerSteps n) with
  | error e => rfl
  | ok found =>
    cases found with
    | nil => rfl
    | cons m found =>
      have hvalue := Result.stringValue_ofMatch m
      simp [Except.map, bind, Except.bind, hvalue]

end Conditions

namespace Walk

variable {declared : List Declaration}

theorem passes_any (n : Node) : passes declared .any n = .ok n.fragment.isElement := by
  unfold passes
  cases n.fragment <;> rfl

theorem admits_any (ps : List Predicate) (n : Node) :
    admits declared ⟨true, .any, none, ps⟩ n =
      if n.fragment.isElement then holdAll declared ps n else .ok false := by
  simp only [admits, passes_any]
  rfl

theorem holdAll_singleton (source : String) (test : Condition) (n : Node) :
    holdAll declared [.condition source test] n = holds declared test n := by
  rw [holdAll, holdAll]
  cases holds declared test n with
  | error e => rfl
  | ok b => cases b <;> rfl

end Walk

def elementsBelow (root : Fragment) : List Node :=
  (Walk.candidates true (Node.ofRoot root).children).filter fun n => n.fragment.isElement

theorem standing_of_mem_elementsBelow {root : Fragment} {n : Node} (h : n ∈ elementsBelow root) :
    n.Standing ∧ n.fragment.isElement = true := by
  obtain ⟨hn, helement⟩ := List.mem_filter.mp h
  have hbelow : n ∈ (Node.ofRoot root).subtree := by
    rw [Node.subtree_eq_cons_flatMap]
    exact List.mem_cons_of_mem _ hn
  exact ⟨Node.standing_of_mem_subtree_ofRoot hbelow, helement⟩

theorem walkFrom_every {ps : List Predicate} (hps : ps.findSome? Predicate.position? = none)
    (root : Fragment) (declared : List Declaration) :
    Walk.walkFrom declared [⟨true, .any, none, ps⟩] (Node.ofRoot root) =
      (Walk.keep (Walk.holdAll declared ps) (elementsBelow root)).map (List.map .node) := by
  change Walk.walk declared [⟨true, .any, none, ps⟩] (Node.ofRoot root).children = _
  rw [Walk.walk_last_nodes rfl, Walk.selected, Step.position?, hps, funext (Walk.admits_any ps),
    Walk.keep_filter, ← elementsBelow]
  cases Walk.keep (Walk.holdAll declared ps) (elementsBelow root) <;> rfl

theorem evaluate_every_iff {p : Path.Compiled} {ps : List Predicate}
    (hp : p.steps = some [⟨true, .any, none, ps⟩]) (hps : ps.findSome? Predicate.position? = none)
    {root : Fragment} {declared : List Declaration} {results : List Result} :
    p.evaluate ⟨some root⟩ declared = .ok results ↔
      ∃ answer : Node → Bool,
        (∀ n ∈ elementsBelow root, Walk.holdAll declared ps n = .ok (answer n)) ∧
          results = ((elementsBelow root).filter answer).map fun n => .tree n.asTree := by
  have hpresent : ∀ answer : Node → Bool,
      (((elementsBelow root).filter answer).map Match.node).map Result.ofMatch =
        ((elementsBelow root).filter answer).map fun n => .tree n.asTree := by
    intro answer
    rw [List.map_map]
    apply List.map_congr_left
    intro n hn
    exact Result.ofMatch_of_isElement
      (standing_of_mem_elementsBelow (List.mem_of_mem_filter hn)).2
  simp only [Path.Compiled.evaluate, hp, walkFrom_every hps, bind_eq_ok_iff, map_eq_ok_iff,
    Walk.keep_eq_ok_iff]
  constructor
  · rintro ⟨_, ⟨_, ⟨answer, hanswer, rfl⟩, rfl⟩, h⟩
    cases h
    exact ⟨answer, hanswer, hpresent answer⟩
  · rintro ⟨answer, hanswer, rfl⟩
    exact ⟨_, ⟨_, ⟨answer, hanswer, rfl⟩, rfl⟩, congrArg Except.ok (hpresent answer)⟩

theorem evaluate_every {every : Path.Compiled} (hevery : every.steps = some [⟨true, .any, none, []⟩])
    (root : Fragment) (declared : List Declaration) :
    every.evaluate ⟨some root⟩ declared = .ok ((elementsBelow root).map fun n => .tree n.asTree) := by
  apply (evaluate_every_iff hevery rfl).mpr
  refine ⟨fun _ => true, fun n _ => by rw [Walk.holdAll], ?_⟩
  rw [List.filter_true]

theorem selects_of_holds {p every c : Path.Compiled} {source : String} {test : Condition}
    {passes : List Result → Bool}
    (hp : p.steps = some [⟨true, .any, none, [.condition source test]⟩])
    (hevery : every.steps = some [⟨true, .any, none, []⟩])
    (htest : ∀ {declared n}, n.Standing → n.fragment.isElement = true →
      Walk.holds declared test n = (c.evaluate n.asTree declared).map passes) :
    p.Selects every c passes := by
  intro t declared
  obtain ⟨root⟩ := t
  cases root with
  | none =>
    refine ⟨[], rfl, fun results => ?_⟩
    constructor
    · intro h
      cases h
      exact ⟨fun _ => [], nofun, rfl⟩
    · rintro ⟨answer, -, rfl⟩
      rfl
  | some root =>
    refine ⟨(elementsBelow root).map Node.asTree, ?_, ?_⟩
    · rw [evaluate_every hevery, List.map_map]
      rfl
    · intro results
      rw [evaluate_every_iff hp rfl]
      simp only [Walk.holdAll_singleton]
      constructor
      · rintro ⟨answer, hanswer, rfl⟩
        have hquery : ∀ n ∈ elementsBelow root, ∃ found,
            c.evaluate n.asTree declared = .ok found ∧ passes found = answer n := by
          intro n hn
          obtain ⟨hstanding, helement⟩ := standing_of_mem_elementsBelow hn
          apply map_eq_ok_iff.mp
          rw [← htest hstanding helement]
          exact hanswer n hn
        -- Several elements may be the same tree, so the answers are chosen for trees.
        obtain ⟨answers, hanswers⟩ : ∃ answers : Tree → List Result, ∀ u found,
            c.evaluate u declared = .ok found → answers u = found :=
          ⟨fun u => (c.evaluate u declared).toOption.getD [], fun u found h => by simp [h]⟩
        refine ⟨answers, ?_, ?_⟩
        · rw [List.forall_mem_map]
          intro n hn
          obtain ⟨found, hfound, -⟩ := hquery n hn
          rw [hanswers _ _ hfound, hfound]
        · have hfilter : (elementsBelow root).filter answer =
              (elementsBelow root).filter fun n => passes (answers n.asTree) := by
            apply List.filter_congr
            intro n hn
            obtain ⟨found, hfound, hpasses⟩ := hquery n hn
            rw [hanswers _ _ hfound, hpasses]
          rw [List.filter_map, List.map_map, hfilter]
          rfl
      · rintro ⟨answer, hanswer, rfl⟩
        rw [List.forall_mem_map] at hanswer
        refine ⟨fun n => passes (answer n.asTree), ?_, ?_⟩
        · intro n hn
          obtain ⟨hstanding, helement⟩ := standing_of_mem_elementsBelow hn
          rw [htest hstanding helement, hanswer n hn]
          rfl
        · rw [List.filter_map, List.map_map]
          rfl

/-- The elements that a path in brackets keeps, alone or compared with a text, are those on which
the path finds something, or on which the text of the first result compares so. -/
theorem condition_selects {p : String} {c : Path.Compiled} (hp : Path.compile p = .ok c)
    (hkey : ∀ key, c.readsContext? = some key → Declaration.isKey key = false) :
    ∃ every present, Path.compile "//*" = .ok every ∧
      Path.compile ("//*[." ++ p ++ "]") = .ok present ∧
      present.Selects every c (fun found => !found.isEmpty) ∧
      ∀ (op : Comparison) (v : String), '"' ∉ v.toList →
        ∃ compared, Path.compile ("//*[." ++ p ++ " " ++ op.symbol ++ " \"" ++ v ++ "\"]") =
            .ok compared ∧
          compared.Selects every c fun found =>
            op.holds ((found.head?.map Result.stringValue).getD "") v := by
  obtain ⟨path, source, hpresent⟩ := Path.compile_present hp
  refine ⟨⟨"//*", some [⟨true, .any, none, []⟩]⟩, _, ?_, hpresent, ?_, ?_⟩
  · rfl
  · exact selects_of_holds rfl rfl (holds_present hp hkey)
  · intro op v hv
    obtain ⟨path, source, hcompare⟩ := Path.compile_compare hp op hv
    exact ⟨_, hcompare, selects_of_holds rfl rfl (holds_compare hp hkey op v)⟩

/-- `/n:b[2]/@id` in brackets, on a tree that binds the namespace outside of the elements that the
path is asked on. -/
theorem condition_selects_inherited :
    let element (name : String) (entries : List (String × String)) :=
      Fragment.element name (Dictionary.ofList entries)
    let t := Tree.ofRoot (element "r" [("xmlns:p", "urn:p")]
      [element "a" [] [element "p:b" [("id", "1")] [], element "p:b" [("id", "2")] []],
        element "a" [] [element "p:b" [("id", "2")] []]])
    let declared : List Declaration := [⟨some "n", "urn:p"⟩]
    ∃ c every compared, Path.compile "/n:b[2]/@id" = .ok c ∧ Path.compile "//*" = .ok every ∧
      Path.compile "//*[./n:b[2]/@id >= \"2\"]" = .ok compared ∧
      ∃ (trees : List Tree) (answer : Tree → List Result),
        every.evaluate t declared = .ok (trees.map .tree) ∧ trees.length = 5 ∧
        (∀ u ∈ trees, c.evaluate u declared = .ok (answer u)) ∧
        (trees.filter fun u => Comparison.greaterOrEqual.holds
          (((answer u).head?.map Result.stringValue).getD "") "2").length = 1 := by
  intro element t declared
  have hreads : (Path.compile "/n:b[2]/@id").toOption.map (·.readsContext?) = some none := by
    decide +kernel
  obtain ⟨c, hc, hreads⟩ := Option.map_eq_some_iff.mp hreads
  rw [toOption_eq_some_iff] at hc
  have hkey : ∀ key, c.readsContext? = some key → Declaration.isKey key = false := by
    intro key h
    rw [hreads] at h
    cases h
  obtain ⟨every, present, hevery, -, -, hcompared⟩ := condition_selects hc hkey
  obtain ⟨compared, hcompile, hselects⟩ := hcompared .greaterOrEqual "2" (by decide)
  obtain ⟨trees, htrees, hiff⟩ := hselects t declared
  have hcount : ((Path.compile "//*").toOption.bind fun p =>
      (p.evaluate t declared).toOption.map List.length) = some 5 := by
    decide +kernel
  have hone : ((Path.compile "//*[./n:b[2]/@id >= \"2\"]").toOption.bind fun p =>
      (p.evaluate t declared).toOption.map List.length) = some 1 := by
    decide +kernel
  have hcompile : Path.compile "//*[./n:b[2]/@id >= \"2\"]" = .ok compared := hcompile
  rw [hevery, toOption_ok, Option.bind_some, htrees, toOption_ok, Option.map_some,
    List.length_map] at hcount
  rw [hcompile, toOption_ok, Option.bind_some] at hone
  obtain ⟨results, hresults, hlength⟩ := Option.map_eq_some_iff.mp hone
  rw [toOption_eq_some_iff] at hresults
  obtain ⟨answer, hanswer, rfl⟩ := (hiff results).mp hresults
  rw [List.length_map] at hlength
  exact ⟨c, every, compared, hc, hevery, hcompile, trees, answer, htrees,
    Option.some.inj hcount, hanswer, hlength⟩

end MarkupTree

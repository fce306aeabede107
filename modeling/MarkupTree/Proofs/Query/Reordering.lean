import Mathlib.Logic.Relation
import MarkupTree.Proofs.Path.Rows
import MarkupTree.Proofs.Path.WellFormed
import MarkupTree.Proofs.Query.Selection

/-!
# The order of predicates

The conditions of a step are asked one after the other up to the first that does not hold, and one
that is asked may fail. So two orders of the same predicates may differ in whether they fail. Where
both succeed, they let the same nodes pass: if all conditions hold in one order they hold in the
other, and if one does not then no order holds. A step has at most one position, which picks from
what passes wherever it is written.
-/

set_option autoImplicit false

open MarkupTree.Path

namespace MarkupTree

namespace Path

mutual

/-- Steps with their predicates in any order, and so in the paths of their conditions. What a
condition was written as does not count. -/
inductive Reordered : List Step → List Step → Prop
  | nil : Reordered [] []
  | cons {descendant : Bool} {test : NameTest} {reads : Option String}
      {ps mid ps' : List Predicate} {rest rest' : List Step} :
      ps.Perm mid → EachReordered mid ps' → Reordered rest rest' →
      Reordered (⟨descendant, test, reads, ps⟩ :: rest) (⟨descendant, test, reads, ps'⟩ :: rest')

inductive EachReordered : List Predicate → List Predicate → Prop
  | nil : EachReordered [] []
  | position (number : Nat) {ps ps' : List Predicate} :
      EachReordered ps ps' → EachReordered (.position number :: ps) (.position number :: ps')
  | condition (source source' : String) {test test' : Condition} {ps ps' : List Predicate} :
      ConditionReordered test test' → EachReordered ps ps' →
      EachReordered (.condition source test :: ps) (.condition source' test' :: ps')

inductive ConditionReordered : Condition → Condition → Prop
  | compare (op : Comparison) {lhs lhs' rhs rhs' : Operand} :
      OperandReordered lhs lhs' → OperandReordered rhs rhs' →
      ConditionReordered (.compare lhs op rhs) (.compare lhs' op rhs')
  | present {steps steps' : List Step} :
      Reordered steps steps' → ConditionReordered (.present steps) (.present steps')

inductive OperandReordered : Operand → Operand → Prop
  | path {steps steps' : List Step} :
      Reordered steps steps' → OperandReordered (.path steps) (.path steps')
  | literal (text : String) : OperandReordered (.literal text) (.literal text)

end

mutual

theorem Reordered.refl : (steps : List Step) → Reordered steps steps
  | [] => .nil
  | ⟨_, _, _, ps⟩ :: rest => .cons (.refl ps) (EachReordered.refl ps) (Reordered.refl rest)

theorem EachReordered.refl : (ps : List Predicate) → EachReordered ps ps
  | [] => .nil
  | .position number :: ps => .position number (EachReordered.refl ps)
  | .condition source test :: ps =>
    .condition source source (ConditionReordered.refl test) (EachReordered.refl ps)

theorem ConditionReordered.refl : (test : Condition) → ConditionReordered test test
  | .compare lhs op rhs => .compare op (OperandReordered.refl lhs) (OperandReordered.refl rhs)
  | .present steps => .present (Reordered.refl steps)

theorem OperandReordered.refl : (operand : Operand) → OperandReordered operand operand
  | .path steps => .path (Reordered.refl steps)
  | .literal text => .literal text

end

/-- At most one of the predicates is a position. -/
def OnePosition (ps : List Predicate) : Prop := (ps.filterMap Predicate.position?).length ≤ 1

theorem EachReordered.positions {ps ps' : List Predicate} (h : EachReordered ps ps') :
    ps.filterMap Predicate.position? = ps'.filterMap Predicate.position? := by
  induction ps generalizing ps' with
  | nil =>
    cases h
    rfl
  | cons p ps ih =>
    cases h with
    | position number h => exact congrArg (number :: ·) (ih h)
    | condition _ _ _ h =>
      have htail := ih h
      exact htail

theorem position?_of_reordered {ps mid ps' : List Predicate} (hperm : ps.Perm mid)
    (h : EachReordered mid ps') (hone : OnePosition ps') :
    ps.findSome? Predicate.position? = ps'.findSome? Predicate.position? := by
  have hpositions := hperm.filterMap Predicate.position?
  rw [h.positions] at hpositions
  have hsame : ps.filterMap Predicate.position? = ps'.filterMap Predicate.position? := by
    unfold OnePosition at hone
    match hps : ps'.filterMap Predicate.position? with
    | [] =>
      rw [hps] at hpositions
      exact hpositions.eq_nil
    | [number] =>
      rw [hps] at hpositions
      exact hpositions.eq_singleton
    | _ :: _ :: _ =>
      rw [hps] at hone
      simp at hone
  rw [← List.head?_filterMap, ← List.head?_filterMap, hsame]

end Path

/-- Two computations that return the same where both succeed. -/
def Agree {ε α : Type} (x y : Except ε α) : Prop := ∀ a b, x = .ok a → y = .ok b → a = b

section Agree

variable {ε α β : Type}

theorem agree_self (x : Except ε α) : Agree x x :=
  fun _ _ ha hb => Except.ok.inj (ha.symm.trans hb)

theorem Agree.bind {x y : Except ε α} {f g : α → Except ε β} (h : Agree x y)
    (hnext : ∀ a, Agree (f a) (g a)) : Agree (x >>= f) (y >>= g) := by
  intro b b' hb hb'
  obtain ⟨a, ha, hb⟩ := bind_eq_ok_iff.mp hb
  obtain ⟨a', ha', hb'⟩ := bind_eq_ok_iff.mp hb'
  cases h a a' ha ha'
  exact hnext a b b' hb hb'

theorem keep_agree {p q : α → Except ε Bool} (h : ∀ x, Agree (p x) (q x)) (xs : List α) :
    Agree (Walk.keep p xs) (Walk.keep q xs) := by
  induction xs with
  | nil => exact agree_self _
  | cons x xs ih => exact (h x).bind fun kept => ih.bind fun more => agree_self _

theorem collect_agree {f g : α → Except ε (List β)} (h : ∀ x, Agree (f x) (g x)) (xs : List α) :
    Agree (Walk.collect f xs) (Walk.collect g xs) := by
  induction xs with
  | nil => exact agree_self _
  | cons x xs ih => exact (h x).bind fun found => ih.bind fun more => agree_self _

end Agree

namespace Walk

variable (declared : List Declaration)

/-- Two predicates that let the same nodes pass. -/
inductive PredicatesAgree : Predicate → Predicate → Prop
  | position (number : Nat) : PredicatesAgree (.position number) (.position number)
  | condition (source source' : String) {test test' : Condition} :
      (∀ n, Agree (holds declared test n) (holds declared test' n)) →
      PredicatesAgree (.condition source test) (.condition source' test')

variable {declared}

theorem conditions_of_holdAll {ps : List Predicate} {n : Node} {b : Bool}
    (h : holdAll declared ps n = .ok b) :
    (b = true ∧ ∀ source test, .condition source test ∈ ps → holds declared test n = .ok true) ∨
      (b = false ∧ ∃ source test, .condition source test ∈ ps ∧
        holds declared test n = .ok false) := by
  induction ps with
  | nil =>
    rw [holdAll] at h
    cases h
    exact .inl ⟨rfl, nofun⟩
  | cons p ps ih =>
    cases p with
    | position =>
      rw [holdAll] at h
      rcases ih h with ⟨rfl, hall⟩ | ⟨rfl, source, test, hmem, hfalse⟩
      · refine .inl ⟨rfl, ?_⟩
        intro source test hmem
        exact hall source test (by simpa using hmem)
      · exact .inr ⟨rfl, source, test, List.mem_cons_of_mem _ hmem, hfalse⟩
    | condition source test =>
      rw [holdAll] at h
      obtain ⟨answer, hanswer, h⟩ := bind_eq_ok_iff.mp h
      cases answer with
      | false =>
        cases h
        exact .inr ⟨rfl, source, test, List.mem_cons_self, hanswer⟩
      | true =>
        rcases ih h with ⟨rfl, hall⟩ | ⟨rfl, source', test', hmem, hfalse⟩
        · refine .inl ⟨rfl, ?_⟩
          intro source' test' hmem
          rcases List.mem_cons.mp hmem with heq | hmem
          · cases heq
            exact hanswer
          · exact hall source' test' hmem
        · exact .inr ⟨rfl, source', test', List.mem_cons_of_mem _ hmem, hfalse⟩

theorem holdAll_agree {ps mid ps' : List Predicate} (hperm : ps.Perm mid)
    (h : List.Forall₂ (PredicatesAgree declared) mid ps') (n : Node) :
    Agree (holdAll declared ps n) (holdAll declared ps' n) := by
  intro b b' hb hb'
  -- Where one order succeeds because all conditions hold, the other finds none that does not.
  rcases conditions_of_holdAll hb with ⟨rfl, hall⟩ | ⟨rfl, source, test, hmem, hfalse⟩ <;>
    rcases conditions_of_holdAll hb' with ⟨rfl, hall'⟩ | ⟨rfl, source', test', hmem', hfalse'⟩
  · rfl
  · obtain ⟨_, hmid, hagree⟩ := exists_of_mem_right h hmem'
    cases hagree with
    | condition _ _ hagree =>
      exact hagree n _ _ (hall _ _ (hperm.mem_iff.mpr hmid)) hfalse'
  · obtain ⟨_, hother, hagree⟩ := exists_of_mem_right h.flip (hperm.mem_iff.mp hmem)
    cases hagree with
    | condition _ _ hagree => exact hagree n _ _ hfalse (hall' _ _ hother)
  · rfl

theorem selected_agree (descendant : Bool) (test : NameTest) (reads : Option String)
    {ps ps' : List Predicate}
    (hposition : ps.findSome? Predicate.position? = ps'.findSome? Predicate.position?)
    (h : ∀ n, Agree (holdAll declared ps n) (holdAll declared ps' n)) (nodes : List Node) :
    Agree (selected declared ⟨descendant, test, reads, ps⟩ nodes)
      (selected declared ⟨descendant, test, reads, ps'⟩ nodes) := by
  have hadmits : ∀ n, Agree (admits declared ⟨descendant, test, reads, ps⟩ n)
      (admits declared ⟨descendant, test, reads, ps'⟩ n) := by
    intro n
    apply (agree_self (passes declared test n)).bind
    intro passed
    cases passed with
    | true => exact h n
    | false => exact agree_self _
  rw [selected, selected, Step.position?, Step.position?, hposition]
  exact (keep_agree hadmits _).bind fun kept => agree_self _

theorem start_of_reordered {steps steps' : List Step} (h : Reordered steps steps') (n : Node) :
    start steps n = start steps' n := by
  cases h <;> rfl

theorem isEmpty_of_reordered {steps steps' : List Step} (h : Reordered steps steps') :
    steps.isEmpty = steps'.isEmpty := by
  cases h <;> rfl

mutual

theorem walk_agree : {steps steps' : List Step} → Reordered steps steps' →
    (∀ s ∈ stepsWithin steps', OnePosition s.predicates) →
    ∀ nodes, Agree (walk declared steps nodes) (walk declared steps' nodes)
  | _, _, .nil, _, _ => by
    rw [walk]
    exact agree_self _
  | _, _, .cons hperm hmid hrest, hone, nodes => by
    obtain ⟨hstep, hpredicates, htail⟩ := forall_stepsWithin_cons.mp hone
    have hposition := position?_of_reordered hperm hmid hstep
    have hholds := holdAll_agree hperm (each_agree hmid hpredicates)
    rw [walk_cons, walk_cons, isEmpty_of_reordered hrest]
    apply (selected_agree _ _ _ hposition hholds nodes).bind
    intro picked
    split
    · exact agree_self _
    · exact collect_agree (fun n => walk_agree hrest htail n.children) picked

theorem each_agree : {ps ps' : List Predicate} → EachReordered ps ps' →
    (∀ s ∈ predicatesWithin ps', OnePosition s.predicates) →
    List.Forall₂ (PredicatesAgree declared) ps ps'
  | _, _, .nil, _ => .nil
  | _, _, .position number h, hone =>
    .cons (.position number) (each_agree h (forall_predicatesWithin_position.mp hone))
  | _, _, .condition source source' htest h, hone => by
    obtain ⟨htestOne, hrestOne⟩ := forall_predicatesWithin_condition.mp hone
    exact .cons (.condition source source' (holds_agree htest htestOne)) (each_agree h hrestOne)

theorem holds_agree : {test test' : Condition} → ConditionReordered test test' →
    (∀ s ∈ conditionWithin test', OnePosition s.predicates) →
    ∀ n, Agree (holds declared test n) (holds declared test' n)
  | _, _, .compare op hlhs hrhs, hone, n => by
    obtain ⟨hlhsOne, hrhsOne⟩ := forall_conditionWithin_compare.mp hone
    rw [holds, holds]
    exact (value_agree hlhs hlhsOne n).bind fun left =>
      (value_agree hrhs hrhsOne n).bind fun right => agree_self _
  | _, _, .present h, hone, n => by
    rw [conditionWithin] at hone
    rw [holds, holds, start_of_reordered h]
    exact (walk_agree h hone _).bind fun found => agree_self _

theorem value_agree : {operand operand' : Operand} → OperandReordered operand operand' →
    (∀ s ∈ operandWithin operand', OnePosition s.predicates) →
    ∀ n, Agree (value declared operand n) (value declared operand' n)
  | _, _, .literal text, _, n => by
    rw [value]
    exact agree_self _
  | _, _, .path h, hone, n => by
    rw [operandWithin] at hone
    rw [value, value, start_of_reordered h]
    exact (walk_agree h hone _).bind fun found => agree_self _

end

end Walk

namespace Path

/-- The step with its predicates in another order. -/
def Step.Permuted (s s' : Step) : Prop :=
  ∃ ps, s.predicates.Perm ps ∧ s' = { s with predicates := ps }

theorem Step.Permuted.refl (s : Step) : s.Permuted s := by
  obtain ⟨descendant, test, reads, ps⟩ := s
  exact ⟨ps, .refl ps, rfl⟩

theorem Step.Permuted.trans {s s' s'' : Step} (h : s.Permuted s') (h' : s'.Permuted s'') :
    s.Permuted s'' := by
  obtain ⟨ps, hps, rfl⟩ := h
  obtain ⟨ps', hps', rfl⟩ := h'
  exact ⟨ps', hps.trans hps', rfl⟩

theorem forall₂_permuted_trans {steps steps' steps'' : List Step}
    (h : List.Forall₂ Step.Permuted steps steps')
    (h' : List.Forall₂ Step.Permuted steps' steps'') :
    List.Forall₂ Step.Permuted steps steps'' := by
  induction h generalizing steps'' with
  | nil => exact h'
  | cons hs _ ih =>
    obtain ⟨s'', rest, hs', hrest, rfl⟩ := List.forall₂_cons_left_iff.mp h'
    exact .cons (hs.trans hs') (ih hrest)

theorem reordered_of_permuted {steps steps' : List Step}
    (h : List.Forall₂ Step.Permuted steps steps') : Reordered steps steps' := by
  induction h with
  | nil => exact .nil
  | @cons s s' rest rest' hs _ ih =>
    obtain ⟨descendant, test, reads, ps⟩ := s
    obtain ⟨ps', hps, rfl⟩ := hs
    exact .cons hps (.refl ps') ih

namespace Compiled

/-- The paths have the same steps, with their predicates in any order. -/
def Reordered (p p' : Compiled) : Prop := Option.Rel Path.Reordered p.steps p'.steps

/-- The paths have the same steps, with the same predicates in any order. -/
def Permuted (p p' : Compiled) : Prop := Option.Rel (List.Forall₂ Step.Permuted) p.steps p'.steps

theorem Permuted.refl (p : Compiled) : p.Permuted p := by
  obtain ⟨source, steps⟩ := p
  cases steps with
  | none => exact .none
  | some steps => exact .some (List.forall₂_same.mpr fun s _ => .refl s)

theorem Permuted.trans {p p' p'' : Compiled} (h : p.Permuted p') (h' : p'.Permuted p'') :
    p.Permuted p'' := by
  obtain ⟨source, steps⟩ := p
  obtain ⟨source', steps'⟩ := p'
  obtain ⟨source'', steps''⟩ := p''
  cases h with
  | none => exact h'
  | some h =>
    cases h' with
    | some h' => exact .some (forall₂_permuted_trans h h')

theorem Permuted.reordered {p p' : Compiled} (h : p.Permuted p') : p.Reordered p' := by
  obtain ⟨source, steps⟩ := p
  obtain ⟨source', steps'⟩ := p'
  cases h with
  | none => exact .none
  | some h => exact .some (reordered_of_permuted h)

end Compiled

/-- One path is the other with a row of predicates of one step in another order. -/
inductive Permuted : String → String → Prop
  | row {before after : String} {row row' : List String} :
      AtStep before row after → row.Perm row' →
      Permuted (before ++ String.join row ++ after) (before ++ String.join row' ++ after)

theorem exists_compile_of_permuted {path path' : String} {p : Compiled} (h : Permuted path path')
    (hp : compile path = .ok p) : ∃ p', compile path' = .ok p' ∧ p.Permuted p' := by
  cases h with
  | @row before after row row' hstep hperm =>
    obtain ⟨bs, new, front, s, rest, hnew, hsteps, hps, hcompile, -⟩ := hstep.exists_steps hp
    obtain ⟨new', hnew', hnews⟩ :=
      List.perm_comp_forall₂ (hperm.map String.toList).symm hnew.flip
    obtain ⟨ps', hps', hpredicates⟩ := predicates_perm hps (hnews.symm.append_left bs)
    have hrefl : ∀ steps : List Step, List.Forall₂ Step.Permuted steps steps :=
      fun steps => List.forall₂_same.mpr fun s _ => .refl s
    have hpath' := hcompile hnew'.flip
    rw [hps'] at hpath'
    refine ⟨_, hpath', ?_⟩
    unfold Compiled.Permuted
    rw [hsteps]
    exact .some (List.rel_append (hrefl front) (.cons ⟨ps', hpredicates, rfl⟩ (hrefl rest)))

theorem exists_compile_of_rows {path path' : String} {p : Compiled}
    (h : Relation.ReflTransGen Permuted path path') (hp : compile path = .ok p) :
    ∃ p', compile path' = .ok p' ∧ p.Permuted p' := by
  induction h with
  | refl => exact ⟨p, hp, .refl p⟩
  | tail _ hrow ih =>
    obtain ⟨mid, hmid, hpermuted⟩ := ih
    obtain ⟨p', hp', hpermuted'⟩ := exists_compile_of_permuted hrow hmid
    exact ⟨p', hp', hpermuted.trans hpermuted'⟩

theorem one_position_of_compile {path : String} {p : Compiled} (hp : compile path = .ok p) :
    ∀ s ∈ p.within, OnePosition s.predicates := by
  by_cases hpath : path = ""
  · subst hpath
    cases hp
    nofun
  · obtain ⟨steps, hparse, rfl⟩ := (compile_eq_ok hpath).mp hp
    apply forall_stepsWithin
    intro inner hinner s hs
    exact (wellFormed_of_parse hparse inner hinner).one_position s hs

end Path

theorem Path.Compiled.evaluate_agree {p p' : Path.Compiled} (h : p.Reordered p')
    (hone : ∀ s ∈ p'.within, OnePosition s.predicates) (t : Tree) (declared : List Declaration) :
    Agree (p.evaluate t declared) (p'.evaluate t declared) := by
  obtain ⟨source, steps⟩ := p
  obtain ⟨source', steps'⟩ := p'
  obtain ⟨root⟩ := t
  cases root with
  | none => exact agree_self _
  | some root =>
    cases h with
    | none => exact agree_self _
    | some h =>
      simp only [evaluate, Walk.walkFrom, Walk.start_of_reordered h]
      exact (Walk.walk_agree h hone _).bind fun found => agree_self _

/-- Rows of predicates of an accepted path, at any of its steps, may be put in any order: the path
is accepted, with the same steps. Two paths with the same steps, whatever the order of predicates in
them and in the paths of their conditions, return the same results where both return any. -/
theorem evaluate_reordered {path : String} {p : Path.Compiled} (hp : Path.compile path = .ok p) :
    (∀ path', Relation.ReflTransGen Path.Permuted path path' →
      ∃ p', Path.compile path' = .ok p' ∧ p.Reordered p') ∧
    ∀ path' p', Path.compile path' = .ok p' → p.Reordered p' →
      ∀ (t : Tree) (declared : List Declaration) (results results' : List Result),
        p.evaluate t declared = .ok results → p'.evaluate t declared = .ok results' →
        results = results' := by
  constructor
  · intro path' h
    obtain ⟨p', hp', hpermuted⟩ := Path.exists_compile_of_rows h hp
    exact ⟨p', hp', hpermuted.reordered⟩
  · intro path' p' hp' h t declared results results' hresults hresults'
    have hone := Path.one_position_of_compile hp'
    exact Path.Compiled.evaluate_agree h hone t declared results results' hresults hresults'

/-- Two steps with their predicates in another order, one of which has a position. -/
theorem evaluate_reordered_twice :
    let element (name : String) (entries : List (String × String)) (fs : List Fragment) :=
      Fragment.element name (Dictionary.ofList entries) fs
    let t := Tree.ofRoot (element "r" []
      [element "a" [("k", "")] [],
        element "a" [("k", "")] [element "b" [] [], element "c" [("v", "x")] [element "d" [] []],
          element "c" [("v", "y")] []],
        element "a" [] [element "b" [] []]])
    Relation.ReflTransGen Path.Permuted "/a[./b][1][@k]//c[@v][./d]/@v"
      "/a[@k][./b][1]//c[./d][@v]/@v" ∧
    ∃ p p', Path.compile "/a[./b][1][@k]//c[@v][./d]/@v" = .ok p ∧
      Path.compile "/a[@k][./b][1]//c[./d][@v]/@v" = .ok p' ∧ p.Reordered p' ∧
      p.evaluate t [] = .ok [.text "x"] ∧ p'.evaluate t [] = .ok [.text "x"] := by
  intro element t
  have hfirst : Path.Permuted "/a[./b][1][@k]//c[@v][./d]/@v" "/a[@k][./b][1]//c[@v][./d]/@v" :=
    @Path.Permuted.row "/a" "//c[@v][./d]/@v" ["[./b]", "[1]", "[@k]"] ["[@k]", "[./b]", "[1]"]
      ⟨by decide +kernel, by decide +kernel, .inr (by decide +kernel)⟩ (by decide)
  have hsecond : Path.Permuted "/a[@k][./b][1]//c[@v][./d]/@v" "/a[@k][./b][1]//c[./d][@v]/@v" :=
    @Path.Permuted.row "/a[@k][./b][1]//c" "/@v" ["[@v]", "[./d]"] ["[./d]", "[@v]"]
      ⟨by decide +kernel, by decide +kernel, .inr (by decide +kernel)⟩ (by decide)
  have hrows := Relation.ReflTransGen.single hfirst |>.tail hsecond
  have hpath : (Path.compile "/a[./b][1][@k]//c[@v][./d]/@v").toOption.map (fun p =>
      (p.evaluate t []).toOption) = some (some [.text "x"]) := by decide +kernel
  have hpath' : (Path.compile "/a[@k][./b][1]//c[./d][@v]/@v").toOption.map (fun p =>
      (p.evaluate t []).toOption.isSome) = some true := by decide +kernel
  obtain ⟨p, hp, hresults⟩ := Option.map_eq_some_iff.mp hpath
  obtain ⟨p', hp', hsome⟩ := Option.map_eq_some_iff.mp hpath'
  obtain ⟨results, hresults'⟩ := Option.isSome_iff_exists.mp hsome
  rw [toOption_eq_some_iff] at hp hp' hresults hresults'
  obtain ⟨haccepted, hagree⟩ := evaluate_reordered hp
  obtain ⟨p'', hp'', hreordered⟩ := haccepted _ hrows
  obtain rfl : p' = p'' := Except.ok.inj (hp'.symm.trans hp'')
  obtain rfl := hagree _ p' hp' hreordered t [] _ _ hresults hresults'
  exact ⟨hrows, p, p', hp, hp', hreordered, hresults, hresults'⟩

end MarkupTree

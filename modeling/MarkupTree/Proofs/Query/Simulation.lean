import MarkupTree.Proofs.Path.Occurrence
import MarkupTree.Proofs.Query.Subtree

/-!
# Walks over nodes that correspond

A walk learns about a node only what the tests of its steps answer, the attributes that it reads,
the text of the node and its children. So a relation between nodes that no test, reading or text
tells apart, and that passes on to the children, passes on to all that a walk finds: two walks from
related nodes select related nodes in the same order, or fail alike.
-/

set_option autoImplicit false

open MarkupTree.Path

namespace MarkupTree

section Corresponds

variable {ε α β γ δ : Type}

/-- Two computations that both succeed, with related values, or both fail, with related errors. -/
inductive Corresponds (E : ε → ε → Prop) (R : α → β → Prop) : Except ε α → Except ε β → Prop
  | ok {a : α} {b : β} : R a b → Corresponds E R (.ok a) (.ok b)
  | error {e e' : ε} : E e e' → Corresponds E R (.error e) (.error e')

variable {E : ε → ε → Prop} {R : α → β → Prop} {S : γ → δ → Prop}

theorem Corresponds.bind {x : Except ε α} {y : Except ε β} {f : α → Except ε γ}
    {g : β → Except ε δ} (h : Corresponds E R x y)
    (hnext : ∀ a b, R a b → Corresponds E S (f a) (g b)) : Corresponds E S (x >>= f) (y >>= g) := by
  cases h with
  | ok hab => exact hnext _ _ hab
  | error he => exact .error he

theorem corresponds_iff {x : Except ε α} {y : Except ε β} :
    Corresponds E R x y ↔ (∃ e e', x = .error e ∧ y = .error e' ∧ E e e') ∨
      ∃ a b, x = .ok a ∧ y = .ok b ∧ R a b := by
  constructor
  · intro h
    cases h with
    | ok hab => exact .inr ⟨_, _, rfl, rfl, hab⟩
    | error he => exact .inl ⟨_, _, rfl, rfl, he⟩
  · rintro (⟨e, e', rfl, rfl, he⟩ | ⟨a, b, rfl, rfl, hab⟩)
    · exact .error he
    · exact .ok hab

theorem corresponds_self {x : Except ε α} (h : ∀ e, x = .error e → E e e) :
    Corresponds E (· = ·) x x := by
  cases x with
  | ok a => exact .ok rfl
  | error e => exact .error (h e rfl)

end Corresponds

/-- Matches of the same kind at related nodes, with the same value where an attribute is read. -/
inductive Match.Both (R : Node → Node → Prop) : Match → Match → Prop
  | node {n m : Node} : R n m → Match.Both R (.node n) (.node m)
  | reading {n m : Node} {value : String} :
      R n m → Match.Both R (.attribute n value) (.attribute m value)

namespace Walk

section Loops

variable {ε α β γ δ : Type} {E : ε → ε → Prop} {R : α → β → Prop} {S : γ → δ → Prop}

theorem keep_corresponds {p : α → Except ε Bool} {q : β → Except ε Bool}
    (hpq : ∀ x y, R x y → Corresponds E (· = ·) (p x) (q y)) {xs : List α} {ys : List β}
    (h : List.Forall₂ R xs ys) : Corresponds E (List.Forall₂ R) (keep p xs) (keep q ys) := by
  induction h with
  | nil => exact .ok .nil
  | cons hxy _ ih =>
    apply (hpq _ _ hxy).bind
    rintro b _ rfl
    apply ih.bind
    intro more more' hmore
    cases b with
    | true => exact .ok (.cons hxy hmore)
    | false => exact .ok hmore

theorem collect_corresponds {f : α → Except ε (List γ)} {g : β → Except ε (List δ)}
    (hfg : ∀ x y, R x y → Corresponds E (List.Forall₂ S) (f x) (g y)) {xs : List α} {ys : List β}
    (h : List.Forall₂ R xs ys) : Corresponds E (List.Forall₂ S) (collect f xs) (collect g ys) := by
  induction h with
  | nil => exact .ok .nil
  | cons hxy _ ih =>
    apply (hfg _ _ hxy).bind
    intro found found' hfound
    apply ih.bind
    intro more more' hmore
    exact .ok (List.rel_append hfound hmore)

theorem map_eq_map_of_forall₂ {f : α → γ} {g : β → γ} (hfg : ∀ x y, R x y → f x = g y)
    {xs : List α} {ys : List β} (h : List.Forall₂ R xs ys) : xs.map f = ys.map g := by
  induction h with
  | nil => rfl
  | cons hxy _ ih => rw [List.map_cons, List.map_cons, hfg _ _ hxy, ih]

theorem pick_forall₂ (position : Option Nat) {xs : List α} {ys : List β}
    (h : List.Forall₂ R xs ys) : List.Forall₂ R (pick position xs) (pick position ys) := by
  match position with
  | none => exact h
  | some 0 => exact .nil
  | some (n + 1) =>
    induction h generalizing n with
    | nil => exact .nil
    | cons hxy _ ih =>
      cases n with
      | zero => exact .cons hxy .nil
      | succ n => exact ih n

end Loops

/-- A relation between nodes that the admitted steps do not tell apart, each with the declarations
of its own caller. Errors of tests may differ as `E` allows. -/
structure Simulation (declared declared' : List Declaration) (admitted : Step → Prop)
    (E : UnresolvedName → UnresolvedName → Prop) (R : Node → Node → Prop) : Prop where
  passes : ∀ {s n m}, admitted s → R n m →
    Corresponds E (· = ·) (passes declared s.test n) (passes declared' s.test m)
  reads : ∀ {s n m key}, admitted s → s.reads = some key → R n m →
    n.fragment.attributes.get? key = m.fragment.attributes.get? key
  stringValue : ∀ {n m}, R n m → n.fragment.stringValue = m.fragment.stringValue
  children : ∀ {n m}, R n m → List.Forall₂ R n.children m.children

namespace Simulation

variable {declared declared' : List Declaration} {admitted : Step → Prop}
variable {E : UnresolvedName → UnresolvedName → Prop} {R : Node → Node → Prop}

section

variable (sim : Simulation declared declared' admitted E R)
include sim

theorem subtree {n m : Node} (h : R n m) : List.Forall₂ R n.subtree m.subtree := by
  induction n using Node.upward generalizing m with
  | h n ih =>
    rw [Node.subtree_eq_cons_flatMap, Node.subtree_eq_cons_flatMap]
    apply List.Forall₂.cons h
    -- The relation between the children is needed together with their membership.
    have hchildren : List.Forall₂ (fun c c' => c ∈ n.children ∧ R c c') n.children m.children :=
      (List.forall₂_and_left _ _).mpr ⟨fun _ hc => hc, sim.children h⟩
    exact List.rel_flatMap hchildren fun c c' hc => ih c hc.1 hc.2

theorem candidates (descendant : Bool) {nodes nodes' : List Node}
    (h : List.Forall₂ R nodes nodes') :
    List.Forall₂ R (Walk.candidates descendant nodes) (Walk.candidates descendant nodes') := by
  cases descendant with
  | false => exact h
  | true => exact List.rel_flatMap h fun _ _ hnm => sim.subtree hnm

theorem start (steps : List Step) {n m : Node} (h : R n m) :
    List.Forall₂ R (Walk.start steps n) (Walk.start steps m) := by
  unfold Walk.start
  split
  · exact .cons h .nil
  · exact sim.children h

theorem yields {s : Step} (hs : admitted s) {n m : Node} (h : R n m) :
    Option.Rel (Match.Both R) (Walk.yields s.reads n) (Walk.yields s.reads m) := by
  cases hreads : s.reads with
  | none => exact .some (.node h)
  | some key =>
    simp only [Walk.yields, sim.reads hs hreads h]
    cases hget : m.fragment.attributes.get? key with
    | none => exact .none
    | some value => exact .some (.reading h)

theorem stringValue_of_both {x y : Match} (h : Match.Both R x y) :
    x.stringValue = y.stringValue := by
  cases h with
  | node h => exact sim.stringValue h
  | reading => rfl

theorem selected {s : Step} (hs : admitted s)
    (hpredicates : ∀ n m, R n m →
      Corresponds E (· = ·) (holdAll declared s.predicates n) (holdAll declared' s.predicates m))
    {nodes nodes' : List Node} (h : List.Forall₂ R nodes nodes') :
    Corresponds E (List.Forall₂ R) (Walk.selected declared s nodes)
      (Walk.selected declared' s nodes') := by
  apply (keep_corresponds (R := R) ?_ (sim.candidates s.descendant h)).bind
  · intro kept kept' hkept
    exact .ok (pick_forall₂ s.position? hkept)
  · intro n m hnm
    apply (sim.passes hs hnm).bind
    rintro b _ rfl
    cases b with
    | true => exact hpredicates n m hnm
    | false => exact .ok rfl

end

mutual

theorem walk (sim : Simulation declared declared' admitted E R) :
    ∀ (steps : List Step), (∀ s ∈ stepsWithin steps, admitted s) →
    ∀ {nodes nodes' : List Node}, List.Forall₂ R nodes nodes' →
      Corresponds E (List.Forall₂ (Match.Both R)) (Walk.walk declared steps nodes)
        (Walk.walk declared' steps nodes')
  | [], _, _, _, _ => by
    rw [Walk.walk, Walk.walk]
    exact .ok .nil
  | ⟨descendant, test, reads, predicates⟩ :: rest, hsteps, nodes, nodes', h => by
    obtain ⟨hs, hpredicates, hrest⟩ := forall_stepsWithin_cons.mp hsteps
    rw [walk_cons, walk_cons]
    apply (sim.selected hs (fun n m => holdAll sim predicates hpredicates) h).bind
    intro picked picked' hpicked
    split
    · exact .ok (List.rel_filterMap (fun _ _ hnm => sim.yields hs hnm) hpicked)
    · apply collect_corresponds ?_ hpicked
      intro n m hnm
      exact walk sim rest hrest (sim.children hnm)

theorem holdAll (sim : Simulation declared declared' admitted E R) :
    ∀ (ps : List Predicate), (∀ s ∈ predicatesWithin ps, admitted s) →
    ∀ {n m : Node}, R n m →
      Corresponds E (· = ·) (Walk.holdAll declared ps n) (Walk.holdAll declared' ps m)
  | [], _, _, _, _ => by
    rw [Walk.holdAll, Walk.holdAll]
    exact .ok rfl
  | .position _ :: rest, hps, _, _, h => by
    rw [Walk.holdAll, Walk.holdAll]
    exact holdAll sim rest (forall_predicatesWithin_position.mp hps) h
  | .condition _ test :: rest, hps, _, _, h => by
    obtain ⟨htest, hrest⟩ := forall_predicatesWithin_condition.mp hps
    rw [Walk.holdAll, Walk.holdAll]
    apply (holds sim test htest h).bind
    rintro b _ rfl
    cases b with
    | true => exact holdAll sim rest hrest h
    | false => exact .ok rfl

theorem holds (sim : Simulation declared declared' admitted E R) :
    ∀ (c : Condition), (∀ s ∈ conditionWithin c, admitted s) →
    ∀ {n m : Node}, R n m →
      Corresponds E (· = ·) (Walk.holds declared c n) (Walk.holds declared' c m)
  | .compare lhs op rhs, hc, _, _, h => by
    obtain ⟨hlhs, hrhs⟩ := forall_conditionWithin_compare.mp hc
    rw [Walk.holds, Walk.holds]
    apply (value sim lhs hlhs h).bind
    rintro left _ rfl
    apply (value sim rhs hrhs h).bind
    rintro right _ rfl
    exact .ok rfl
  | .present steps, hc, _, _, h => by
    rw [Walk.holds, Walk.holds]
    apply (walk sim steps hc (sim.start steps h)).bind
    intro found found' hfound
    cases hfound with
    | nil => exact .ok rfl
    | cons => exact .ok rfl

theorem value (sim : Simulation declared declared' admitted E R) :
    ∀ (o : Operand), (∀ s ∈ operandWithin o, admitted s) →
    ∀ {n m : Node}, R n m →
      Corresponds E (· = ·) (Walk.value declared o n) (Walk.value declared' o m)
  | .literal _, _, _, _, _ => by
    rw [Walk.value, Walk.value]
    exact .ok rfl
  | .path steps, ho, _, _, h => by
    rw [Walk.value, Walk.value]
    apply (walk sim steps ho (sim.start steps h)).bind
    intro found found' hfound
    cases hfound with
    | nil => exact .ok rfl
    | cons hxy => exact .ok (sim.stringValue_of_both hxy)

end

theorem walkFrom (sim : Simulation declared declared' admitted E R) {steps : List Step}
    (hsteps : ∀ s ∈ stepsWithin steps, admitted s) {n m : Node} (h : R n m) :
    Corresponds E (List.Forall₂ (Match.Both R)) (Walk.walkFrom declared steps n)
      (Walk.walkFrom declared' steps m) :=
  sim.walk steps hsteps (sim.start steps h)

theorem found (sim : Simulation declared declared' admitted E R) {p : Compiled}
    (hp : ∀ s ∈ p.within, admitted s) {root root' : Fragment}
    (h : R (Node.ofRoot root) (Node.ofRoot root')) :
    Corresponds E (List.Forall₂ (Match.Both R)) (p.found (Tree.ofRoot root) declared)
      (p.found (Tree.ofRoot root') declared') := by
  obtain ⟨source, steps⟩ := p
  cases steps with
  | none => exact .ok (.cons (.node h) .nil)
  | some steps => exact sim.walkFrom hp h

end Simulation

end Walk

section

variable {R : Node → Node → Prop} {p : Compiled} {t u : Tree}
  {declared declared' : List Declaration}
variable {found found' : List Match}

theorem Path.Compiled.answers_of_both (haddress : ∀ {n m}, R n m → n.address = m.address)
    (htext : ∀ {n m}, R n m → n.fragment.stringValue = m.fragment.stringValue)
    (ht : p.found t declared = .ok found) (hu : p.found u declared' = .ok found')
    (hboth : List.Forall₂ (Match.Both R) found found') :
    p.evaluate t declared = .ok (found.map (p.present t)) ∧
      p.evaluate u declared' = .ok (found'.map (p.present u)) ∧
      found.map (·.origin.address) = found'.map (·.origin.address) ∧
      (found.map (p.present t)).map Result.stringValue =
        (found'.map (p.present u)).map Result.stringValue := by
  have hplace : found.map (·.origin.address) = found'.map (·.origin.address) := by
    apply Walk.map_eq_map_of_forall₂ ?_ hboth
    intro x y hxy
    cases hxy with
    | node hnm => exact haddress hnm
    | reading hnm => exact haddress hnm
  have hvalue : found.map Match.stringValue = found'.map Match.stringValue := by
    apply Walk.map_eq_map_of_forall₂ ?_ hboth
    intro x y hxy
    cases hxy with
    | node hnm => exact htext hnm
    | reading => rfl
  refine ⟨?_, ?_, hplace, ?_⟩
  · rw [evaluate_eq, ht]
    rfl
  · rw [evaluate_eq, hu]
    rfl
  · rw [map_stringValue_present ht, map_stringValue_present hu, hvalue]

end

end MarkupTree

import MarkupTree.Path.Parse

/-!
# What occurs in a path

The steps of a path together with those of all paths in its conditions, at any depth. A path tests
for the names and reads the attributes that occur in one of them.
-/

set_option autoImplicit false

namespace MarkupTree.Path

mutual

def stepsWithin : List Step → List Step
  | [] => []
  | ⟨descendant, test, reads, predicates⟩ :: rest =>
    ⟨descendant, test, reads, predicates⟩ :: (predicatesWithin predicates ++ stepsWithin rest)

def predicatesWithin : List Predicate → List Step
  | [] => []
  | .position _ :: rest => predicatesWithin rest
  | .condition _ test :: rest => conditionWithin test ++ predicatesWithin rest

def conditionWithin : Condition → List Step
  | .compare lhs _ rhs => operandWithin lhs ++ operandWithin rhs
  | .present steps => stepsWithin steps

def operandWithin : Operand → List Step
  | .path steps => stepsWithin steps
  | .literal _ => []

end

section

variable {P : Step → Prop}

theorem forall_stepsWithin_cons {s : Step} {rest : List Step} :
    (∀ s' ∈ stepsWithin (s :: rest), P s') ↔
      P s ∧ (∀ s' ∈ predicatesWithin s.predicates, P s') ∧ ∀ s' ∈ stepsWithin rest, P s' := by
  obtain ⟨descendant, test, reads, predicates⟩ := s
  rw [stepsWithin, List.forall_mem_cons, List.forall_mem_append]

theorem forall_predicatesWithin_position {n : Nat} {rest : List Predicate} :
    (∀ s ∈ predicatesWithin (.position n :: rest), P s) ↔ ∀ s ∈ predicatesWithin rest, P s := by
  rw [predicatesWithin]

theorem forall_predicatesWithin_condition {source : String} {test : Condition}
    {rest : List Predicate} :
    (∀ s ∈ predicatesWithin (.condition source test :: rest), P s) ↔
      (∀ s ∈ conditionWithin test, P s) ∧ ∀ s ∈ predicatesWithin rest, P s := by
  rw [predicatesWithin, List.forall_mem_append]

theorem forall_conditionWithin_compare {lhs rhs : Operand} {op : Comparison} :
    (∀ s ∈ conditionWithin (.compare lhs op rhs), P s) ↔
      (∀ s ∈ operandWithin lhs, P s) ∧ ∀ s ∈ operandWithin rhs, P s := by
  rw [conditionWithin, List.forall_mem_append]

end

namespace Compiled

/-- All steps of a path; the empty path has none. -/
def within (p : Compiled) : List Step := stepsWithin (p.steps.getD [])

/-- The attributes that a path reads somewhere. -/
def keysRead (p : Compiled) : List String := p.within.filterMap Step.reads

/-- The names that a path tests for somewhere. -/
def namesTested (p : Compiled) : List String :=
  p.within.filterMap fun s => match s.test with
    | .name name => some name
    | _ => none

theorem mem_keysRead {p : Compiled} {key : String} :
    key ∈ p.keysRead ↔ ∃ s ∈ p.within, s.reads = some key := List.mem_filterMap

theorem mem_namesTested {p : Compiled} {name : String} :
    name ∈ p.namesTested ↔ ∃ s ∈ p.within, s.test = .name name := by
  rw [namesTested, List.mem_filterMap]
  constructor
  · rintro ⟨s, hs, h⟩
    split at h
    · next htest =>
      cases h
      exact ⟨s, hs, htest⟩
    · cases h
  · rintro ⟨s, hs, h⟩
    exact ⟨s, hs, by rw [h]⟩

end Compiled

end MarkupTree.Path

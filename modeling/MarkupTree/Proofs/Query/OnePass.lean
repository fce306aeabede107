import MarkupTree.Proofs.Query.Selection

/-!
# The walk as one pass over the tree

A walk first collects all that a step selects and only then looks below. The recursion here does
both at once: at every fragment it follows a match to the end of the path before it goes on, first
below the fragment and then beside it. Without positions the two find the same matches in the same
order. They evaluate the same tests in different orders, so they fail together, but not always for
the same reason.
-/

set_option autoImplicit false

open MarkupTree.Path

namespace MarkupTree.Walk

theorem sizeOf_children_lt (f : Fragment) (fs : List Fragment) :
    sizeOf f.children < sizeOf (f :: fs) := by
  cases f with
  | element =>
    simp only [Fragment.children, List.cons.sizeOf_spec, Fragment.element.sizeOf_spec]
    omega
  | text =>
    simp only [Fragment.children, List.cons.sizeOf_spec, Fragment.text.sizeOf_spec,
      List.nil.sizeOf_spec]
    omega

theorem sizeOf_rest_lt (f : Fragment) (fs : List Fragment) : sizeOf fs < sizeOf (f :: fs) := by
  simp only [List.cons.sizeOf_spec]
  omega

variable (declared : List Declaration)

/-- The matches of a path among fragments that stand side by side in a scope, the first of them at
`index` below `address`. -/
def onePass : List Step → List Nat → Scope → Nat → List Fragment →
    Except UnresolvedName (List Match)
  | [], _, _, _, _ => .ok []
  | _ :: _, _, _, _, [] => .ok []
  | s :: rest, address, outer, index, f :: fs => do
    let n : Node := ⟨address ++ [index], f, outer.enter f⟩
    let own ← (do
      if ← admits declared s n then
        if rest.isEmpty then .ok (yields s.reads n).toList
        else onePass rest n.address n.scope 0 f.children
      else .ok [])
    let below ← (
      if s.descendant then onePass (s :: rest) n.address n.scope 0 f.children else .ok [])
    let beside ← onePass (s :: rest) address outer (index + 1) fs
    .ok (own ++ below ++ beside)
termination_by steps _ _ _ fs => (steps.length, sizeOf fs)
decreasing_by
  · exact Prod.Lex.left _ _ (Nat.lt_succ_self _)
  · exact Prod.Lex.right _ (sizeOf_children_lt f fs)
  · exact Prod.Lex.right _ (sizeOf_rest_lt f fs)

theorem candidates_siblings_cons (descendant : Bool) (address : List Nat) (outer : Scope)
    (index : Nat) (f : Fragment) (fs : List Fragment) :
    candidates descendant (Node.siblings address outer index (f :: fs)) =
      ⟨address ++ [index], f, outer.enter f⟩ ::
        ((if descendant then candidates descendant
            (Node.siblings (address ++ [index]) (outer.enter f) 0 f.children) else []) ++
          candidates descendant (Node.siblings address outer (index + 1) fs)) := by
  cases descendant with
  | false => simp [candidates, Node.siblings]
  | true =>
    simp only [candidates, Node.siblings, List.flatMap_cons, Node.subtree_eq_cons_flatMap,
      Node.children, List.cons_append, reduceIte]

def atNode (s : Step) (rest : List Step) (n : Node) : Except UnresolvedName (List Match) := do
  if ← admits declared s n then onward declared s rest n else .ok []

theorem walk_cons_eq_collect_atNode {s : Step} (hs : s.position? = none) (rest : List Step)
    (nodes : List Node) :
    (walk declared (s :: rest) nodes).toOption =
      (collect (atNode declared s rest) (candidates s.descendant nodes)).toOption := by
  have hsel : selected declared s nodes =
      keep (admits declared s) (candidates s.descendant nodes) := by
    unfold selected
    rw [hs]
    cases keep (admits declared s) (candidates s.descendant nodes) <;> rfl
  rw [walk_cons_eq_collect, hsel, keep_collect]
  rfl

/-- One step, when one pass is known to find what a walk finds by the steps after it. The induction
is on the tree: below a fragment and beside it the same step goes on. -/
theorem onePass_cons (s : Step) (rest : List Step)
    (hrest : ∀ address outer index fs,
      (onePass declared rest address outer index fs).toOption =
        (walk declared rest (Node.siblings address outer index fs)).toOption) :
    ∀ (address : List Nat) (outer : Scope) (index : Nat) (fs : List Fragment),
      (onePass declared (s :: rest) address outer index fs).toOption =
        (collect (atNode declared s rest)
          (candidates s.descendant (Node.siblings address outer index fs))).toOption
  | address, outer, index, [] => by
    rw [onePass]
    cases s.descendant <;> rfl
  | address, outer, index, f :: fs => by
    have hown : (do
          if ← admits declared s ⟨address ++ [index], f, outer.enter f⟩ then
            if rest.isEmpty then
              .ok (yields s.reads ⟨address ++ [index], f, outer.enter f⟩).toList
            else onePass declared rest (address ++ [index]) (outer.enter f) 0 f.children
          else .ok [] : Except UnresolvedName (List Match)).toOption =
        (atNode declared s rest ⟨address ++ [index], f, outer.enter f⟩).toOption := by
      unfold atNode onward
      cases admits declared s ⟨address ++ [index], f, outer.enter f⟩ with
      | error e => rfl
      | ok b =>
        cases b
        · rfl
        · cases rest with
          | nil => rfl
          | cons => exact hrest _ _ _ _
    have hbelow : s.descendant = true →
        (onePass declared (s :: rest) (address ++ [index]) (outer.enter f) 0
          f.children).toOption = _ :=
      fun _ => onePass_cons s rest hrest (address ++ [index]) (outer.enter f) 0 f.children
    have hbeside := onePass_cons s rest hrest address outer (index + 1) fs
    rw [onePass, candidates_siblings_cons]
    simp only [collect, toOption_bind, collect_append, toOption_ok] at hown ⊢
    rw [hown, hbeside]
    cases hd : s.descendant with
    | false =>
      simp only [Bool.false_eq_true, if_false, collect, toOption_ok, Option.bind_some,
        List.append_nil, List.nil_append]
      cases (atNode declared s rest _).toOption <;> simp
    | true =>
      rw [hd] at hbelow
      simp only [reduceIte, hbelow rfl]
      cases (atNode declared s rest _).toOption with
      | none => rfl
      | some own =>
        cases (collect _ _).toOption with
        | none => rfl
        | some below =>
          cases (collect _ _).toOption <;> simp
termination_by _ _ _ fs => sizeOf fs
decreasing_by
  · exact sizeOf_children_lt f fs
  · exact sizeOf_rest_lt f fs

theorem onePass_toOption (steps : List Step) (hpos : ∀ s ∈ steps, s.position? = none)
    (address : List Nat) (outer : Scope) (index : Nat) (fs : List Fragment) :
    (onePass declared steps address outer index fs).toOption =
      (walk declared steps (Node.siblings address outer index fs)).toOption := by
  induction steps generalizing address outer index fs with
  | nil =>
    rw [onePass]
    rfl
  | cons s rest ih =>
    rw [List.forall_mem_cons] at hpos
    rw [walk_cons_eq_collect_atNode declared hpos.1]
    exact onePass_cons declared s rest (ih hpos.2) address outer index fs

/-- Without positions of its own, a path finds by the walk exactly what it finds in one pass. -/
theorem walk_refines_onePass {steps : List Step} (hpos : ∀ s ∈ steps, s.position? = none)
    (address : List Nat) (outer : Scope) (index : Nat) (fs : List Fragment)
    (found : List Match) :
    walk declared steps (Node.siblings address outer index fs) = .ok found ↔
      onePass declared steps address outer index fs = .ok found :=
  toOption_eq_iff.mp (onePass_toOption declared steps hpos address outer index fs).symm found

/-- `//*[*[2]]/*`, with an inner and an outer match of the first step and a position in its
condition: the children of the outer one come first. -/
theorem walk_refines_onePass_nested :
    let leaf (name : String) := Fragment.element name Dictionary.empty []
    let inner := Fragment.element "b" Dictionary.empty [leaf "c", leaf "d"]
    let fs := [Fragment.element "a" Dictionary.empty [inner, leaf "e"]]
    let second : Step := ⟨false, .any, none, [.position 2]⟩
    let steps : List Step :=
      [⟨true, .any, none, [.condition "*[2]" (.present [second])]⟩, ⟨false, .any, none, []⟩]
    (∀ s ∈ steps, s.position? = none) ∧
      ∃ found, onePass [] steps [] Scope.empty 0 fs = .ok found ∧
        found.map (·.origin.address) = [[0, 0], [0, 1], [0, 0, 0], [0, 0, 1]] := by
  intro leaf inner fs second steps
  have hpos : ∀ s ∈ steps, s.position? = none := by decide
  exact ⟨hpos, _, (walk_refines_onePass [] hpos [] Scope.empty 0 fs _).mp rfl, rfl⟩

end MarkupTree.Walk

import Mathlib.Data.List.Perm.Basic
import MarkupTree.Proofs.Path.Spelling

/-!
# Rows of predicates

A written path is the texts of its segments one after the other, and the text of a step is its test
and a row of brackets. So the row of a step can be exchanged for another one, and the path is read
as before, with the other brackets in the place of the old. What the path is folded into changes in
the predicates of that step only, and which predicates a row means does not depend on its order.
-/

set_option autoImplicit false

namespace MarkupTree

theorem forall₂_append_left_iff {α β : Type} {R : α → β → Prop} {xs ys : List α} {zs : List β} :
    List.Forall₂ R (xs ++ ys) zs ↔
      ∃ us vs, List.Forall₂ R xs us ∧ List.Forall₂ R ys vs ∧ zs = us ++ vs := by
  constructor
  · intro h
    induction xs generalizing zs with
    | nil => exact ⟨[], zs, .nil, h, rfl⟩
    | cons x xs ih =>
      obtain ⟨z, zs, hx, hzs, rfl⟩ := List.forall₂_cons_left_iff.mp h
      obtain ⟨us, vs, hus, hvs, rfl⟩ := ih hzs
      exact ⟨z :: us, vs, .cons hx hus, hvs, rfl⟩
  · rintro ⟨us, vs, hus, hvs, rfl⟩
    exact List.rel_append hus hvs

theorem exists_of_mem_right {α β : Type} {R : α → β → Prop} {xs : List α} {ys : List β}
    (h : List.Forall₂ R xs ys) {y : β} (hy : y ∈ ys) : ∃ x ∈ xs, R x y := by
  obtain ⟨before, after, rfl⟩ := List.append_of_mem hy
  obtain ⟨us, vs, -, hvs, rfl⟩ := forall₂_append_left_iff.mp h.flip
  obtain ⟨x, vs, hx, -, rfl⟩ := List.forall₂_cons_left_iff.mp hvs
  exact ⟨x, by simp, hx⟩

namespace Path

namespace Surface

theorem from_of_separated {n : Nat} {w : List Char} {seg : Segment}
    (h : Reads (separated (condition n)) seg w) : seg.From w := by
  obtain ⟨d, k, hk, rfl⟩ := text_of_separated (condition_consumes n) h
  rcases text_of_segment (condition_consumes n) hk with ⟨name, rfl, hname, rfl⟩ | ⟨rfl, rfl⟩ |
    ⟨test, bs, ws, rfl, htest, hws, rfl⟩
  · exact .ofAttribute d hname
  · exact .ofSelf d
  · refine .ofStep d htest (hws.imp ?_)
    rintro b w ⟨v, hread⟩
    exact Bracket.from_of_bracket hread

theorem ofPath?_flatten {segs : List Segment} {ws : List (List Char)}
    (h : List.Forall₂ Segment.From segs ws) (hne : segs ≠ []) : ofPath? ws.flatten = some segs := by
  induction h with
  | nil => exact absurd rfl hne
  | @cons seg w segs ws hw hws ih =>
    rw [List.flatten_cons]
    cases segs with
    | nil =>
      cases hws
      rw [List.flatten_nil, List.append_nil]
      exact hw.ofPath?
    | cons => exact ofPath?_append hw.ofPath? (ih (List.cons_ne_nil _ _))

/-- A text is read as these segments exactly if it is texts of theirs, one after the other. -/
theorem ofPath?_eq_some_iff {cs : List Char} {segs : List Segment} :
    ofPath? cs = some segs ↔
      segs ≠ [] ∧ ∃ ws, cs = ws.flatten ∧ List.Forall₂ Segment.From segs ws := by
  constructor
  · intro h
    obtain ⟨hne, hrun⟩ := ofPath?_eq_some.mp h
    obtain ⟨ws, hcs, hws⟩ :=
      repeated_reads (separated_consumes (conditionOf_consumes cs)) hrun
    rw [List.append_nil] at hcs
    exact ⟨hne, ws, hcs, hws.imp fun _ _ => from_of_separated⟩
  · rintro ⟨hne, ws, rfl, hws⟩
    exact ofPath?_flatten hws hne

theorem ofPath?_row {cs : List Char} {segs : List Segment} {d : Bool} {test : NameTest}
    {bs more : List Bracket} {ws : List (List Char)}
    (h : ofPath? cs = some (segs ++ [.step d test bs])) (hws : List.Forall₂ Bracket.From more ws) :
    ofPath? (cs ++ ws.flatten) = some (segs ++ [.step d test (bs ++ more)]) := by
  obtain ⟨-, texts, rfl, htexts⟩ := ofPath?_eq_some_iff.mp h
  obtain ⟨front, last, hfront, hlast, rfl⟩ := forall₂_append_left_iff.mp htexts
  obtain ⟨w, _, hw, hnil, rfl⟩ := List.forall₂_cons_left_iff.mp hlast
  cases hnil
  cases hw with
  | @ofStep _ _ _ row htest hrow =>
    have hmore : List.Forall₂ Segment.From (segs ++ [.step d test (bs ++ more)]) (front ++ [_]) :=
      List.rel_append hfront (.cons (.ofStep d htest (List.rel_append hrow hws)) .nil)
    have hread := ofPath?_flatten hmore (by simp)
    simpa using hread

end Surface

open Surface

/-- The text has the form of a path. -/
def HasForm (text : String) : Bool := (ofPath? text.toList).isSome

/-- The last segment of the path is a step, so that predicates may follow. -/
def EndsInStep (path : String) : Bool := (lastSegment? path).any Segment.isStep

/-- The text is one predicate with its brackets. -/
def IsPredicate (text : String) : Bool :=
  (whole (bracket (conditionOf text.toList)) text.toList).isSome

/-- The parts of a path at one of its steps: the path up to the step and perhaps some predicates of
it, more predicates of it, and the path behind it. -/
structure AtStep (before : String) (row : List String) (after : String) : Prop where
  before : EndsInStep before
  row : ∀ text ∈ row, IsPredicate text
  after : after = "" ∨ HasForm after

theorem exists_from {row : List String} (h : ∀ text ∈ row, IsPredicate text) :
    ∃ bs, List.Forall₂ Bracket.From bs (row.map String.toList) := by
  induction row with
  | nil => exact ⟨[], .nil⟩
  | cons text row ih =>
    rw [List.forall_mem_cons] at h
    obtain ⟨b, hb⟩ := Option.isSome_iff_exists.mp h.1
    obtain ⟨bs, hbs⟩ := ih h.2
    rw [whole_eq_some] at hb
    have hread : bracket (condition (text.toList.length + 1)) (text.toList ++ []) =
        some (b, []) := by
      rw [List.append_nil]
      exact hb
    exact ⟨b :: bs, .cons (Bracket.from_of_bracket hread) hbs⟩

theorem toList_atStep (before : String) (row : List String) (after : String) :
    (before ++ String.join row ++ after).toList =
      before.toList ++ (row.map String.toList).flatten ++ after.toList := by
  simp [String.toList_join, List.flatMap_def]

theorem AtStep.exists_segments {before after : String} {row : List String}
    (h : AtStep before row after) :
    ∃ segs d test bs segs', ofPath? before.toList = some (segs ++ [.step d test bs]) ∧
      ∀ {more row'}, List.Forall₂ Bracket.From more (row'.map String.toList) →
        ofPath? (before ++ String.join row' ++ after).toList =
          some (segs ++ .step d test (bs ++ more) :: segs') := by
  obtain ⟨hbefore, -, hafter⟩ := h
  obtain ⟨last, hlast, hstep⟩ := Option.any_eq_true _ _ |>.mp hbefore
  obtain ⟨d, test, bs, rfl⟩ := Segment.exists_of_isStep hstep
  obtain ⟨all, hall, hlast⟩ := Option.bind_eq_some_iff.mp hlast
  obtain ⟨segs, rfl⟩ := List.getLast?_eq_some_iff.mp hlast
  obtain ⟨segs', hsegs'⟩ : ∃ segs', after = "" ∧ segs' = [] ∨
      ofPath? after.toList = some segs' := by
    rcases hafter with hafter | hafter
    · exact ⟨[], .inl ⟨hafter, rfl⟩⟩
    · obtain ⟨segs', hsegs'⟩ := Option.isSome_iff_exists.mp hafter
      exact ⟨segs', .inr hsegs'⟩
  refine ⟨segs, d, test, bs, segs', hall, ?_⟩
  intro more row' hmore
  have hrow := ofPath?_row hall hmore
  rw [toList_atStep]
  rcases hsegs' with ⟨rfl, rfl⟩ | hsegs'
  · rw [String.toList_empty, List.append_nil, hrow]
  · rw [ofPath?_append hrow hsegs', List.append_assoc, List.singleton_append]

theorem AtStep.ne_empty {before after : String} {row : List String} (h : AtStep before row after)
    (row' : List String) : before ++ String.join row' ++ after ≠ "" := by
  intro hempty
  have hbefore := h.before
  rw [(String.append_eq_empty_iff.mp (String.append_eq_empty_iff.mp hempty).1).1] at hbefore
  cases hbefore

/-- The steps of a path around the step, with any row of predicates. Up to the step they are those of
the path that ends there. -/
theorem AtStep.exists_steps {before after : String} {row : List String} {p : Compiled}
    (h : AtStep before row after) (hp : compile (before ++ String.join row ++ after) = .ok p) :
    ∃ bs new front s rest, List.Forall₂ Bracket.From new (row.map String.toList) ∧
      p.steps = some (front ++ s :: rest) ∧ predicates false (bs ++ new) = .ok s.predicates ∧
      (∀ {more row'}, List.Forall₂ Bracket.From more (row'.map String.toList) →
        compile (before ++ String.join row' ++ after) =
          ((predicates false (bs ++ more)).map fun ps =>
            ⟨before ++ String.join row' ++ after,
              some (front ++ { s with predicates := ps } :: rest)⟩).mapError
                (⟨before ++ String.join row' ++ after, ·⟩)) ∧
      ∀ found, parse before = .ok found → ∃ s', found = front ++ [s'] := by
  obtain ⟨new, hnew⟩ := exists_from h.row
  obtain ⟨segs, d, test, bs, segs', hbefore, hsegs⟩ := h.exists_segments
  obtain ⟨found, hparse, rfl⟩ := (compile_eq_ok (h.ne_empty row)).mp hp
  obtain ⟨_, hread, hsteps, -⟩ := parse_eq_ok.mp hparse
  rw [hsegs hnew] at hread
  cases hread
  obtain ⟨front, s, rest, rfl, hps, hothers, hfront⟩ := steps_at hsteps
  refine ⟨bs, new, front, s, rest, hnew, rfl, hps, ?_, ?_⟩
  · intro more row' hmore
    rw [compile_eq_map (h.ne_empty row'), parse, hsegs hmore]
    simp only [hothers]
    cases predicates false (bs ++ more) with
    | error reason => rfl
    | ok ps =>
      obtain ⟨first, after', hcons⟩ :=
        List.exists_cons_of_ne_nil (List.append_ne_nil_of_right_ne_nil front
          (List.cons_ne_nil { s with predicates := ps } rest))
      simp only [Except.map, hcons]
      rfl
  · intro found hfound
    obtain ⟨_, hread, hsteps', -⟩ := parse_eq_ok.mp hfound
    rw [hbefore] at hread
    cases hread
    exact hfront bs found hsteps'

theorem from_position (n : Nat) :
    (Bracket.position n.repr).From ("[" ++ n.repr ++ "]").toList := by
  have h := from_of_writtenAs (position_writtenAs n)
  simpa [enclosed, Predicate.display] using h

theorem predicates_perm {positioned : Bool} {bs bs' : List Bracket} {ps : List Predicate}
    (h : predicates positioned bs = .ok ps) (hperm : bs.Perm bs') :
    ∃ ps', predicates positioned bs' = .ok ps' ∧ ps.Perm ps' := by
  obtain ⟨hall, hcount⟩ := predicates_eq_ok_iff.mp h
  obtain ⟨ps', hall', hps⟩ := List.perm_comp_forall₂ hperm.symm hall
  have hlength := (hps.filterMap Predicate.position?).length_eq
  refine ⟨ps', predicates_eq_ok_iff.mpr ⟨hall', ?_⟩, hps.symm⟩
  omega

theorem predicates_out_of_range {bs bs' : List Bracket} {ps : List Predicate} {digits : String}
    (h : List.Forall₂ Bracket.Means bs ps) (hnone : ps.filterMap Predicate.position? = [])
    (hrange : maxPosition < Decimal.ofDigits digits.toList) :
    predicates false (bs ++ .position digits :: bs') = .error (.positionOutOfRange digits) := by
  induction h with
  | nil =>
    rw [List.nil_append, predicates]
    simp only [hrange, if_true]
  | @cons b p bs ps hp _ ih =>
    cases b with
    | position =>
      obtain ⟨-, rfl⟩ := hp
      cases hnone
    | condition written =>
      obtain ⟨meaning, hmeaning, rfl⟩ := hp
      rw [List.cons_append, predicates, hmeaning]
      change predicates false (bs ++ .position digits :: bs') >>= _ = _
      rw [ih hnone]
      rfl

theorem predicates_insert {bs bs' : List Bracket} {ps : List Predicate}
    (h : predicates false (bs ++ bs') = .ok ps) (hnone : ps.filterMap Predicate.position? = []) :
    ∃ front rest, ps = front ++ rest ∧ ∀ digits,
      predicates false (bs ++ .position digits :: bs') =
        if maxPosition < Decimal.ofDigits digits.toList then .error (.positionOutOfRange digits)
        else .ok (front ++ .position (Decimal.ofDigits digits.toList) :: rest) := by
  obtain ⟨hall, -⟩ := predicates_eq_ok_iff.mp h
  obtain ⟨front, rest, hfront, hrest, rfl⟩ := forall₂_append_left_iff.mp hall
  rw [List.filterMap_append, List.append_eq_nil_iff] at hnone
  refine ⟨front, rest, rfl, ?_⟩
  intro digits
  by_cases hrange : maxPosition < Decimal.ofDigits digits.toList
  · rw [if_pos hrange, predicates_out_of_range hfront hnone.1 hrange]
  · rw [if_neg hrange]
    have hposition : Bracket.Means (.position digits)
        (.position (Decimal.ofDigits digits.toList)) := ⟨by omega, rfl⟩
    apply predicates_eq_ok_iff.mpr
    refine ⟨List.rel_append hfront (.cons hposition hrest), ?_⟩
    rw [List.filterMap_append, hnone.1, List.nil_append,
      List.filterMap_cons_some (f := Predicate.position?) rfl, hnone.2]
    exact Nat.le_refl 1

end Path

end MarkupTree

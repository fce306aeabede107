import Mathlib.Data.List.Forall2
import MarkupTree.Query.Result

/-!
# Selections

A walk is a selection by its first step followed by what the other steps make of every selected
node. This module gives the selection a name, says when the two loops of a walk succeed, and
separates what a query finds from how it presents it. It says nothing about single tests.
-/

set_option autoImplicit false

open MarkupTree.Path

namespace MarkupTree

section Success

variable {ε α β : Type}

theorem bind_eq_ok_iff {x : Except ε α} {f : α → Except ε β} {b : β} :
    x >>= f = .ok b ↔ ∃ a, x = .ok a ∧ f a = .ok b := by
  cases x with
  | error e => exact ⟨nofun, fun ⟨_, h, _⟩ => nomatch h⟩
  | ok a => exact ⟨fun h => ⟨a, rfl, h⟩, fun ⟨_, ha, h⟩ => by cases ha; exact h⟩

theorem map_eq_ok_iff {x : Except ε α} {f : α → β} {b : β} :
    x.map f = .ok b ↔ ∃ a, x = .ok a ∧ f a = b := by
  cases x with
  | error e => exact ⟨nofun, fun ⟨_, h, _⟩ => nomatch h⟩
  | ok a => exact ⟨fun h => ⟨a, rfl, Except.ok.inj h⟩, fun ⟨_, ha, h⟩ => by cases ha; cases h; rfl⟩

theorem toOption_eq_some_iff {x : Except ε α} {a : α} : x.toOption = some a ↔ x = .ok a := by
  cases x <;> simp [Except.toOption]

theorem toOption_eq_iff {x y : Except ε α} :
    x.toOption = y.toOption ↔ ∀ a, x = .ok a ↔ y = .ok a := by
  simp only [← toOption_eq_some_iff]
  exact Option.ext_iff

@[simp] theorem toOption_ok (a : α) : (Except.ok a : Except ε α).toOption = some a := rfl

@[simp] theorem toOption_error (e : ε) : (Except.error e : Except ε α).toOption = none := rfl

@[simp] theorem toOption_bind (x : Except ε α) (f : α → Except ε β) :
    (x >>= f).toOption = x.toOption.bind fun a => (f a).toOption := by
  cases x <;> rfl

end Success

namespace Walk

section Loops

variable {ε α β : Type}

theorem keep_sublist {p : α → Except ε Bool} {xs kept : List α} (h : keep p xs = .ok kept) :
    kept.Sublist xs := by
  induction xs generalizing kept with
  | nil =>
    cases h
    exact .slnil
  | cons x rest ih =>
    obtain ⟨b, _, h⟩ := bind_eq_ok_iff.mp h
    obtain ⟨more, hmore, h⟩ := bind_eq_ok_iff.mp h
    cases h
    cases b with
    | true => exact (ih hmore).cons_cons x
    | false => exact (ih hmore).cons x

theorem keep_eq_ok_iff {p : α → Except ε Bool} {xs kept : List α} :
    keep p xs = .ok kept ↔
      ∃ answer : α → Bool, (∀ x ∈ xs, p x = .ok (answer x)) ∧ kept = xs.filter answer := by
  constructor
  · intro h
    refine ⟨fun x => (p x).toOption.getD false, ?_⟩
    induction xs generalizing kept with
    | nil =>
      cases h
      exact ⟨nofun, rfl⟩
    | cons x rest ih =>
      obtain ⟨b, hb, h⟩ := bind_eq_ok_iff.mp h
      obtain ⟨more, hmore, h⟩ := bind_eq_ok_iff.mp h
      cases h
      obtain ⟨hall, rfl⟩ := ih hmore
      refine ⟨List.forall_mem_cons.mpr ⟨by simp [hb], hall⟩, ?_⟩
      cases b <;> simp [hb]
  · rintro ⟨answer, hall, rfl⟩
    induction xs with
    | nil => rfl
    | cons x rest ih =>
      rw [List.forall_mem_cons] at hall
      rw [keep, hall.1, ih hall.2]
      cases h : answer x <;> simp [h, bind, Except.bind]

theorem keep_filter (admitted : α → Bool) (p : α → Except ε Bool) (xs : List α) :
    keep (fun x => if admitted x then p x else .ok false) xs = keep p (xs.filter admitted) := by
  induction xs with
  | nil => rfl
  | cons x rest ih =>
    cases h : admitted x with
    | true => simp only [keep, ih, h, List.filter_cons_of_pos, if_true]
    | false =>
      simp only [keep, ih, h, List.filter_cons, Bool.false_eq_true, if_false]
      cases keep p (rest.filter admitted) <;> rfl

theorem pick_sublist (position : Option Nat) (items : List α) :
    (pick position items).Sublist items := by
  match position with
  | none => exact .refl items
  | some 0 => exact List.nil_sublist items
  | some (n + 1) =>
    cases h : items[n]? with
    | none => simp [pick, h]
    | some x => simpa [pick, h] using List.mem_of_getElem? h

theorem pick_length_le_one {position : Option Nat} (h : position.isSome) (items : List α) :
    (pick position items).length ≤ 1 := by
  match position with
  | some 0 => simp [pick]
  | some (n + 1) => cases hn : items[n]? <;> simp [pick, hn]

theorem collect_append (f : α → Except ε (List β)) (xs ys : List α) :
    (collect f (xs ++ ys)).toOption =
      (collect f xs).toOption.bind fun a => (collect f ys).toOption.map (a ++ ·) := by
  induction xs with
  | nil => simp [collect]
  | cons x rest ih =>
    simp only [List.cons_append, collect, toOption_bind, ih, toOption_ok]
    cases (f x).toOption <;> cases (collect f rest).toOption <;>
      cases (collect f ys).toOption <;> simp

theorem collect_eq_ok_iff {f : α → Except ε (List β)} {xs : List α} {ys : List β} :
    collect f xs = .ok ys ↔
      ∃ parts, List.Forall₂ (fun x part => f x = .ok part) xs parts ∧ ys = parts.flatten := by
  induction xs generalizing ys with
  | nil => simp [collect, eq_comm]
  | cons x rest ih =>
    simp only [collect, bind_eq_ok_iff, ih, List.forall₂_cons_left_iff]
    constructor
    · rintro ⟨found, hfound, _, ⟨parts, hparts, rfl⟩, h⟩
      cases h
      exact ⟨found :: parts, ⟨found, parts, hfound, hparts, rfl⟩, rfl⟩
    · rintro ⟨_, ⟨found, parts, hfound, hparts, rfl⟩, rfl⟩
      exact ⟨found, hfound, _, ⟨parts, hparts, rfl⟩, rfl⟩

theorem collect_congr {f g : α → Except ε (List β)} {xs : List α} (h : ∀ x ∈ xs, f x = g x) :
    collect f xs = collect g xs := by
  induction xs with
  | nil => rfl
  | cons x rest ih =>
    rw [List.forall_mem_cons] at h
    rw [collect, collect, h.1, ih h.2]

theorem collect_congr_toOption {f g : α → Except ε (List β)} {xs : List α}
    (h : ∀ x ∈ xs, (f x).toOption = (g x).toOption) :
    (collect f xs).toOption = (collect g xs).toOption := by
  induction xs with
  | nil => rfl
  | cons x rest ih =>
    rw [List.forall_mem_cons] at h
    simp only [collect, toOption_bind, toOption_ok, h.1, ih h.2]

theorem collect_bind {γ : Type} (f : α → Except ε (List β)) (g : β → Except ε (List γ))
    (xs : List α) :
    (collect f xs >>= collect g).toOption = (collect (fun x => f x >>= collect g) xs).toOption := by
  induction xs with
  | nil => rfl
  | cons x rest ih =>
    simp only [toOption_bind] at ih
    simp only [collect, toOption_bind, toOption_ok, ← ih]
    cases (f x).toOption with
    | none => rfl
    | some found =>
      cases (collect f rest).toOption with
      | none => simp
      | some more =>
        simp only [Option.bind_some, collect_append]
        cases (collect g found).toOption <;> cases (collect g more).toOption <;> simp

theorem collect_eq_ok {f : α → Except ε (List β)} {xs : List α} {ys : List β}
    (h : collect f xs = .ok ys) :
    (∀ x ∈ xs, f x = .ok ((f x).toOption.getD [])) ∧
      ys = xs.flatMap fun x => (f x).toOption.getD [] := by
  induction xs generalizing ys with
  | nil => cases h; exact ⟨nofun, rfl⟩
  | cons x rest ih =>
    obtain ⟨found, hfound, h⟩ := bind_eq_ok_iff.mp h
    obtain ⟨more, hmore, h⟩ := bind_eq_ok_iff.mp h
    cases h
    obtain ⟨hall, rfl⟩ := ih hmore
    refine ⟨?_, by simp [hfound]⟩
    intro z hz
    rcases List.mem_cons.mp hz with rfl | hz
    · simp [hfound]
    · exact hall z hz

theorem collect_eq_flatMap {f : α → Except ε (List β)} {g : α → List β} {xs : List α}
    (h : ∀ x ∈ xs, f x = .ok (g x)) : collect f xs = .ok (xs.flatMap g) := by
  induction xs with
  | nil => rfl
  | cons x rest ih =>
    rw [List.forall_mem_cons] at h
    rw [collect, h.1, ih h.2]
    rfl

theorem keep_collect (p : α → Except ε Bool) (f : α → Except ε (List β)) (xs : List α) :
    (keep p xs >>= collect f).toOption =
      (collect (fun x => do if ← p x then f x else .ok []) xs).toOption := by
  induction xs with
  | nil => rfl
  | cons x rest ih =>
    simp only [toOption_bind] at ih
    simp only [keep, collect, toOption_bind]
    cases p x with
    | error e => simp
    | ok b =>
      cases b <;> simp only [Option.bind_assoc, toOption_ok, Option.bind_some, reduceIte, collect,
        toOption_bind, Bool.false_eq_true]
      · simp [← ih]
      · -- The passes differ in what they do first, so both are compared where both succeed.
        rw [← ih]
        cases (f x).toOption <;> cases (keep p rest).toOption <;> simp

end Loops

variable (declared : List Declaration)

/-- Whether a step keeps a node. -/
def admits (s : Step) (n : Node) : Except UnresolvedName Bool := do
  if ← passes declared s.test n then holdAll declared s.predicates n else .ok false

def selected (s : Step) (nodes : List Node) : Except UnresolvedName (List Node) := do
  let kept ← keep (admits declared s) (candidates s.descendant nodes)
  .ok (pick s.position? kept)

/-- What a step and the steps after it make of a node that the step has selected. -/
def onward (s : Step) (rest : List Step) (n : Node) : Except UnresolvedName (List Match) :=
  if rest.isEmpty then .ok (yields s.reads n).toList else walk declared rest n.children

theorem onward_of_ne_nil (s : Step) {rest : List Step} (h : rest ≠ []) :
    onward declared s rest = fun n => walk declared rest n.children := by
  funext n
  simp [onward, h]

theorem walk_cons (s : Step) (rest : List Step) (nodes : List Node) :
    walk declared (s :: rest) nodes = (do
      let picked ← selected declared s nodes
      if rest.isEmpty then .ok (picked.filterMap (yields s.reads))
      else collect (fun n => walk declared rest n.children) picked) := by
  obtain ⟨descendant, test, reads, predicates⟩ := s
  rw [walk]
  change keep (admits declared ⟨descendant, test, reads, predicates⟩)
    (candidates descendant nodes) >>= _ = _
  unfold selected
  cases keep (admits declared ⟨descendant, test, reads, predicates⟩)
    (candidates descendant nodes) <;> rfl

theorem collect_yields (reads : Option String) (nodes : List Node) :
    collect (ε := UnresolvedName) (fun n => .ok (yields reads n).toList) nodes =
      .ok (nodes.filterMap (yields reads)) := by
  induction nodes with
  | nil => rfl
  | cons n rest ih =>
    simp only [collect, ih]
    cases h : yields reads n <;> simp [bind, Except.bind, h]

theorem walk_cons_eq_collect (s : Step) (rest : List Step) (nodes : List Node) :
    walk declared (s :: rest) nodes =
      selected declared s nodes >>= collect (onward declared s rest) := by
  rw [walk_cons]
  congr
  funext picked
  unfold onward
  cases rest with
  | nil => simp [collect_yields]
  | cons => simp

variable {declared} in
/-- Without a position a step selects the candidates that it keeps, if it has an answer for each. -/
theorem selected_eq_ok_iff {s : Step} (hs : s.position? = none) {nodes picked : List Node} :
    selected declared s nodes = .ok picked ↔ ∃ answer : Node → Bool,
      (∀ n ∈ candidates s.descendant nodes, admits declared s n = .ok (answer n)) ∧
        picked = (candidates s.descendant nodes).filter answer := by
  rw [← keep_eq_ok_iff, selected, hs]
  cases keep (admits declared s) (candidates s.descendant nodes) <;> rfl

theorem selected_sublist {s : Step} {nodes picked : List Node}
    (h : selected declared s nodes = .ok picked) :
    picked.Sublist (candidates s.descendant nodes) := by
  obtain ⟨kept, hkept, h⟩ := bind_eq_ok_iff.mp h
  cases h
  exact (pick_sublist _ _).trans (keep_sublist hkept)

theorem yields_origin {reads : Option String} {n : Node} {m : Match} (h : yields reads n = some m) :
    m.origin = n := by
  cases reads with
  | none => cases h; rfl
  | some key =>
    obtain ⟨value, _, rfl⟩ := Option.map_eq_some_iff.mp h
    rfl

theorem filterMap_yields_origin (reads : Option String) (nodes : List Node) :
    ((nodes.filterMap (yields reads)).map Match.origin).Sublist nodes := by
  induction nodes with
  | nil => exact .slnil
  | cons n rest ih =>
    cases h : yields reads n with
    | none => simpa [h] using ih.cons n
    | some m => simpa [h, yields_origin h] using ih

end Walk

def Tree.stringValue (t : Tree) : String :=
  match t.root with
  | some root => root.stringValue
  | none => ""

def Result.stringValue : Result → String
  | .tree t => t.stringValue
  | .text value => value

theorem Result.stringValue_ofMatch (m : Match) : (ofMatch m).stringValue = m.stringValue := by
  rcases m with ⟨address, f, scope⟩ | ⟨n, value⟩
  · cases f <;> rfl
  · rfl

namespace Path.Compiled

/-- The matches behind the results of a path: the root itself for the empty path. -/
def found (p : Compiled) (t : Tree) (declared : List Declaration) :
    Except UnresolvedName (List Match) :=
  match t.root, p.steps with
  | none, _ => .ok []
  | some root, none => .ok [.node (Node.ofRoot root)]
  | some root, some steps => Walk.walkFrom declared steps (Node.ofRoot root)

/-- How a match is presented. The empty path answers with the tree as it is. -/
def present (p : Compiled) (t : Tree) (m : Match) : Result :=
  if p.steps.isNone then .tree t else Result.ofMatch m

theorem evaluate_eq (p : Compiled) (t : Tree) (declared : List Declaration) :
    p.evaluate t declared = (p.found t declared).map (List.map (p.present t)) := by
  obtain ⟨source, steps⟩ := p
  obtain ⟨root⟩ := t
  cases root with
  | none => rfl
  | some root =>
    cases steps with
    | none => rfl
    | some steps =>
      simp only [evaluate, found]
      cases Walk.walkFrom declared steps (Node.ofRoot root) <;> rfl

theorem map_stringValue_present {p : Compiled} {t : Tree} {declared : List Declaration}
    {found : List Match} (h : p.found t declared = .ok found) :
    (found.map (p.present t)).map Result.stringValue = found.map Match.stringValue := by
  obtain ⟨source, steps⟩ := p
  obtain ⟨root⟩ := t
  cases root with
  | none =>
    cases h
    rfl
  | some root =>
    cases steps with
    | none =>
      cases h
      rfl
    | some steps =>
      rw [List.map_map]
      exact List.map_congr_left fun m _ => Result.stringValue_ofMatch m

end Path.Compiled

end MarkupTree

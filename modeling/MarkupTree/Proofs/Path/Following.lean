import MarkupTree.Proofs.Path.Consumption

/-!
# Following the grammar

The grammar that messages are made from is a second account of written paths, next to the readers.
Here it is followed operator by operator, with fuel enough for any text, and its rules for names,
numbers, quotations and bare texts are shown to end where the readers of these end.
-/

set_option autoImplicit false

namespace MarkupTree.Path

theorem isPrefixOf?_of_head {q : Char} {w cs : List Char} (h : cs.head? ≠ some q) :
    (q :: w).isPrefixOf? cs = none := by
  cases cs with
  | nil => rfl
  | cons c cs =>
    have hne : q ≠ c := fun hq => h (congrArg some hq.symm)
    simp [List.isPrefixOf?, hne]

theorem head_ne_of_forall {q : Char} {cs : List Char} (h : ∀ rest, cs ≠ q :: rest) :
    cs.head? ≠ some q := by
  intro hhead
  obtain ⟨rest, hcs⟩ := List.head?_eq_some_iff.mp hhead
  exact h rest hcs

namespace Grammar

/-- With `k` units of fuel or more the expression ends at `x` on the text, or fails on it. What is
told on the way is left out. -/
def Follows (k : Nat) (g : Grammar) (cs : List Char) (x : Option (List Char)) : Prop :=
  ∀ fuel atomic negated here attempts, k ≤ fuel → here.rest = cs →
    (follow fuel g atomic negated here attempts).1.map Place.rest = x

namespace Follows

attribute [local simp] follow

variable {k : Nat} {g h : Grammar} {cs mid : List Char} {x y : Option (List Char)}

theorem mono {m : Nat} (hg : Follows k g cs x) (hm : k ≤ m) : Follows m g cs x :=
  fun fuel atomic negated here attempts hfuel =>
    hg fuel atomic negated here attempts (hm.trans hfuel)

theorem of_succ
    (hstep : ∀ fuel atomic negated here attempts, k ≤ fuel → here.rest = cs →
      (follow (fuel + 1) g atomic negated here attempts).1.map Place.rest = x) :
    Follows (k + 1) g cs x := by
  intro fuel atomic negated here attempts hfuel hcs
  obtain ⟨fuel, rfl⟩ : ∃ n, fuel = n + 1 := ⟨fuel - 1, by omega⟩
  exact hstep fuel atomic negated here attempts (by omega) hcs

section Outcome

variable {fuel : Nat} {here : Place} (hfuel : k ≤ fuel) (hrest : here.rest = cs)
  (atomic negated : Bool) (attempts : Attempts)

include hfuel hrest

theorem found (hg : Follows k g cs (some mid)) :
    ∃ next after, follow fuel g atomic negated here attempts = (some next, after) ∧
      next.rest = mid := by
  obtain ⟨next, hnext, hmid⟩ :=
    Option.map_eq_some_iff.mp (hg fuel atomic negated here attempts hfuel hrest)
  exact ⟨next, _, Prod.ext hnext rfl, hmid⟩

theorem failed (hg : Follows k g cs none) :
    ∃ after, follow fuel g atomic negated here attempts = (none, after) := by
  have hnone := Option.map_eq_none_iff.mp (hg fuel atomic negated here attempts hfuel hrest)
  exact ⟨_, Prod.ext hnone rfl⟩

end Outcome

theorem one_pos {p : Char → Bool} {c : Char} (hc : p c = true) :
    Follows (k + 1) (.one p) (c :: cs) (some cs) := by
  apply of_succ
  intro fuel atomic negated here attempts _ hrest
  simp [hrest, hc]

theorem one_neg {p : Char → Bool} (hcs : cs.head?.any p = false) :
    Follows (k + 1) (.one p) cs none := by
  apply of_succ
  intro fuel atomic negated here attempts _ hrest
  cases cs with
  | nil => simp [hrest]
  | cons c cs =>
    have hc : p c = false := by simpa using hcs
    simp [hrest, hc]

theorem literal (text : String) (cs : List Char) :
    Follows (k + 1) (.literal text) cs (text.toList.isPrefixOf? cs) := by
  apply of_succ
  intro fuel atomic negated here attempts _ hrest
  rw [follow, hrest]
  cases text.toList.isPrefixOf? cs <;> rfl

theorem char_pos {text : String} {q : Char} (htext : text.toList = [q]) :
    Follows (k + 1) (.literal text) (q :: cs) (some cs) := by
  have hliteral := literal (k := k) text (q :: cs)
  rw [htext] at hliteral
  simpa [List.isPrefixOf?] using hliteral

theorem char_neg {text : String} {q : Char} (htext : text.toList = [q])
    (hcs : cs.head? ≠ some q) : Follows (k + 1) (.literal text) cs none := by
  have hliteral := literal (k := k) text cs
  rwa [htext, isPrefixOf?_of_head hcs] at hliteral

theorem nothingLeft (cs : List Char) :
    Follows (k + 1) .nothingLeft cs (if cs.isEmpty then some cs else none) := by
  apply of_succ
  intro fuel atomic negated here attempts _ hrest
  cases cs <;> simp [hrest]

theorem both (hg : Follows k g cs (some mid)) (hh : Follows k h mid x) :
    Follows (k + 1) (.both g h) cs x := by
  apply of_succ
  intro fuel atomic negated here attempts hfuel hrest
  obtain ⟨next, after, heq, hmid⟩ := hg.found hfuel hrest atomic negated attempts
  simp only [follow, heq]
  exact hh fuel atomic negated next after hfuel hmid

theorem both_none (hg : Follows k g cs none) : Follows (k + 1) (.both g h) cs none := by
  apply of_succ
  intro fuel atomic negated here attempts hfuel hrest
  obtain ⟨after, heq⟩ := hg.failed hfuel hrest atomic negated attempts
  simp only [follow, heq, Option.map_none]

theorem both_bind {f : List Char → Option (List Char)} (hg : Follows k g cs x)
    (hh : ∀ mid, x = some mid → Follows k h mid (f mid)) :
    Follows (k + 1) (.both g h) cs (x.bind f) := by
  cases x with
  | none => exact .both_none hg
  | some mid => exact .both hg (hh mid rfl)

theorem both_map {f : List Char → List Char} (hg : Follows k g cs x)
    (hh : ∀ mid, x = some mid → Follows k h mid (some (f mid))) :
    Follows (k + 1) (.both g h) cs (x.map f) := by
  rw [Option.map_eq_bind]
  exact .both_bind hg hh

theorem either (hg : Follows k g cs x) (hh : Follows k h cs y) :
    Follows (k + 1) (.either g h) cs (x.or y) := by
  apply of_succ
  intro fuel atomic negated here attempts hfuel hrest
  cases x with
  | none =>
    obtain ⟨after, heq⟩ := hg.failed hfuel hrest atomic negated attempts
    simp only [follow, heq, Option.none_or]
    exact hh fuel atomic negated here after hfuel hrest
  | some mid =>
    obtain ⟨next, after, heq, rfl⟩ := hg.found hfuel hrest atomic negated attempts
    simp only [follow, heq, Option.some_or, Option.map_some]

theorem many_none (hg : Follows k g cs none) : Follows (k + 1) (.many g) cs (some cs) := by
  apply of_succ
  intro fuel atomic negated here attempts hfuel hrest
  obtain ⟨after, heq⟩ := hg.failed hfuel hrest atomic negated attempts
  simp only [follow, heq, Option.map_some, hrest]

theorem many_some (hg : Follows k g cs (some mid)) (hh : Follows k (.many g) mid x) :
    Follows (k + 1) (.many g) cs x := by
  apply of_succ
  intro fuel atomic negated here attempts hfuel hrest
  obtain ⟨next, after, heq, hmid⟩ := hg.found hfuel hrest atomic negated attempts
  simp only [follow, heq]
  exact hh fuel atomic negated next after hfuel hmid

theorem perhaps (hg : Follows k g cs x) : Follows (k + 1) (.perhaps g) cs (some (x.getD cs)) := by
  apply of_succ
  intro fuel atomic negated here attempts hfuel hrest
  cases x with
  | none =>
    obtain ⟨after, heq⟩ := hg.failed hfuel hrest atomic negated attempts
    simp only [follow, heq, Option.map_some, hrest, Option.getD_none]
  | some mid =>
    obtain ⟨next, after, heq, rfl⟩ := hg.found hfuel hrest atomic negated attempts
    simp only [follow, heq, Option.map_some, Option.getD_some]

theorem unlessAhead (hg : Follows k g cs x) :
    Follows (k + 1) (.unless g) cs (if x.isSome then none else some cs) := by
  apply of_succ
  intro fuel atomic negated here attempts hfuel hrest
  cases x with
  | none =>
    obtain ⟨after, heq⟩ := hg.failed hfuel hrest atomic (!negated) attempts
    simp [heq, hrest]
  | some mid =>
    obtain ⟨next, after, heq, -⟩ := hg.found hfuel hrest atomic (!negated) attempts
    simp [heq]

theorem ahead (hg : Follows k g cs x) :
    Follows (k + 1) (.ahead g) cs (if x.isSome then some cs else none) := by
  apply of_succ
  intro fuel atomic negated here attempts hfuel hrest
  cases x with
  | none =>
    obtain ⟨after, heq⟩ := hg.failed hfuel hrest atomic negated attempts
    simp [heq]
  | some mid =>
    obtain ⟨next, after, heq, -⟩ := hg.found hfuel hrest atomic negated attempts
    simp [heq, hrest]

theorem rule {r : Rule} (hbody : Follows k r.body cs x) : Follows (k + 1) (.rule r) cs x := by
  apply of_succ
  intro fuel atomic negated here attempts hfuel hrest
  have hinside := hbody fuel (r.isAtomic || atomic) negated here attempts hfuel hrest
  simp only [follow]
  split <;> exact hinside

end Follows

section Runs

variable {p : Char → Bool}

theorem follows_run (p : Char → Bool) (cs : List Char) :
    Follows (cs.length + 2) (.many (.one p)) cs (some (cs.dropWhile p)) := by
  induction cs with
  | nil => exact .many_none (.one_neg rfl)
  | cons c cs ih =>
    cases hc : p c with
    | false =>
      rw [List.dropWhile_cons_of_neg (by simp [hc])]
      exact .many_none (.one_neg (by simpa using hc))
    | true =>
      rw [List.dropWhile_cons_of_pos hc]
      exact .many_some (.one_pos hc) ih

theorem follows_atLeastOne (p : Char → Bool) (cs : List Char) :
    Follows (cs.length + 3) (atLeastOnce (.one p)) cs
      (if cs.head?.any p then some (cs.dropWhile p) else none) := by
  cases hcs : cs.head?.any p with
  | false => exact .both_none (.one_neg hcs)
  | true =>
    cases cs with
    | nil => cases hcs
    | cons c cs =>
      have hc : p c = true := by simpa using hcs
      rw [if_pos rfl, List.dropWhile_cons_of_pos hc]
      exact .both (.one_pos hc) ((follows_run p cs).mono (by simp))

end Runs

theorem follows_gap (cs : List Char) :
    Follows (cs.length + 2) gap cs (some (Surface.skipGap cs)) :=
  follows_run Surface.isGap cs

end Grammar

namespace Surface

open Grammar

/-- What a reader leaves of a text. -/
def leftBy {α : Type} (p : Parser α) (cs : List Char) : Option (List Char) := (p cs).map Prod.snd

/-- On texts shorter than `n` the expression ends where the reader does, with fuel that grows as
`fuelFor` does. -/
def Mirrors {α : Type} (n c : Nat) (g : Grammar) (p : Parser α) : Prop :=
  ∀ cs, cs.length < n → Follows (64 * cs.length + c) g cs (leftBy p cs)

section

variable {α : Type} {n c : Nat} {g : Grammar} {p : Parser α} {cs rest : List Char} {x : α}

theorem leftBy_of_none (h : p cs = none) : leftBy p cs = none := congrArg _ h

theorem leftBy_of_some (h : p cs = some (x, rest)) : leftBy p cs = some rest := congrArg _ h

theorem Mirrors.many (h : Mirrors n c g p) (hp : Consumes p) (hcs : cs.length < n) {fuel : Nat}
    (hfuel : cs.length ≤ fuel) :
    Follows (64 * cs.length + c + 1) (.many g) cs (some (repeated p fuel cs).2) := by
  induction fuel generalizing cs with
  | zero =>
    obtain rfl : cs = [] := List.length_eq_zero_iff.mp (Nat.le_zero.mp hfuel)
    have hnone := h [] hcs
    rw [leftBy_of_none hp.nil] at hnone
    exact .many_none hnone
  | succ fuel ih =>
    have hread := h cs hcs
    cases hitem : p cs with
    | none =>
      rw [leftBy_of_none hitem] at hread
      rw [repeated_of_none hitem]
      exact .many_none hread
    | some found =>
      rw [leftBy_of_some hitem] at hread
      rw [repeated_of_some hitem]
      have hlt := (hp hitem).2
      exact .many_some hread ((ih (by omega) (by omega)).mono (by omega))

end

end Surface

end MarkupTree.Path

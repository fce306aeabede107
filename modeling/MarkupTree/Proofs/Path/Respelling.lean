import Mathlib.Logic.Relation
import MarkupTree.Proofs.Path.Juncture
import MarkupTree.Proofs.Path.Rows
import MarkupTree.Proofs.Path.Scanning

/-!
# Spellings of one path

Outside of predicates a path may be spelled in more than one way: with dots that disappear, with a
star before an attribute behind a double slash, with blanks inside the brackets and zeros before a
position. A scan that counts brackets tells where such a site is. The text there belongs to one
segment, or to one pair of brackets of a step; another text takes its place, and what is read from
it is folded into the same steps, whatever stands around it.
-/

set_option autoImplicit false

namespace MarkupTree

/-- Where a text is cut that consists of the texts of some items, the cut is in front of one of them
or within it. -/
theorem exists_item_at {α β : Type} {R : α → List β → Prop} {xs : List α} {ws : List (List β)}
    (h : List.Forall₂ R xs ws) {u v : List β} (hcs : ws.flatten = u ++ v) (hv : v ≠ []) :
    ∃ xs₁ x xs₂ ws₁ k l ws₂, xs = xs₁ ++ x :: xs₂ ∧ u = ws₁.flatten ++ k ∧
      v = l ++ ws₂.flatten ∧ l ≠ [] ∧ List.Forall₂ R xs₁ ws₁ ∧ R x (k ++ l) ∧
      List.Forall₂ R xs₂ ws₂ := by
  induction h generalizing u with
  | nil =>
    rw [List.flatten_nil, eq_comm, List.append_eq_nil_iff] at hcs
    exact absurd hcs.2 hv
  | @cons x w xs ws hw hws ih =>
    rw [List.flatten_cons] at hcs
    -- The cut is behind the first text, or leaves something of it.
    have hcut : (∃ a, u = w ++ a ∧ ws.flatten = a ++ v) ∨
        ∃ l, l ≠ [] ∧ w = u ++ l ∧ v = l ++ ws.flatten := by
      rcases List.append_eq_append_iff.mp hcs with ⟨a, rfl, hrest⟩ | ⟨l, rfl, rfl⟩
      · exact .inl ⟨a, rfl, hrest⟩
      · by_cases hl : l = []
        · subst hl
          exact .inl ⟨[], by simp, rfl⟩
        · exact .inr ⟨l, hl, rfl, rfl⟩
    rcases hcut with ⟨a, rfl, hrest⟩ | ⟨l, hl, rfl, rfl⟩
    · obtain ⟨xs₁, y, xs₂, ws₁, k, l, ws₂, rfl, rfl, rfl, hl, h₁, hy, h₂⟩ := ih hrest
      exact ⟨x :: xs₁, y, xs₂, w :: ws₁, k, l, ws₂, rfl, by simp, rfl, hl, .cons hw h₁, hy, h₂⟩
    · exact ⟨[], x, xs, [], u, l, ws, rfl, rfl, rfl, hl, .nil, hw, hws⟩

namespace Path

open Scan

namespace Scan

theorem Within.split {s t : Scan} {a b : List Char} (h : Within s (a ++ b) t) :
    ∃ u, Within s a u ∧ Within u b t := by
  induction a generalizing s with
  | nil => exact ⟨s, .nil h.pos, h⟩
  | cons c a ih =>
    cases h with
    | cons hs hc hk =>
      obtain ⟨u, ha, hb⟩ := ih hk
      exact ⟨u, .cons hs hc ha, hb⟩

theorem Within.run_eq {s t : Scan} {k : List Char} (h : Within s k t) : run s k = some t := by
  have hrun := h.run_append []
  rwa [List.append_nil] at hrun

variable {content x y : List Char}

theorem Neutral.exists_cut (h : Neutral content) (hcs : '[' :: (content ++ [']']) = x ++ y)
    (hx : x ≠ []) (hy : y ≠ []) :
    ∃ a b s, x = '[' :: a ∧ y = b ++ [']'] ∧ content = a ++ b ∧ run start x = some s ∧
      0 < s.depth ∧ Within s b ⟨1, none⟩ := by
  obtain ⟨c, a, rfl⟩ := List.exists_cons_of_ne_nil hx
  obtain ⟨rfl, hinside⟩ := List.cons.inj hcs
  have hinside : content ++ [']'] = a ++ y := hinside
  obtain ⟨b, e, rfl⟩ := (List.eq_nil_or_concat' y).resolve_left hy
  rw [← List.append_assoc] at hinside
  obtain ⟨rfl, hclose⟩ := List.append_inj' hinside rfl
  obtain rfl := List.singleton_inj.mp hclose
  obtain ⟨s, ha, hb⟩ := (h 0).split
  exact ⟨a, b, s, rfl, rfl, rfl, ha.run_eq, hb.pos, hb⟩

theorem Neutral.eq_nil_of_outside (h : Neutral content)
    (hcs : '[' :: (content ++ [']']) = x ++ y) (hy : y ≠ []) (hrun : run start x = some start) :
    x = [] := by
  by_contra hx
  obtain ⟨a, b, s, -, -, -, hs, hdepth, -⟩ := h.exists_cut hcs hx hy
  rw [hrun] at hs
  cases hs
  cases hdepth

theorem Neutral.eq_close (h : Neutral content) {rest : List Char}
    (hcs : '[' :: (content ++ [']']) = x ++ ']' :: rest) (hrun : run start x = some ⟨1, none⟩) :
    rest = [] ∧ x = '[' :: content := by
  have hx : x ≠ [] := by
    rintro rfl
    cases hrun
  obtain ⟨a, b, s, rfl, hrest, rfl, hs, -, hb⟩ := h.exists_cut hcs hx (List.cons_ne_nil _ _)
  rw [hrun] at hs
  cases hs
  cases b with
  | nil =>
    rw [List.append_nil]
    exact ⟨(List.cons.inj hrest).2, rfl⟩
  | cons c b =>
    obtain ⟨rfl, -⟩ := List.cons.inj hrest
    cases hb with
    | cons _ hc hb =>
      cases hc
      exact absurd hb.pos (Nat.lt_irrefl 0)

end Scan

namespace Surface

theorem Bracket.Content.spaced {b : Bracket} {k g g' : List Char} (h : b.Content k)
    (hg : ∀ x ∈ g, isGap x = true) (hg' : ∀ x ∈ g', isGap x = true) :
    b.From ('[' :: (g ++ k ++ g' ++ [']'])) := by
  intro n v hn
  simp only [List.length_cons, List.length_append] at hn
  exact h.bracket hg hg' (by omega) v

theorem Bracket.From.spaced {b : Bracket} {content g g' : List Char}
    (h : b.From ('[' :: (content ++ [']']))) (hg : ∀ x ∈ g, isGap x = true)
    (hg' : ∀ x ∈ g', isGap x = true) : b.From ('[' :: (g ++ content ++ g' ++ [']'])) := by
  obtain ⟨front, k, back, hw, hfront, hback, hk⟩ := exists_content (h _ [] (Nat.le_refl _))
  obtain rfl := List.append_cancel_right (List.cons.inj hw).2
  have hspaced := hk.spaced (List.forall_mem_append.mpr ⟨hg, hfront⟩)
    (List.forall_mem_append.mpr ⟨hback, hg'⟩)
  simpa using hspaced

theorem Bracket.From.unique {b b' : Bracket} {w w' v v' : List Char} (h : b.From w)
    (h' : b'.From w') (hcs : w ++ v = w' ++ v') : b = b' ∧ v = v' := by
  have hread := h (w.length + w'.length) v (Nat.le_add_right _ _)
  rw [hcs, h' (w.length + w'.length) v' (Nat.le_add_left _ _)] at hread
  cases hread
  exact ⟨rfl, rfl⟩

theorem Bracket.From.exists_neutral {b : Bracket} {w : List Char} (h : b.From w) :
    ∃ content, w = '[' :: (content ++ [']']) ∧ Neutral content :=
  neutral_of_bracket (neutral_of_condition w.length) ⟨[], h w.length [] (Nat.le_refl _)⟩

theorem exists_passes_row {bs : List Bracket} {ws : List (List Char)}
    (h : List.Forall₂ Bracket.From bs ws) : ∃ inner, Passes ws.flatten inner := by
  induction h with
  | nil => exact ⟨[], passes_nil⟩
  | cons hw _ ih =>
    obtain ⟨content, rfl, hcontent⟩ := hw.exists_neutral
    obtain ⟨inner, hinner⟩ := ih
    exact ⟨_, hcontent.passes.append hinner⟩

theorem run_slashes (d : Bool) (rest : List Char) :
    run start ('/' :: ((if d then ['/'] else []) ++ rest)) = run start rest := by
  cases d <;> rfl

theorem run_slashes_append (d : Bool) {k : List Char} {inner : List (List Char)}
    (h : Passes k inner) (rest : List Char) :
    run start ('/' :: ((if d then ['/'] else []) ++ k) ++ rest) = run start rest := by
  rw [List.cons_append, List.append_assoc, run_slashes, h.run_append]

theorem Segment.From.run_append {seg : Segment} {w : List Char} (h : seg.From w)
    (rest : List Char) : run start (w ++ rest) = run start rest := by
  cases h with
  | ofAttribute d hname =>
    have hpasses := (passes_char (c := '@') (by decide) (by decide)).append
      (passes_of_plain (plain_of_isName hname))
    exact run_slashes_append d hpasses rest
  | ofSelf d =>
    exact run_slashes_append d (passes_char (c := '.') (by decide) (by decide)) rest
  | ofStep d htest hbs =>
    obtain ⟨inner, hinner⟩ := exists_passes_row hbs
    exact run_slashes_append d ((passes_of_plain (plain_of_legible htest)).append hinner) rest

/-- Behind every segment of a path the scan is outside of brackets again. -/
theorem run_flatten {segs : List Segment} {ws : List (List Char)}
    (h : List.Forall₂ Segment.From segs ws) (rest : List Char) :
    run start (ws.flatten ++ rest) = run start rest := by
  induction h with
  | nil => rfl
  | cons hw _ ih => rw [List.flatten_cons, List.append_assoc, hw.run_append, ih]

theorem slashes_cut {d : Bool} {x y k : List Char} {c : Char}
    (h : '/' :: ((if d then ['/'] else []) ++ k) = x ++ c :: y) :
    (c = '/' ∧ (x = [] ∨ x = ['/'] ∧ d = true)) ∨
      ∃ x', x = '/' :: ((if d then ['/'] else []) ++ x') ∧ k = x' ++ c :: y := by
  rcases x with _ | ⟨s, x⟩
  · exact .inl ⟨(List.cons.inj h).1.symm, .inl rfl⟩
  · obtain ⟨rfl, htail⟩ := List.cons.inj h
    cases d with
    | false => exact .inr ⟨x, rfl, htail⟩
    | true =>
      rcases x with _ | ⟨s, x⟩
      · exact .inl ⟨(List.cons.inj htail).1.symm, .inr ⟨rfl, rfl⟩⟩
      · obtain ⟨rfl, hk⟩ := List.cons.inj htail
        exact .inr ⟨x, rfl, hk⟩

theorem Segment.From.cut {seg : Segment} {x y : List Char} {c : Char}
    (h : seg.From (x ++ c :: y)) (hc : ¬ (Plain c ∧ c ≠ '/')) :
    (c = '/' ∧ (x = [] ∨ x = ['/'] ∧ seg.isDescendant = true)) ∨
      ∃ d test bs ws x', seg = .step d test bs ∧ test.Legible ∧ List.Forall₂ Bracket.From bs ws ∧
        x = '/' :: ((if d then ['/'] else []) ++ (test.display.toList ++ x')) ∧
        ws.flatten = x' ++ c :: y := by
  have hplain : ∀ {k k' : List Char}, (∀ e ∈ k, Plain e ∧ e ≠ '/') → k ≠ k' ++ c :: y := by
    rintro k k' hk rfl
    exact hc (hk c (by simp))
  generalize hw : x ++ c :: y = w at h
  cases h with
  | @ofAttribute d name hname =>
    rcases slashes_cut hw.symm with hslash | ⟨x', rfl, hk⟩
    · exact .inl hslash
    · refine absurd hk (hplain ?_)
      rw [List.forall_mem_cons]
      exact ⟨by decide, plain_of_isName hname⟩
  | ofSelf d =>
    rcases slashes_cut hw.symm with hslash | ⟨x', rfl, hk⟩
    · exact .inl hslash
    · exact absurd hk (hplain (by simp [Plain]))
  | @ofStep d test bs ws htest hbs =>
    rcases slashes_cut hw.symm with hslash | ⟨x', rfl, hk⟩
    · exact .inl hslash
    · have hdisplay := plain_of_legible htest
      rcases List.append_eq_append_iff.mp hk with ⟨a, rfl, hrow⟩ | ⟨a, htext, hrow⟩
      · exact .inr ⟨d, test, bs, ws, a, rfl, htest, hbs, rfl, hrow⟩
      · -- The test reaches up to `c` at least, and does not have it.
        cases a with
        | nil =>
          refine .inr ⟨d, test, bs, ws, [], rfl, htest, hbs, ?_, hrow.symm⟩
          rw [htext, List.append_nil, List.append_nil]
        | cons e a =>
          obtain ⟨rfl, rfl⟩ := List.cons.inj hrow
          refine absurd (hdisplay c ?_) hc
          rw [htext]
          simp

/-- A slash that a scan finds outside of brackets is the one that a segment starts with, or the
second of its two. -/
theorem exists_segment_at {u v : List Char} {segs : List Segment}
    (h : ofPath? (u ++ '/' :: v) = some segs) (hu : run start u = some start) :
    ∃ segs₁ seg segs₂ ws₁ w ws₂, List.Forall₂ Segment.From segs₁ ws₁ ∧ seg.From w ∧
      List.Forall₂ Segment.From segs₂ ws₂ ∧ '/' :: v = w ++ ws₂.flatten ∧
      (u = ws₁.flatten ∧ segs = segs₁ ++ seg :: segs₂ ∨
        u = ws₁.flatten ++ ['/'] ∧ seg.isDescendant = false ∧
          segs = segs₁ ++ seg.doubled :: segs₂) := by
  obtain ⟨-, ws, hws, hall⟩ := ofPath?_eq_some_iff.mp h
  obtain ⟨segs₁, seg, segs₂, ws₁, x, l, ws₂, rfl, rfl, hv, hl, h₁, hseg, h₂⟩ :=
    exists_item_at hall hws.symm (List.cons_ne_nil _ _)
  rw [run_flatten h₁] at hu
  obtain ⟨c, y, rfl⟩ := List.exists_cons_of_ne_nil hl
  obtain ⟨rfl, -⟩ := List.cons.inj hv
  rcases hseg.cut (by simp) with ⟨-, rfl | ⟨rfl, hd⟩⟩ |
    ⟨d, test, bs, row, x', -, htest, hbs, rfl, hrow⟩
  · exact ⟨segs₁, seg, segs₂, ws₁, _, ws₂, h₁, hseg, h₂, hv, .inl ⟨by simp, rfl⟩⟩
  · obtain ⟨seg', hseg', hd', rfl⟩ := hseg.exists_single hd
    exact ⟨segs₁, seg', segs₂, ws₁, _, ws₂, h₁, hseg', h₂, hv, .inr ⟨rfl, hd', rfl⟩⟩
  · -- In a row of brackets the scan is outside only where the next one opens.
    obtain ⟨bs₁, b, bs₂, row₁, k, l, row₂, rfl, rfl, hl', hne, hbs₁, hb, -⟩ :=
      exists_item_at hbs hrow (List.cons_ne_nil _ _)
    obtain ⟨inner, hinner⟩ := exists_passes_row hbs₁
    rw [run_slashes, (passes_of_plain (plain_of_legible htest)).run_append, hinner.run_append] at hu
    obtain ⟨content, hcontent, hneutral⟩ := hb.exists_neutral
    obtain rfl := hneutral.eq_nil_of_outside hcontent.symm hne hu
    rw [List.nil_append] at hcontent
    rw [hcontent] at hl'
    cases hl'

/-- Brackets of a step that others may stand in for. -/
structure Slot where
  before : List Segment
  descendant : Bool
  test : NameTest
  left : List Bracket
  right : List Bracket
  after : List Segment

def Slot.fill (s : Slot) (b : Bracket) : List Segment :=
  s.before ++ .step s.descendant s.test (s.left ++ b :: s.right) :: s.after

/-- Whatever brackets stand between the two texts, the path is read with them in the slot. -/
def Slot.Between (s : Slot) (front back : List Char) : Prop :=
  ∀ {b w}, b.From w → ofPath? (front ++ w ++ back) = some (s.fill b)

/-- Wherever a bracket stands in a path, it belongs to brackets of a step: to `k` and `l`
together. -/
theorem exists_slot_at {u v : List Char} {c : Char} {segs : List Segment}
    (h : ofPath? (u ++ c :: v) = some segs) (hc : c = '[' ∨ c = ']') :
    ∃ (s : Slot) (b : Bracket) (front k l back : List Char), segs = s.fill b ∧ u = front ++ k ∧
      c :: v = l ++ back ∧ l ≠ [] ∧ b.From (k ++ l) ∧ run start u = run start k ∧
      s.Between front back := by
  have hplain : ¬ (Plain c ∧ c ≠ '/') := by
    rcases hc with rfl | rfl <;> simp [Plain]
  have hslash : c ≠ '/' := by
    rcases hc with rfl | rfl <;> decide
  obtain ⟨-, ws, hws, hall⟩ := ofPath?_eq_some_iff.mp h
  obtain ⟨segs₁, seg, segs₂, ws₁, x, l, ws₂, rfl, rfl, hv, hl, h₁, hseg, h₂⟩ :=
    exists_item_at hall hws.symm (List.cons_ne_nil _ _)
  obtain ⟨e, y, rfl⟩ := List.exists_cons_of_ne_nil hl
  obtain ⟨rfl, rfl⟩ := List.cons.inj hv
  rcases hseg.cut hplain with ⟨hc', -⟩ | ⟨d, test, bs, row, x', rfl, htest, hbs, rfl, hrow⟩
  · exact absurd hc' hslash
  · obtain ⟨bs₁, b, bs₂, row₁, k, l, row₂, rfl, rfl, hl', hne, hbs₁, hb, hbs₂⟩ :=
      exists_item_at hbs hrow (List.cons_ne_nil _ _)
    obtain ⟨inner, hinner⟩ := exists_passes_row hbs₁
    refine ⟨⟨segs₁, d, test, bs₁, bs₂, segs₂⟩, b, ws₁.flatten ++ '/' ::
      ((if d then ['/'] else []) ++ (test.display.toList ++ row₁.flatten)), k, l,
      row₂.flatten ++ ws₂.flatten, rfl, by simp, ?_, hne, hb, ?_, ?_⟩
    · rw [← List.append_assoc, ← hl']
      rfl
    · rw [run_flatten h₁, run_slashes, (passes_of_plain (plain_of_legible htest)).run_append,
        hinner.run_append]
    · intro b' w hw
      have hstep : Segment.From (.step d test (bs₁ ++ b' :: bs₂)) _ :=
        .ofStep d htest (List.rel_append hbs₁ (.cons hw hbs₂))
      have hread := ofPath?_flatten (List.rel_append h₁ (.cons hstep h₂)) (by simp)
      rw [Slot.fill, ← hread]
      simp

theorem exists_slot_opening {u v : List Char} {segs : List Segment}
    (h : ofPath? (u ++ '[' :: v) = some segs) (hu : run start u = some start) :
    ∃ (s : Slot) (b : Bracket) (content back : List Char), segs = s.fill b ∧
      v = content ++ ']' :: back ∧ b.From ('[' :: (content ++ [']'])) ∧ s.Between u back := by
  obtain ⟨s, b, front, k, l, back, rfl, rfl, hv, hne, hb, hrun, hslot⟩ :=
    exists_slot_at h (.inl rfl)
  obtain ⟨content, hcontent, hneutral⟩ := hb.exists_neutral
  obtain rfl := hneutral.eq_nil_of_outside hcontent.symm hne (hrun.symm.trans hu)
  rw [List.nil_append] at hb hcontent
  subst hcontent
  refine ⟨s, b, content, back, rfl, ?_, hb, by rwa [List.append_nil]⟩
  simpa using hv

theorem exists_slot_closing {u v : List Char} {segs : List Segment}
    (h : ofPath? (u ++ ']' :: v) = some segs) (hu : run start u = some ⟨1, none⟩) :
    ∃ (s : Slot) (b : Bracket) (front content : List Char), segs = s.fill b ∧
      u = front ++ '[' :: content ∧ b.From ('[' :: (content ++ [']'])) ∧ s.Between front v := by
  obtain ⟨s, b, front, k, l, back, rfl, rfl, hv, hne, hb, hrun, hslot⟩ :=
    exists_slot_at h (.inr rfl)
  obtain ⟨content, hcontent, hneutral⟩ := hb.exists_neutral
  obtain ⟨c, rest, rfl⟩ := List.exists_cons_of_ne_nil hne
  obtain ⟨rfl, rfl⟩ := List.cons.inj hv
  obtain ⟨rfl, rfl⟩ := hneutral.eq_close hcontent.symm (hrun.symm.trans hu)
  exact ⟨s, b, front, content, rfl, rfl, hb, hslot⟩

section Steps

variable {last : Option Step} {descendant : Bool} {found : List Step}

theorem steps_append_congr {more more' : List Segment}
    (h : ∀ last descendant, steps last descendant more = steps last descendant more')
    (segs : List Segment) :
    steps last descendant (segs ++ more) = steps last descendant (segs ++ more') := by
  rcases steps_prefix last descendant segs with ⟨reason, hreason⟩ | ⟨front, last', -, hmore⟩
  · rw [hreason, hreason]
  · rw [hmore, hmore, h]

theorem steps_dot (d : Bool) (seg : Segment) (rest : List Segment) :
    steps last descendant (.self d :: seg :: rest) =
      steps last (descendant || d) (seg :: rest) := by
  cases hreads : last.any (·.reads.isSome) with
  | true => rw [steps_after_read hreads, steps_after_read hreads]
  | false => exact steps_self d hreads

theorem steps_star (name : String) (rest : List Segment) :
    steps last descendant (.step true .any [] :: .attribute false name :: rest) =
      steps last descendant (.attribute true name :: rest) := by
  cases hreads : last.any (·.reads.isSome) with
  | true => rw [steps_after_read hreads, steps_after_read hreads]
  | false =>
    have hboth : (descendant || true) = true := Bool.or_true descendant
    rw [steps_step .any [] hreads, steps_attribute_alone name hreads (.inr hboth),
      predicates_nil rfl, hboth]
    change Except.map _
      (steps (some ⟨true, .any, none, []⟩) false (.attribute false name :: rest)) = _
    rw [steps_attribute_joins name rfl rfl]
    rfl

theorem Slot.steps_fill {s : Slot} {b b' : Bracket}
    (hmeans : ∀ p, Bracket.Means b p → Bracket.Means b' p)
    (h : steps last descendant (s.fill b) = .ok found) :
    steps last descendant (s.fill b') = .ok found := by
  obtain ⟨front, step, after, rfl, hps, hothers, -⟩ := steps_at h
  obtain ⟨hall, hcount⟩ := predicates_eq_ok_iff.mp hps
  obtain ⟨ps₁, rest, h₁, hrest, hsplit⟩ := forall₂_append_left_iff.mp hall
  obtain ⟨p, ps₂, hp, h₂, rfl⟩ := List.forall₂_cons_left_iff.mp hrest
  have hall' : List.Forall₂ Bracket.Means (s.left ++ b' :: s.right) step.predicates := by
    rw [hsplit]
    exact List.rel_append h₁ (.cons (hmeans p hp) h₂)
  rw [Slot.fill, hothers, predicates_eq_ok_iff.mpr ⟨hall', hcount⟩]
  cases step
  rfl

end Steps

/-- The text is read as segments that are folded into these steps. -/
def FoldsTo (cs : List Char) (found : List Step) : Prop :=
  ∃ segs, ofPath? cs = some segs ∧ steps none false segs = .ok found

section Texts

variable {u v : List Char} {found : List Step}

theorem foldsTo_of_congr {segs more more' : List Segment} {ws ws' : List (List Char)}
    (h : steps none false (segs ++ more) = .ok found) (hsegs : List.Forall₂ Segment.From segs ws)
    (hmore' : List.Forall₂ Segment.From more' ws') (hne : more' ≠ [])
    (hsame : ∀ last descendant, steps last descendant more' = steps last descendant more) :
    FoldsTo (ws.flatten ++ ws'.flatten) found := by
  refine ⟨segs ++ more', ?_, (steps_append_congr hsame segs).trans h⟩
  rw [← List.flatten_append]
  exact ofPath?_flatten (List.rel_append hsegs hmore') (by simp [hne])

theorem foldsTo_dot (h : FoldsTo (u ++ '/' :: v) found) (hu : run start u = some start) :
    FoldsTo (u ++ '/' :: '.' :: '/' :: v) found := by
  obtain ⟨segs, hread, hsteps⟩ := h
  obtain ⟨segs₁, seg, segs₂, ws₁, w, ws₂, h₁, hseg, h₂, hv, ⟨rfl, rfl⟩ | ⟨rfl, -, rfl⟩⟩ :=
    exists_segment_at hread hu
  · have hdot : List.Forall₂ Segment.From (.self false :: seg :: segs₂) (_ :: w :: ws₂) :=
      .cons (.ofSelf false) (.cons hseg h₂)
    have hfolds := foldsTo_of_congr hsteps h₁ hdot (List.cons_ne_nil _ _) fun last descendant => by
      rw [steps_dot, Bool.or_false]
    rw [hv]
    simpa using hfolds
  · have hdot : List.Forall₂ Segment.From (.self true :: seg :: segs₂) (_ :: w :: ws₂) :=
      .cons (.ofSelf true) (.cons hseg h₂)
    have hfolds := foldsTo_of_congr hsteps h₁ hdot (List.cons_ne_nil _ _) fun last descendant => by
      rw [steps_dot, Bool.or_true, steps_doubled]
    rw [hv]
    simpa using hfolds

theorem Segment.From.exists_text {seg : Segment} {w : List Char} (h : seg.From w) :
    ∃ c k, w = '/' :: ((if seg.isDescendant then ['/'] else []) ++ c :: k) ∧ c ≠ '/' ∧
      (c = '@' → ∃ name, IsName name ∧ seg = .attribute seg.isDescendant name ∧
        k = name.toList) := by
  cases h with
  | ofAttribute d hname => exact ⟨_, _, rfl, by decide, fun _ => ⟨_, hname, rfl, rfl⟩⟩
  | ofSelf d => exact ⟨_, _, rfl, by decide, nofun⟩
  | @ofStep d test bs ws htest hbs =>
    obtain ⟨c, k, hdisplay⟩ := List.exists_cons_of_ne_nil (nameTest_consumes htest.read).ne_nil
    obtain ⟨hslash, hat⟩ := nameTest_head htest.read
    rw [hdisplay] at hslash hat ⊢
    exact ⟨c, k ++ ws.flatten, rfl, by simpa using hslash, fun hc => absurd (congrArg some hc) hat⟩

theorem foldsTo_star (h : FoldsTo (u ++ '/' :: '/' :: '@' :: v) found)
    (hu : run start u = some start) :
    FoldsTo (u ++ '/' :: '/' :: '*' :: '/' :: '@' :: v) found := by
  obtain ⟨segs, hread, hsteps⟩ := h
  obtain ⟨segs₁, seg, segs₂, ws₁, w, ws₂, h₁, hseg, h₂, hv, hplace⟩ := exists_segment_at hread hu
  obtain ⟨c, k, rfl, hslash, hname⟩ := hseg.exists_text
  cases hd : seg.isDescendant with
  | false =>
    rw [hd] at hv
    exact absurd (List.cons.inj (List.cons.inj hv).2).1.symm hslash
  | true =>
    rw [hd] at hv hplace hname
    obtain ⟨rfl, rfl⟩ := hplace.resolve_right (by simp)
    obtain ⟨rfl, rfl⟩ := List.cons.inj (List.cons.inj (List.cons.inj hv).2).2
    obtain ⟨name, hlegible, rfl, rfl⟩ := hname rfl
    have hstar : List.Forall₂ Segment.From
        (.step true .any [] :: .attribute false name :: segs₂) (_ :: _ :: ws₂) :=
      .cons (.ofStep true legible_any .nil) (.cons (.ofAttribute false hlegible) h₂)
    have hfolds := foldsTo_of_congr hsteps h₁ hstar (List.cons_ne_nil _ _)
      fun last descendant => steps_star name segs₂
    simpa [NameTest.display] using hfolds

theorem Slot.Between.foldsTo {s : Slot} {b b' : Bracket} {front w back : List Char}
    (hslot : s.Between front back) (h : steps none false (s.fill b) = .ok found) (hw : b'.From w)
    (hmeans : ∀ p, Bracket.Means b p → Bracket.Means b' p) : FoldsTo (front ++ w ++ back) found :=
  ⟨s.fill b', hslot hw, s.steps_fill hmeans h⟩

section Brackets

variable {g g' ds : List Char} (hg : ∀ x ∈ g, isGap x = true) (hg' : ∀ x ∈ g', isGap x = true)

include hg

theorem foldsTo_opening (h : FoldsTo (u ++ '[' :: v) found) (hu : run start u = some start) :
    FoldsTo (u ++ '[' :: (g ++ v)) found := by
  obtain ⟨segs, hread, hsteps⟩ := h
  obtain ⟨s, b, content, back, rfl, rfl, hb, hslot⟩ := exists_slot_opening hread hu
  have hfolds := hslot.foldsTo hsteps (hb.spaced hg (List.forall_mem_nil _)) fun _ => id
  simpa using hfolds

theorem foldsTo_closing (h : FoldsTo (u ++ ']' :: v) found) (hu : run start u = some ⟨1, none⟩) :
    FoldsTo (u ++ (g ++ ']' :: v)) found := by
  obtain ⟨segs, hread, hsteps⟩ := h
  obtain ⟨s, b, front, content, rfl, rfl, hb, hslot⟩ := exists_slot_closing hread hu
  have hfolds := hslot.foldsTo hsteps (hb.spaced (List.forall_mem_nil _) hg) fun _ => id
  simpa using hfolds

include hg'

theorem foldsTo_zeros (hne : ds ≠ []) (hds : ∀ x ∈ ds, Decimal.isDigit x = true) (n : Nat)
    (h : FoldsTo (u ++ '[' :: (g ++ ds ++ g' ++ ']' :: v)) found) (hu : run start u = some start) :
    FoldsTo (u ++ '[' :: (g ++ (List.replicate n '0' ++ ds) ++ g' ++ ']' :: v)) found := by
  obtain ⟨segs, hread, hsteps⟩ := h
  obtain ⟨s, b, content, back, rfl, hv, hb, hslot⟩ := exists_slot_opening hread hu
  -- What the brackets have been read as is what the digits are read as.
  have hdigits := (content_of_digits hne hds).spaced hg hg'
  obtain ⟨rfl, rfl⟩ := hdigits.unique hb (by simpa using hv)
  have hzeros : ∀ x ∈ List.replicate n '0' ++ ds, Decimal.isDigit x = true := by
    rw [List.forall_mem_append]
    refine ⟨?_, hds⟩
    intro x hx
    rw [List.eq_of_mem_replicate hx]
    rfl
  have hvalue : Decimal.ofDigits (List.replicate n '0' ++ ds) = Decimal.ofDigits ds := by
    rw [Decimal.ofDigits_append, Decimal.ofDigits_zeros, Nat.zero_mul, Nat.zero_add]
  have hwritten := (content_of_digits (by simp [hne]) hzeros).spaced hg hg'
  have hfolds := hslot.foldsTo hsteps hwritten fun p hp => by
    simpa only [Bracket.Means, String.toList_ofList, hvalue] using hp
  simpa using hfolds

end Brackets

end Texts

end Surface

open Surface

theorem parse_eq_ok_iff_foldsTo {path : String} {found : List Step} :
    parse path = .ok found ↔ FoldsTo path.toList found ∧ found ≠ [] := by
  rw [parse_eq_ok]
  simp only [FoldsTo, ← and_assoc, exists_and_right]

/-- The text ends outside of all brackets. -/
def Outside (text : String) : Prop := run start text.toList = some start

/-- The text ends in brackets that are in no others, and in no quotation. -/
def InBrackets (text : String) : Prop := run start text.toList = some ⟨1, none⟩

/-- The text consists of spaces, tabs and line breaks. -/
def IsPadding (text : String) : Prop := ∀ c ∈ text.toList, isGap c = true

/-- The text consists of digits, of one at least. -/
def IsNumeral (text : String) : Prop :=
  text.toList ≠ [] ∧ ∀ c ∈ text.toList, Decimal.isDigit c = true

instance (text : String) : Decidable (Outside text) := inferInstanceAs (Decidable (_ = _))

instance (text : String) : Decidable (InBrackets text) := inferInstanceAs (Decidable (_ = _))

instance (text : String) : Decidable (IsPadding text) := List.decidableBAll _ _

instance (text : String) : Decidable (IsNumeral text) :=
  have := List.decidableBAll (Decimal.isDigit · = true) text.toList
  inferInstanceAs (Decidable (_ ∧ _))

/-- One change in how a path is spelled, at a place outside of predicates or at the edge of one. The
slash of a dot may be any: a double slash has a dot put behind it where it is the second of the two,
and before it where it is the first. -/
inductive Respelled : String → String → Prop
  | dot (front rest : String) : Outside front →
      Respelled (front ++ "/" ++ rest) (front ++ "/./" ++ rest)
  | star (front rest : String) : Outside front →
      Respelled (front ++ "//@" ++ rest) (front ++ "//*/@" ++ rest)
  | opening (front padding rest : String) : Outside front → IsPadding padding →
      Respelled (front ++ "[" ++ rest) (front ++ "[" ++ padding ++ rest)
  | closing (front padding rest : String) : InBrackets front → IsPadding padding →
      Respelled (front ++ "]" ++ rest) (front ++ padding ++ "]" ++ rest)
  | zeros (front padding digits padding' rest : String) (n : Nat) : Outside front →
      IsPadding padding → IsNumeral digits → IsPadding padding' →
      Respelled (front ++ "[" ++ padding ++ digits ++ padding' ++ "]" ++ rest)
        (front ++ "[" ++ padding ++ String.ofList (List.replicate n '0') ++ digits ++ padding' ++
          "]" ++ rest)

theorem Respelled.foldsTo {p q : String} {found : List Step} (h : Respelled p q)
    (hp : FoldsTo p.toList found) : FoldsTo q.toList found := by
  cases h with
  | dot front rest hfront =>
    simpa using foldsTo_dot (u := front.toList) (v := rest.toList) (by simpa using hp) hfront
  | star front rest hfront =>
    simpa using foldsTo_star (u := front.toList) (v := rest.toList) (by simpa using hp) hfront
  | opening front padding rest hfront hpadding =>
    simpa using foldsTo_opening (u := front.toList) (v := rest.toList) hpadding
      (by simpa using hp) hfront
  | closing front padding rest hfront hpadding =>
    simpa using foldsTo_closing (u := front.toList) (v := rest.toList) hpadding
      (by simpa using hp) hfront
  | zeros front padding digits padding' rest n hfront hpadding hdigits hpadding' =>
    simpa using foldsTo_zeros (u := front.toList) (v := rest.toList) hpadding hpadding' hdigits.1
      hdigits.2 n (by simpa using hp) hfront

/-- However often the spelling of a path is changed, it is read as the same steps. -/
theorem parse_respelled {p q : String} {found : List Step} (h : parse p = .ok found)
    (hq : Relation.ReflTransGen Respelled p q) : parse q = .ok found := by
  obtain ⟨hfolds, hne⟩ := parse_eq_ok_iff_foldsTo.mp h
  refine parse_eq_ok_iff_foldsTo.mpr ⟨?_, hne⟩
  induction hq with
  | refl => exact hfolds
  | tail _ hstep ih => exact hstep.foldsTo ih

/-- A star, dots behind a double slash, before it and at the front, and blanks and zeros in the
brackets of a step. -/
theorem parse_respelled_everywhere :
    ∃ found, parse "/a[7][@b = c d]//@k" = .ok found ∧
      found.map Step.display = ["a[7][@b = c d]", "/*/@k"] ∧
      parse "/./a[ 007][@b = c d\t]/.//./*/@k" = .ok found := by
  have hstar : Respelled "/a[7][@b = c d]//@k" "/a[7][@b = c d]//*/@k" :=
    .star "/a[7][@b = c d]" "k" (by decide)
  have hbehind : Respelled "/a[7][@b = c d]//*/@k" "/a[7][@b = c d]//./*/@k" :=
    .dot "/a[7][@b = c d]/" "*/@k" (by decide)
  have hbefore : Respelled "/a[7][@b = c d]//./*/@k" "/a[7][@b = c d]/.//./*/@k" :=
    .dot "/a[7][@b = c d]" "/./*/@k" (by decide)
  have hfirst : Respelled "/a[7][@b = c d]/.//./*/@k" "/./a[7][@b = c d]/.//./*/@k" :=
    .dot "" "a[7][@b = c d]/.//./*/@k" (by decide)
  have hopening : Respelled "/./a[7][@b = c d]/.//./*/@k" "/./a[ 7][@b = c d]/.//./*/@k" :=
    .opening "/./a" " " "7][@b = c d]/.//./*/@k" (by decide) (by decide)
  have hzeros : Respelled "/./a[ 7][@b = c d]/.//./*/@k" "/./a[ 007][@b = c d]/.//./*/@k" :=
    .zeros "/./a" " " "7" "" "[@b = c d]/.//./*/@k" 2 (by decide) (by decide) (by decide)
      (by decide)
  have hclosing : Respelled "/./a[ 007][@b = c d]/.//./*/@k" "/./a[ 007][@b = c d\t]/.//./*/@k" :=
    .closing "/./a[ 007][@b = c d" "\t" "/.//./*/@k" (by decide) (by decide)
  have hread : (parse "/a[7][@b = c d]//@k").toOption.map (·.map Step.display) =
      some ["a[7][@b = c d]", "/*/@k"] := by
    decide +kernel
  obtain ⟨found, hfound, hdisplay⟩ := Option.map_eq_some_iff.mp hread
  rw [toOption_eq_some_iff] at hfound
  exact ⟨found, hfound, hdisplay, parse_respelled hfound
    (.tail (.tail (.tail (.tail (.tail (.tail (.single hstar) hbehind) hbefore) hfirst) hopening)
      hzeros) hclosing)⟩

end Path

end MarkupTree

import Mathlib.Data.List.DropRight
import MarkupTree.Proofs.Path.Printing

/-!
# The text of what has been read

Every result of a reader can be followed back to its characters. A segment was written as its test
and its brackets, brackets hold a position or a condition with blanks around it, and what is not
blank at the ends of a condition belongs to its operands. What has been read of a text does not say
how deep in brackets it stood, so all of this holds at every depth.
-/

set_option autoImplicit false

namespace MarkupTree.Path.Surface

/-- The text is what a reader takes for an item off some longer text. -/
def Reads {α : Type} (p : Parser α) (x : α) (w : List Char) : Prop :=
  ∃ v, p (w ++ v) = some (x, v)

section Repetition

variable {α : Type} {item : Parser α}

theorem Consumes.exists_reads (hitem : Consumes item) {cs rest : List Char} {x : α}
    (h : item cs = some (x, rest)) : ∃ w, cs = w ++ rest ∧ Reads item x w := by
  obtain ⟨w, -, rfl⟩ := (hitem h).exists_taken
  exact ⟨w, rfl, rest, h⟩

theorem repeated_reads (hitem : Consumes item) {fuel : Nat} {cs rest : List Char} {xs : List α}
    (h : repeated item fuel cs = (xs, rest)) :
    ∃ ws, cs = ws.flatten ++ rest ∧ List.Forall₂ (Reads item) xs ws := by
  induction fuel generalizing cs xs with
  | zero =>
    cases h
    exact ⟨[], rfl, .nil⟩
  | succ fuel ih =>
    cases hread : item cs with
    | none =>
      rw [repeated_of_none hread] at h
      cases h
      exact ⟨[], rfl, .nil⟩
    | some found =>
      obtain ⟨x, mid⟩ := found
      rw [repeated_of_some hread] at h
      obtain ⟨rfl, hrest⟩ := Prod.mk.inj h
      obtain ⟨w, rfl, hw⟩ := hitem.exists_reads hread
      obtain ⟨ws, rfl, hws⟩ := ih (Prod.ext rfl hrest)
      exact ⟨w :: ws, by simp, .cons hw hws⟩

end Repetition

theorem exists_reads_of_mem {α : Type} {item : Parser α} {xs : List α} {ws : List (List Char)}
    (h : List.Forall₂ (Reads item) xs ws) : ∀ w ∈ ws, ∃ x, Reads item x w := by
  induction h with
  | nil => nofun
  | cons hw _ ih => exact List.forall_mem_cons.mpr ⟨⟨_, hw⟩, ih⟩

section Names

variable {w : List Char}

theorem text_of_qualifiedName {name : String} (h : Reads qualifiedName name w) :
    w = name.toList := by
  obtain ⟨v, h⟩ := h
  obtain ⟨-, rfl, hrest⟩ := qualifiedName_eq_some h
  have hrun := nameRun_append (w ++ v)
  rw [← hrest] at hrun
  rw [String.toList_ofList, List.append_cancel_right hrun]

theorem text_of_localName {name : String} (h : Reads localName name w) : w = name.toList := by
  obtain ⟨v, h⟩ := h
  unfold localName at h
  split at h
  · obtain ⟨rfl, hrest⟩ := Prod.mk.inj (Option.some.inj h)
    have hrun := List.takeWhile_append_dropWhile (p := isNameChar) (l := w ++ v)
    rw [hrest] at hrun
    rw [String.toList_ofList, List.append_cancel_right hrun]
  · cases h

theorem text_of_nameTest {test : NameTest} (h : Reads nameTest test w) :
    w = test.display.toList := by
  obtain ⟨v, h⟩ := h
  rcases nameTest_eq_some h with ⟨rfl, hcs⟩ | ⟨after, name, hcs, hname, rfl⟩ | ⟨hcs, rfl⟩ |
    ⟨name, hname, rfl⟩
  · exact List.append_cancel_right hcs
  · obtain ⟨k, rfl, hk⟩ := localName_consumes.exists_reads hname
    have hcs : w ++ v = ('*' :: ':' :: k) ++ v := hcs
    rw [List.append_cancel_right hcs, text_of_localName hk]
    simp [NameTest.display]
  · have hcs : w ++ v = ['*'] ++ v := hcs
    exact List.append_cancel_right hcs
  · exact text_of_qualifiedName ⟨v, hname⟩

theorem mem_display {test : NameTest} (h : test.Legible) :
    ∀ c ∈ test.display.toList, isNameChar c = true ∨ c ∈ [':', '*', '(', ')'] := by
  rcases nameTest_eq_some h.read with ⟨rfl, -⟩ | ⟨after, name, -, hname, rfl⟩ | ⟨-, rfl⟩ |
    ⟨name, hname, rfl⟩
  · have hall : (NameTest.text.display.toList.all fun c =>
        isNameChar c || [':', '*', '(', ')'].contains c) = true := by decide
    intro c hc
    simpa using List.all_eq_true.mp hall c hc
  · have hdisplay : (NameTest.anyNamespace name).display.toList = '*' :: ':' :: name.toList := by
      simp [NameTest.display]
    rw [hdisplay, List.forall_mem_cons, List.forall_mem_cons]
    exact ⟨.inr (by simp), .inr (by simp), fun c hc => .inl ((localName_of_localName hname).2 c hc)⟩
  · intro c hc
    obtain rfl : c = '*' := by simpa [NameTest.display] using hc
    exact .inr (by simp)
  · intro c hc
    exact ((isName_of_qualifiedName hname).mem hc).imp_right (by rintro rfl; simp)

end Names

section Segments

variable {c : Parser Condition} (hc : Consumes c) {w : List Char} {seg : Segment}

include hc

theorem text_of_segment {d : Bool} (h : Reads (segment c d) seg w) :
    (∃ name, seg = .attribute d name ∧ IsName name ∧ w = '@' :: name.toList) ∨
      (seg = .self d ∧ w = ['.']) ∨
      ∃ test bs ws, seg = .step d test bs ∧ test.Legible ∧
        List.Forall₂ (Reads (bracket c)) bs ws ∧ w = test.display.toList ++ ws.flatten := by
  obtain ⟨v, h⟩ := h
  rcases segment_eq_some.mp h with ⟨after, name, hcs, hname, rfl⟩ | ⟨hcs, -, rfl⟩ | ⟨hdot, -, h⟩
  · obtain ⟨k, rfl, hk⟩ := qualifiedName_consumes.exists_reads hname
    have hcs : w ++ v = ('@' :: k) ++ v := hcs
    obtain rfl := text_of_qualifiedName hk
    exact .inl ⟨name, rfl, isName_of_qualifiedName hname, List.append_cancel_right hcs⟩
  · have hcs : w ++ v = ['.'] ++ v := hcs
    exact .inr (.inl ⟨rfl, List.append_cancel_right hcs⟩)
  · obtain ⟨test, after, htest, rfl, hafter⟩ := named_eq_some.mp h
    obtain ⟨t, hcs, ht⟩ := nameTest_consumes.exists_reads htest
    obtain ⟨ws, rfl, hws⟩ := repeated_reads (bracket_consumes hc)
      (show brackets c after = (_, v) from Prod.ext rfl hafter.symm)
    rw [← List.append_assoc] at hcs
    obtain rfl := text_of_nameTest ht
    have hlegible := legible_of_nameTest htest hdot
    exact .inr (.inr ⟨test, _, ws, rfl, hlegible, hws, List.append_cancel_right hcs⟩)

theorem text_of_separated (h : Reads (separated c) seg w) :
    ∃ d k, Reads (segment c d) seg k ∧ w = '/' :: ((if d then ['/'] else []) ++ k) := by
  obtain ⟨v, h⟩ := h
  obtain ⟨d, after, hsep, hseg⟩ := separated_eq_some.mp h
  obtain ⟨k, rfl, hk⟩ := (segment_consumes hc d).exists_reads hseg
  refine ⟨d, k, hk, ?_⟩
  rcases separator_eq_some.mp hsep with ⟨rfl, hcs⟩ | ⟨rfl, hcs, -⟩
  · have hcs : w ++ v = ('/' :: '/' :: k) ++ v := hcs
    exact List.append_cancel_right hcs
  · have hcs : w ++ v = ('/' :: k) ++ v := hcs
    exact List.append_cancel_right hcs

theorem text_of_segments {segs : List Segment} (h : Reads (segments c) segs w) :
    ∃ first rest k ws, segs = first :: rest ∧ Reads (segment c false) first k ∧
      List.Forall₂ (Reads (separated c)) rest ws ∧ w = k ++ ws.flatten := by
  obtain ⟨v, h⟩ := h
  obtain ⟨first, after, hfirst, rfl, hafter⟩ := segments_eq_some.mp h
  obtain ⟨k, hcs, hk⟩ := (segment_consumes hc false).exists_reads hfirst
  obtain ⟨ws, rfl, hws⟩ := repeated_reads (separated_consumes hc)
    (show repeated (separated c) after.length after = (_, v) from Prod.ext rfl hafter.symm)
  rw [← List.append_assoc] at hcs
  exact ⟨first, _, k, ws, rfl, hk, hws, List.append_cancel_right hcs⟩

theorem text_of_bracket {b : Bracket} (h : Reads (bracket c) b w) :
    ∃ g k g', w = '[' :: (g ++ k ++ g' ++ [']']) ∧ (∀ x ∈ g, isGap x = true) ∧
      (∀ x ∈ g', isGap x = true) ∧
      ((∃ digits, b = .position digits ∧ k = digits.toList ∧ k ≠ [] ∧
          ∀ x ∈ k, Decimal.isDigit x = true) ∨
        ∃ written v, b = .condition written ∧ Closes v ∧ c (k ++ v) = some (written, v) ∧
          ∀ x ∈ k.head?, isGap x = false) := by
  obtain ⟨v, h⟩ := h
  obtain ⟨g, k, g', rfl, hg, hg', hne, hhead, h⟩ := bracket_content hc h
  refine ⟨g, k, g', rfl, hg, hg', ?_⟩
  rcases h with ⟨digits, hpos, rfl⟩ | ⟨-, written, hwritten, rfl⟩
  · obtain ⟨hdigits, hrest, -, -⟩ := position_eq_some hpos
    have htake := List.takeWhile_append_dropWhile (p := Decimal.isDigit) (l := k ++ (g' ++ ']' :: v))
    rw [← hrest] at htake
    have hall := List.append_cancel_right htake
    rw [hall] at hdigits
    refine .inl ⟨digits, rfl, by rw [hdigits, String.toList_ofList], hne, ?_⟩
    rw [← hall]
    exact fun x hx => List.mem_takeWhile_imp hx
  · have hclose : Closes (g' ++ ']' :: v) := closes_append_of_gap hg' rfl
    exact .inr ⟨written, _, rfl, hclose, hwritten, hhead⟩

end Segments

/-- Nothing but name characters stands before the rest. -/
def NamesUpTo (cs rest : List Char) : Prop := ∃ w, cs = w ++ rest ∧ ∀ c ∈ w, isNameChar c = true

namespace NamesUpTo

variable {cs mid rest : List Char}

theorem refl (cs : List Char) : NamesUpTo cs cs := ⟨[], rfl, nofun⟩

theorem trans (h : NamesUpTo cs mid) (h' : NamesUpTo mid rest) : NamesUpTo cs rest := by
  obtain ⟨w, rfl, hw⟩ := h
  obtain ⟨w', rfl, hw'⟩ := h'
  exact ⟨w ++ w', by simp, List.forall_mem_append.mpr ⟨hw, hw'⟩⟩

theorem cons {c : Char} (hc : isNameChar c = true) (h : NamesUpTo cs rest) :
    NamesUpTo (c :: cs) rest := by
  obtain ⟨w, rfl, hw⟩ := h
  exact ⟨c :: w, rfl, List.forall_mem_cons.mpr ⟨hc, hw⟩⟩

theorem dropDigits (cs : List Char) : NamesUpTo cs (cs.dropWhile Decimal.isDigit) :=
  ⟨_, List.takeWhile_append_dropWhile.symm,
    fun _ hc => isNameChar_of_isDigit (List.mem_takeWhile_imp hc)⟩

end NamesUpTo

theorem namesUpTo_sign (cs : List Char) : NamesUpTo cs (Decimal.sign cs).2 := by
  unfold Decimal.sign
  split
  · exact (NamesUpTo.refl _).cons (by decide)
  · exact (NamesUpTo.refl _).cons (by decide)
  · exact .refl cs

theorem namesUpTo_skipExponent (cs : List Char) : NamesUpTo cs (skipExponent cs) := by
  unfold skipExponent
  split
  · next c rest =>
    split
    · next hc =>
      have hname : isNameChar c = true := by
        simp only [Bool.or_eq_true, beq_iff_eq] at hc
        rcases hc with rfl | rfl <;> decide
      dsimp only
      split
      · exact ((namesUpTo_sign rest).trans (.dropDigits _)).cons hname
      · exact .refl _
    · exact .refl _
  · exact .refl _

theorem namesUpTo_skipMantissa? {cs rest : List Char} (h : skipMantissa? cs = some rest) :
    NamesUpTo cs rest := by
  have hpoint : ∀ after, NamesUpTo ('.' :: after) (after.dropWhile Decimal.isDigit) :=
    fun after => (NamesUpTo.dropDigits after).cons (by decide)
  unfold skipMantissa? at h
  split at h
  · have hdigits := NamesUpTo.dropDigits cs
    split at h
    · next after hafter =>
      cases h
      rw [hafter] at hdigits
      exact hdigits.trans (hpoint after)
    · cases h
      exact hdigits
  · split at h
    · split at h
      · cases h
        exact hpoint _
      · cases h
    · cases h

theorem isNameChar_of_number {x : Operand} {w : List Char} (h : Reads number x w) :
    ∀ c ∈ w, isNameChar c = true := by
  obtain ⟨v, h⟩ := h
  obtain ⟨-, mid, hrest, hmid⟩ := number_eq_some h
  have hnames : NamesUpTo (w ++ v) mid := by
    rcases hmid with hmid | ⟨unsigned, hcs, hmid⟩
    · exact namesUpTo_skipMantissa? hmid
    · rw [hcs]
      exact (namesUpTo_skipMantissa? hmid).cons (by decide)
  have hall := hnames.trans (namesUpTo_skipExponent mid)
  rw [← hrest] at hall
  obtain ⟨k, hk, hall⟩ := hall
  rwa [List.append_cancel_right hk]

theorem isBlank_of_isGap {c : Char} (h : isGap c = true) : Text.isBlank c = true := by
  simp only [isGap, Bool.or_eq_true, beq_iff_eq] at h
  rcases h with ((rfl | rfl) | rfl) | rfl <;> decide

theorem not_isGap_of_not_isBlank {c : Char} (h : Text.isBlank c = false) : isGap c = false := by
  cases hgap : isGap c with
  | false => rfl
  | true => exact absurd (isBlank_of_isGap hgap) (by simp [h])

theorem endsInk_flatten {ws : List (List Char)} (h : ∀ w ∈ ws, EndsInk w) : EndsInk ws.flatten := by
  induction ws with
  | nil => nofun
  | cons w ws ih =>
    rw [List.forall_mem_cons] at h
    exact h.1.append (ih h.2)

/-- Texts that trimming leaves as they are. -/
def Inked (w : List Char) : Prop := w ≠ [] ∧ (∀ c ∈ w.head?, Text.isBlank c = false) ∧ EndsInk w

theorem inked_of_forall {w : List Char} (hne : w ≠ []) (h : ∀ c ∈ w, Text.isBlank c = false) :
    Inked w := by
  refine ⟨hne, ?_, endsInk_of_forall h⟩
  exact fun c hc => h c (List.mem_of_head? hc)

theorem Inked.append {w w' : List Char} (h : Inked w) (h' : EndsInk w') : Inked (w ++ w') := by
  refine ⟨by simp [h.1], ?_, h.2.2.append h'⟩
  rw [List.head?_append_of_ne_nil _ h.1]
  exact h.2.1

theorem Inked.trim_eq {w : List Char} (h : Inked w) : Text.trim w = w := trim_eq_self h.2.1 h.2.2

section Ink

variable {c : Parser Condition} (hc : Consumes c)

include hc

theorem endsInk_of_bracket {b : Bracket} {w : List Char} (h : Reads (bracket c) b w) :
    EndsInk w := by
  obtain ⟨g, k, g', rfl, -⟩ := text_of_bracket hc h
  intro x hx
  rw [← List.cons_append, List.getLast?_concat] at hx
  cases hx
  rfl

theorem inked_of_segment {d : Bool} {seg : Segment} {w : List Char}
    (h : Reads (segment c d) seg w) : Inked w := by
  rcases text_of_segment hc h with ⟨name, -, hname, rfl⟩ | ⟨-, rfl⟩ |
    ⟨test, bs, ws, -, htest, hws, rfl⟩
  · apply inked_of_forall (List.cons_ne_nil _ _)
    rw [List.forall_mem_cons]
    exact ⟨rfl, hname.not_isBlank⟩
  · exact inked_of_forall (List.cons_ne_nil _ _) (not_isBlank_of_all (by decide))
  · have hne : test.display.toList ≠ [] := (nameTest_consumes htest.read).ne_nil
    apply (inked_of_forall hne htest.not_isBlank).append
    apply endsInk_flatten
    intro w hw
    obtain ⟨b, hb⟩ := exists_reads_of_mem hws w hw
    exact endsInk_of_bracket hc hb

theorem endsInk_of_separated {seg : Segment} {w : List Char} (h : Reads (separated c) seg w) :
    EndsInk w := by
  obtain ⟨d, k, hk, rfl⟩ := text_of_separated hc h
  have hslashes : EndsInk ('/' :: if d then ['/'] else []) := by
    cases d <;> exact endsInk_of_forall (not_isBlank_of_all (by decide))
  exact hslashes.append (inked_of_segment hc hk).2.2

theorem inked_of_segments {segs : List Segment} {w : List Char} (h : Reads (segments c) segs w) :
    Inked w := by
  obtain ⟨first, rest, k, ws, -, hk, hws, rfl⟩ := text_of_segments hc h
  apply (inked_of_segment hc hk).append
  apply endsInk_flatten
  intro w hw
  obtain ⟨seg, hseg⟩ := exists_reads_of_mem hws w hw
  exact endsInk_of_separated hc hseg

theorem last_of_operand {x : Operand} {w v : List Char} (hv : stops v = true)
    (h : operand c (w ++ v) = some (x, v)) : ∀ y ∈ w.getLast?, isGap y = false := by
  have hink : EndsInk w → ∀ y ∈ w.getLast?, isGap y = false :=
    fun hw y hy => not_isGap_of_not_isBlank (hw y hy)
  rcases operand_eq_some.mp h with h | ⟨-, h | ⟨-, h | ⟨-, h⟩⟩⟩
  · obtain ⟨q, content, hq, -, hcs, -⟩ := quoted_eq_some.mp (ending_eq_some.mp h).1
    obtain rfl := List.append_cancel_right hcs
    intro y hy
    rw [List.getLast?_concat] at hy
    cases hy
    rcases hq with rfl | rfl <;> rfl
  · have hnames := isNameChar_of_number ⟨v, (ending_eq_some.mp h).1⟩
    exact hink (endsInk_of_forall fun y hy => not_isBlank_of_isNameChar (hnames y hy))
  · obtain ⟨segs, hsegs, -⟩ := path_eq_some.mp (ending_eq_some.mp h).1
    exact hink (inked_of_segments hc ⟨v, hsegs⟩).2.2
  · obtain ⟨-, hrun, -⟩ := bare_append_eq_some.mp h
    intro y hy
    obtain ⟨a, rfl⟩ := List.getLast?_eq_some_iff.mp hy
    obtain ⟨hstops, -⟩ := bareRun_split hrun
    cases hgap : isGap y with
    | false => rfl
    | true =>
      have hskip : stops (y :: ([] ++ v)) = stops v := by
        simp [stops, skipGap, hgap]
      rw [hskip, hv] at hstops
      cases hstops

end Ink

theorem exists_gap (cs : List Char) :
    ∃ g, cs = g ++ skipGap cs ∧ ∀ x ∈ g, isGap x = true :=
  ⟨cs.takeWhile isGap, List.takeWhile_append_dropWhile.symm, fun _ hx => List.mem_takeWhile_imp hx⟩

/-- An operator with blanks around it, before a text that neither goes on with the blanks nor with
the operator. -/
def Compares (op : Comparison) (front r : List Char) : Prop :=
  ∃ g g', front = g ++ op.symbol.toList ++ g' ∧ (∀ y ∈ g, isGap y = true) ∧
    (∀ y ∈ g', isGap y = true) ∧ (∀ y ∈ r.head?, isGap y = false) ∧
      (op = .less ∨ op = .greater → (g' ++ r).head? ≠ some '=')

theorem Compares.of_head {op : Comparison} {front r r' : List Char} (h : Compares op front r)
    (hr : r'.head? = r.head?) : Compares op front r' := by
  obtain ⟨g, g', hfront, hg, hg', hhead, hequal⟩ := h
  refine ⟨g, g', hfront, hg, hg', hr ▸ hhead, ?_⟩
  rw [List.head?_append, hr, ← List.head?_append]
  exact hequal

theorem comparand_iff {c : Parser Condition} (hc : Consumes c) {op : Comparison} {x : Operand}
    {w v : List Char} :
    comparand c (w ++ v) = some ((op, x), v) ↔
      ∃ front r, w = front ++ r ∧ r ≠ [] ∧ Compares op front r ∧
        operand c (r ++ v) = some (x, v) := by
  rw [comparand_eq_some]
  constructor
  · rintro ⟨mid, hop, hrhs⟩
    obtain ⟨g, hg, hgap⟩ := exists_gap (w ++ v)
    obtain ⟨g', hg', hgap'⟩ := exists_gap mid
    obtain ⟨r, hr, hmid⟩ := (operand_consumes hc hrhs).exists_taken
    obtain ⟨hcs, hequal⟩ := comparison_eq_some.mp hop
    rw [hmid] at hrhs hg'
    rw [hcs, hg'] at hg
    have hw : w ++ v = (g ++ op.symbol.toList ++ g' ++ r) ++ v := by simpa using hg
    refine ⟨g ++ op.symbol.toList ++ g', r, List.append_cancel_right hw, hr,
      ⟨g, g', rfl, hgap, hgap', ?_, ?_⟩, hrhs⟩
    · intro y hy
      obtain ⟨r, rfl⟩ := List.head?_eq_some_iff.mp hy
      exact isGap_of_skipGap hmid
    · rw [hg', ← List.append_assoc, List.head?_append_of_ne_nil _ (by simp [hr])] at hequal
      exact hequal
  · rintro ⟨front, r, rfl, hr, ⟨g, g', rfl, hg, hg', hhead, hequal⟩, hrhs⟩
    have hsymbol : skipGap (op.symbol.toList ++ (g' ++ (r ++ v))) =
        op.symbol.toList ++ (g' ++ (r ++ v)) := by cases op <;> rfl
    refine ⟨g' ++ (r ++ v), comparison_eq_some.mpr ⟨?_, ?_⟩, ?_⟩
    · rw [← hsymbol, List.append_assoc, List.append_assoc, List.append_assoc]
      exact skipGap_append_of_gap hg _
    · rw [← List.append_assoc, List.head?_append_of_ne_nil _ (by simp [hr])]
      exact hequal
    · rw [skipGap_append_of_gap hg', skipGap_of_head hr hhead]
      exact hrhs

theorem text_of_condition {d : Nat} {x : Condition} {k v : List Char}
    (h : condition (d + 1) (k ++ v) = some (x, v)) :
    ∃ lhs l m, k = l ++ m ∧ l ≠ [] ∧ operand (condition d) (l ++ (m ++ v)) = some (lhs, m ++ v) ∧
      ((∃ op rhs, comparand (condition d) (m ++ v) = some ((op, rhs), v) ∧
          x = .comparison (String.ofList k) lhs op rhs) ∨
        (m = [] ∧ comparand (condition d) v = none ∧ x = .single (String.ofList k) lhs)) := by
  have hc := condition_consumes d
  obtain ⟨lhs, mid, hlhs, h⟩ := condition_succ_eq_some.mp h
  obtain ⟨l, hl, hcs⟩ := (operand_consumes hc hlhs).exists_taken
  rcases h with ⟨op, rhs, hcmp, rfl⟩ | ⟨hcmp, rfl, rfl⟩
  · obtain ⟨m, -, rfl⟩ := (comparand_consumes hc hcmp).exists_taken
    have hk : k ++ v = (l ++ m) ++ v := by rw [hcs, List.append_assoc]
    rw [hcs] at hlhs
    refine ⟨lhs, l, m, List.append_cancel_right hk, hl, hlhs, .inl ⟨op, rhs, hcmp, ?_⟩⟩
    rw [taken_append]
  · obtain rfl := List.append_cancel_right hcs
    refine ⟨lhs, k, [], (List.append_nil k).symm, hl, hlhs, .inr ⟨rfl, hcmp, ?_⟩⟩
    rw [taken_append]

theorem last_of_condition {d : Nat} {x : Condition} {k v : List Char} (hv : Closes v)
    (h : condition d (k ++ v) = some (x, v)) : ∀ y ∈ k.getLast?, isGap y = false := by
  cases d with
  | zero => cases h
  | succ d =>
    have hc := condition_consumes d
    have hstops := stops_of_closes hv
    obtain ⟨lhs, l, m, rfl, -, hlhs, ⟨op, rhs, hcmp, -⟩ | ⟨rfl, -, -⟩⟩ := text_of_condition h
    · obtain ⟨front, r, rfl, hr, -, hrhs⟩ := (comparand_iff hc).mp hcmp
      rw [← List.append_assoc, List.getLast?_append_of_ne_nil _ hr]
      exact last_of_operand hc hstops hrhs
    · rw [List.append_nil]
      exact last_of_operand hc hstops hlhs

theorem rdropWhile_append_of_gap {k g : List Char} (hg : ∀ x ∈ g, isGap x = true)
    (hlast : ∀ x ∈ k.getLast?, isGap x = false) : (k ++ g).rdropWhile isGap = k := by
  have hhead : ∀ x ∈ k.reverse.head?, isGap x = false := by
    rw [List.head?_reverse]
    exact hlast
  have hdrop : k.reverse.dropWhile isGap = k.reverse := dropWhile_append_of_head hhead []
  rw [List.rdropWhile, List.reverse_append, List.dropWhile_append_of_pos, hdrop,
    List.reverse_reverse]
  exact fun x hx => hg x (List.mem_reverse.mp hx)

/-- A text without the blanks that may stand at its ends in brackets. -/
def trimGap (cs : List Char) : List Char := (skipGap cs).rdropWhile isGap

theorem trimGap_of_ends {g k g' : List Char} (hg : ∀ x ∈ g, isGap x = true)
    (hg' : ∀ x ∈ g', isGap x = true) (hk : k ≠ []) (hhead : ∀ x ∈ k.head?, isGap x = false)
    (hlast : ∀ x ∈ k.getLast?, isGap x = false) : trimGap (g ++ k ++ g') = k := by
  have hfront : skipGap (g ++ k ++ g') = k ++ g' := by
    rw [List.append_assoc, skipGap_append_of_gap hg, skipGap_of_head hk hhead]
  rw [trimGap, hfront, rdropWhile_append_of_gap hg' hlast]

/-- The text of what stands in brackets, without the blanks around it. -/
def Bracket.text : Bracket → String
  | .position digits => digits
  | .condition written => written.source

/-- A pair of brackets around a content that is, but for blanks, the text of what it is read as. -/
theorem content_of_bracket {d : Nat} {b : Bracket} {w : List Char}
    (h : Reads (bracket (condition d)) b w) :
    ∃ content, w = '[' :: (content ++ [']']) ∧ trimGap content = b.text.toList ∧
      ∀ digits, b = .position digits →
        digits.toList ≠ [] ∧ ∀ x ∈ digits.toList, Decimal.isDigit x = true := by
  obtain ⟨g, k, g', rfl, hg, hg', hcontent⟩ := text_of_bracket (condition_consumes d) h
  refine ⟨g ++ k ++ g', rfl, ?_⟩
  rcases hcontent with ⟨digits, rfl, rfl, hne, hdigits⟩ | ⟨written, v, rfl, hv, hread, hhead⟩
  · have hink : ∀ x ∈ digits.toList, isGap x = false :=
      fun x hx => not_isGap_of_isDigit (hdigits x hx)
    refine ⟨?_, by rintro _ ⟨⟩; exact ⟨hne, hdigits⟩⟩
    exact trimGap_of_ends hg hg' hne (fun x hx => hink x (List.mem_of_head? hx))
      fun x hx => hink x (List.mem_of_getLast? hx)
  · have hne := (condition_consumes d hread).ne_nil_of_append
    refine ⟨?_, nofun⟩
    rw [trimGap_of_ends hg hg' hne hhead (last_of_condition hv hread), Bracket.text,
      source_of_condition hread, String.toList_ofList]

end MarkupTree.Path.Surface

import MarkupTree.Proofs.Path.Folding
import MarkupTree.Proofs.Path.Legible
import MarkupTree.Proofs.Path.Words

/-!
# What messages explain

The grammar that messages are made from refuses just the texts that the readers refuse. So a message
never explains a text that its own grammar accepts, and every text that the grammar does not accept
is refused for its form, before anything else in it is looked at.
-/

set_option autoImplicit false

namespace MarkupTree.Path

namespace Surface

open Grammar

theorem length_of_leftBy {α : Type} {p : Parser α} (hp : Consumes p) {cs rest : List Char}
    (h : leftBy p cs = some rest) : rest.length < cs.length := by
  obtain ⟨⟨x, left⟩, hread, rfl⟩ := Option.map_eq_some_iff.mp h
  exact (hp hread).2

theorem position_consumes : Consumes position := by
  intro cs digits rest h
  obtain ⟨-, rfl, hne, -⟩ := position_eq_some h
  cases cs with
  | nil => cases hne
  | cons c cs =>
    cases hc : Decimal.isDigit c with
    | false => simp [hc] at hne
    | true =>
      rw [List.dropWhile_cons_of_pos hc]
      exact Leaves.cons (List.dropWhile_suffix _)

theorem leftBy_separator (cs : List Char) :
    leftBy separator cs = ("//".toList.isPrefixOf? cs).or ("/".toList.isPrefixOf? cs) := by
  unfold leftBy separator
  split
  · rfl
  · next rest hnot =>
    have hnone := isPrefixOf?_of_head (w := []) (head_ne_of_forall hnot)
    simp [List.isPrefixOf?, hnone]
  · next hnot =>
    have hhead := head_ne_of_forall hnot
    have hdouble : "//".toList.isPrefixOf? cs = none := isPrefixOf?_of_head (w := ['/']) hhead
    have hsingle : "/".toList.isPrefixOf? cs = none := isPrefixOf?_of_head (w := []) hhead
    rw [hdouble, hsingle]
    rfl

theorem mirrors_separator (n : Nat) : Mirrors n 3 Grammar.separator separator := by
  intro cs _
  have hchoice : Follows 3 Grammar.separator cs _ :=
    .either (.rule (r := .descendant) (.literal "//" cs)) (.rule (r := .child) (.literal "/" cs))
  rw [leftBy_separator]
  exact hchoice.mono (by omega)

theorem leftBy_named (c : Parser Condition) (d : Bool) (cs : List Char) :
    leftBy (segment.named c d) cs = (leftBy nameTest cs).map fun rest => (brackets c rest).2 := by
  cases h : nameTest cs <;> simp [leftBy, segment.named, h]

theorem leftBy_bracket (c : Parser Condition) (inner : List Char) :
    leftBy (bracket c) ('[' :: inner) =
      ((leftBy position (skipGap inner)).or (leftBy c (skipGap inner))).bind fun mid =>
        "]".toList.isPrefixOf? (skipGap mid) := by
  apply Option.ext
  intro rest
  rw [leftBy, Option.map_eq_some_iff, Option.bind_eq_some_iff]
  constructor
  · rintro ⟨⟨b, left⟩, hread, rfl⟩
    obtain ⟨_, mid, hinner, hmid, h⟩ := bracket_eq_some.mp hread
    cases hinner
    have hclose : "]".toList.isPrefixOf? (skipGap mid) = some left := by
      rw [hmid]
      rfl
    refine ⟨mid, Option.or_eq_some_iff.mpr ?_, hclose⟩
    rcases h with ⟨digits, hpos, -⟩ | ⟨hpos, written, hwritten, -⟩
    · exact .inl (leftBy_of_some hpos)
    · exact .inr ⟨leftBy_of_none hpos, leftBy_of_some hwritten⟩
  · rintro ⟨mid, hcontent, hclose⟩
    have hmid : skipGap mid = ']' :: rest := (List.append_eq_of_isPrefixOf?_eq_some hclose).symm
    rcases Option.or_eq_some_iff.mp hcontent with h | ⟨hpos, h⟩
    · obtain ⟨⟨digits, _⟩, hpos, rfl⟩ := Option.map_eq_some_iff.mp h
      exact ⟨_, bracket_eq_some.mpr ⟨_, _, rfl, hmid, .inl ⟨digits, hpos, rfl⟩⟩, rfl⟩
    · obtain ⟨⟨written, _⟩, hwritten, rfl⟩ := Option.map_eq_some_iff.mp h
      exact ⟨_, bracket_eq_some.mpr ⟨_, _, rfl, hmid, .inr
        ⟨Option.map_eq_none_iff.mp hpos, written, hwritten, rfl⟩⟩, rfl⟩

theorem leftBy_ending (p : Parser Operand) (cs : List Char) :
    leftBy (ending p) cs = (leftBy p cs).bind fun rest =>
      if endsOperand rest then some rest else none := by
  unfold leftBy ending
  cases p cs with
  | none => rfl
  | some found => cases h : endsOperand found.2 <;> simp [Option.filter, h]

theorem mirrors_ending {n k : Nat} {g : Grammar} {p : Parser Operand} (h : Mirrors n k g p)
    (hp : Consumes p) : Mirrors n (k + 1) (.both g (.ahead operandEnd)) (ending p) := by
  intro cs hcs
  rw [leftBy_ending]
  refine .both_bind (k := 64 * cs.length + k) (h cs hcs) ?_
  intro rest hrest
  have hlt := length_of_leftBy hp hrest
  obtain ⟨x, hend, hx⟩ := follows_operandEnd rest
  have hahead := hend.ahead
  rw [hx] at hahead
  exact hahead.mono (by omega)

theorem leftBy_segment (c : Parser Condition) (d : Bool) (cs : List Char) :
    leftBy (segment c d) cs = (("@".toList.isPrefixOf? cs).bind (leftBy qualifiedName)).or
      (((".".toList.isPrefixOf? cs).bind fun rest =>
        if startsName rest then none else some rest).or (leftBy (segment.named c d) cs)) := by
  have hattribute : ∀ {cs : List Char}, cs.head? ≠ some '@' →
      "@".toList.isPrefixOf? cs = none := isPrefixOf?_of_head (w := [])
  have hself : ∀ {cs : List Char}, cs.head? ≠ some '.' →
      ".".toList.isPrefixOf? cs = none := isPrefixOf?_of_head (w := [])
  unfold leftBy segment
  split
  · next rest =>
    have hnamed : segment.named c d ('@' :: rest) = none := by
      cases htest : nameTest ('@' :: rest) with
      | none => simp [segment.named, htest]
      | some found => exact absurd rfl (nameTest_head htest).2
    rw [hnamed, hself (by simp)]
    cases h : qualifiedName rest <;> simp [List.isPrefixOf?, h]
  · next rest =>
    rw [hattribute (by simp)]
    cases h : startsName rest <;> simp [List.isPrefixOf?, h]
  · next hat hdot =>
    rw [hattribute (head_ne_of_forall hat), hself (head_ne_of_forall hdot)]
    rfl

theorem leftBy_separated (c : Parser Condition) (cs : List Char) :
    leftBy (separated c) cs = (leftBy separator cs).bind (leftBy (segment c false)) := by
  have hsame : ∀ d rest, leftBy (segment c d) rest = leftBy (segment c false) rest := by
    intro d rest
    rw [leftBy_segment, leftBy_segment, leftBy_named, leftBy_named]
  cases h : separator cs with
  | none => simp [leftBy, separated, h]
  | some found =>
    rw [leftBy_of_some h, Option.bind_some, ← hsame found.1]
    simp [leftBy, separated, h]

theorem leftBy_segments (c : Parser Condition) (cs : List Char) :
    leftBy (segments c) cs = (leftBy (segment c false) cs).map fun rest =>
      (repeated (separated c) rest.length rest).2 := by
  cases h : segment c false cs <;> simp [leftBy, segments, h]

theorem leftBy_comparand (c : Parser Condition) (cs : List Char) :
    leftBy (comparand c) cs = (leftBy comparison (skipGap cs)).bind fun rest =>
      leftBy (operand c) (skipGap rest) := by
  cases hop : comparison (skipGap cs) with
  | none => simp [leftBy, comparand, hop]
  | some found =>
    cases hrhs : operand c (skipGap found.2) <;> simp [leftBy, comparand, hop, hrhs]

section Nesting

variable {n : Nat} {c : Parser Condition} (hc : Mirrors n 32 (.rule .condition) c)
  (hconsumes : Consumes c)

include hc hconsumes

theorem mirrors_bracket : Mirrors (n + 1) 8 (.rule .predicate) (bracket c) := by
  intro cs hcs
  by_cases hhead : cs.head? = some '['
  · obtain ⟨inner, rfl⟩ := List.head?_eq_some_iff.mp hhead
    have hlen := (skipGap_suffix inner).length_le
    rw [List.length_cons] at hcs
    have hgap := follows_gap inner
    have hposition := mirrors_position n (skipGap inner) (by omega)
    have hcondition := hc (skipGap inner) (by omega)
    have hcontent := (hposition.mono (m := 64 * inner.length + 32) (by omega)).either
      (hcondition.mono (by omega))
    rw [leftBy_bracket, List.length_cons]
    refine .rule (.both (.char_pos (q := '[') rfl) (.both (hgap.mono (by omega))
      (.both_bind (hcontent.mono (by omega)) ?_)))
    intro mid hmid
    have hshort : mid.length < (skipGap inner).length := by
      rcases Option.or_eq_some_iff.mp hmid with h | ⟨-, h⟩
      · exact length_of_leftBy position_consumes h
      · exact length_of_leftBy hconsumes h
    exact .both ((follows_gap mid).mono (by omega)) (.literal "]" (skipGap mid))
  · rw [leftBy_of_none (bracket_eq_none hhead)]
    exact .rule (.both_none (.char_neg (q := '[') rfl hhead))

theorem mirrors_named (d : Bool) : Mirrors (n + 1) 15 (.rule .step) (segment.named c d) := by
  intro cs hcs
  have htest := mirrors_nameTest _ cs hcs
  rw [leftBy_named]
  refine .rule (.both_map (htest.mono (by omega)) ?_)
  intro rest hrest
  have hlt := length_of_leftBy nameTest_consumes hrest
  have hrow := (mirrors_bracket hc hconsumes).many (bracket_consumes hconsumes)
    (Nat.lt_trans hlt hcs) (Nat.le_refl rest.length)
  exact hrow.mono (by omega)

theorem mirrors_segment (d : Bool) : Mirrors (n + 1) 18 Grammar.segment (segment c d) := by
  intro cs hcs
  have hattribute : Follows (64 * cs.length + 14) (.rule .attributeStep) cs
      (("@".toList.isPrefixOf? cs).bind (leftBy qualifiedName)) := by
    refine .rule (.both_bind (.literal "@" cs) ?_)
    intro mid hmid
    have hlen := length_of_isPrefixOf? hmid
    exact (mirrors_qualifiedName _ mid (Nat.lt_succ_self _)).mono (by omega)
  have hself : Follows (64 * cs.length + 14) (.rule .selfStep) cs
      ((".".toList.isPrefixOf? cs).bind fun rest =>
        if startsName rest then none else some rest) := by
    refine .rule (.both_bind (.literal "." cs) ?_)
    intro rest _
    cases hstarts : startsName rest with
    | false => exact (Follows.one_neg hstarts).unlessAhead
    | true =>
      cases rest with
      | nil => cases hstarts
      | cons e after =>
        rw [startsName_cons] at hstarts
        exact (Follows.one_pos hstarts).unlessAhead
  have hnamed := mirrors_named hc hconsumes d cs hcs
  rw [leftBy_segment]
  exact .either (hattribute.mono (by omega)) (.either (hself.mono (by omega))
    (hnamed.mono (by omega)))

theorem mirrors_separated :
    Mirrors (n + 1) 20 (.both Grammar.separator Grammar.segment) (separated c) := by
  intro cs hcs
  have hseparator := mirrors_separator _ cs hcs
  rw [leftBy_separated]
  refine .both_bind (hseparator.mono (by omega)) ?_
  intro rest hrest
  have hlt := length_of_leftBy separator_consumes hrest
  have hsegment := mirrors_segment hc hconsumes false rest (by omega)
  exact hsegment.mono (by omega)

theorem mirrors_segments : Mirrors (n + 1) 19 Grammar.steps (segments c) := by
  intro cs hcs
  rw [leftBy_segments]
  refine .both_map (mirrors_segment hc hconsumes false cs hcs) ?_
  intro rest hrest
  have hlt := length_of_leftBy (segment_consumes hconsumes false) hrest
  have hrow := (mirrors_separated hc hconsumes).many (separated_consumes hconsumes)
    (Nat.lt_trans hlt hcs) (Nat.le_refl rest.length)
  exact hrow.mono (by omega)

theorem mirrors_path : Mirrors (n + 1) 20 (.rule .pathOperand) (path c) := by
  intro cs hcs
  have hsegments := mirrors_segments hc hconsumes cs hcs
  have hleft : leftBy (path c) cs = leftBy (segments c) cs := by
    simp only [leftBy, path]
    cases segments c cs <;> rfl
  rw [hleft]
  exact .rule hsegments

theorem mirrors_operand : Mirrors (n + 1) 25 Grammar.operand (operand c) := by
  intro cs hcs
  have hquoted := mirrors_ending (mirrors_quoted _) quoted_consumes cs hcs
  have hnumber := mirrors_ending (mirrors_number _) number_consumes cs hcs
  have hpathConsumes : Consumes (path c) := by
    intro cs x rest h
    obtain ⟨segs, hsegs, -⟩ := path_eq_some.mp h
    exact segments_consumes hconsumes hsegs
  have hpath : Follows (64 * cs.length + 22) _ cs (leftBy (ending (path c)) cs) :=
    (mirrors_ending (mirrors_path hc hconsumes) hpathConsumes cs hcs).mono (by omega)
  have hbare : Follows (64 * cs.length + 22) _ cs (leftBy bare cs) :=
    (mirrors_bare _ cs hcs).mono (by omega)
  have hleft : leftBy (operand c) cs = (leftBy (ending quoted) cs).or
      ((leftBy (ending number) cs).or ((leftBy (ending (path c)) cs).or (leftBy bare cs))) := by
    simp only [leftBy, operand, Option.map_or]
  rw [hleft]
  exact .either (hquoted.mono (by omega)) (.either (hnumber.mono (by omega))
    (.either (hpath.mono (by omega)) (hbare.mono (by omega))))

theorem mirrors_comparand :
    Mirrors (n + 1) 28 (chain [gap, .rule .comparison, gap, Grammar.operand]) (comparand c) := by
  intro cs hcs
  have hlen := (skipGap_suffix cs).length_le
  have hop := mirrors_comparison _ (skipGap cs) (Nat.lt_succ_self _)
  rw [leftBy_comparand]
  refine .both ((follows_gap cs).mono (by omega)) (.both_bind (hop.mono (by omega)) ?_)
  intro rest hrest
  have hlt := length_of_leftBy comparison_consumes hrest
  have hgap := (skipGap_suffix rest).length_le
  have hrhs := mirrors_operand hc hconsumes (skipGap rest) (by omega)
  exact .both ((follows_gap rest).mono (by omega)) (hrhs.mono (by omega))

end Nesting

theorem leftBy_condition (d : Nat) (cs : List Char) :
    leftBy (condition (d + 1)) cs = (leftBy (operand (condition d)) cs).map fun rest =>
      (leftBy (comparand (condition d)) rest).getD rest := by
  cases hlhs : operand (condition d) cs with
  | none => simp [leftBy, condition, hlhs]
  | some found =>
    cases hrhs : comparand (condition d) found.2 <;> simp [leftBy, condition, hlhs, hrhs]

-- A bracket takes a character, so conditions in a text of `d` characters nest less than `d` deep.
theorem mirrors_condition (d : Nat) : Mirrors d 32 (.rule .condition) (condition d) := by
  induction d with
  | zero => exact fun cs hcs => absurd hcs (Nat.not_lt_zero _)
  | succ d ih =>
    intro cs hcs
    have hlhs := mirrors_operand ih (condition_consumes d) cs hcs
    rw [leftBy_condition]
    refine .rule (.both_map (hlhs.mono (by omega)) ?_)
    intro rest hrest
    have hlt := length_of_leftBy (operand_consumes (condition_consumes d)) hrest
    have hrhs := (mirrors_comparand ih (condition_consumes d) rest (by omega)).perhaps
    exact hrhs.mono (by omega)

theorem mirrors_conditionOf (cs : List Char) :
    Mirrors (cs.length + 1) 32 (.rule .condition) (conditionOf cs) :=
  mirrors_condition _

/-- The text that is left, if it is the empty one. -/
def ended (cs : List Char) : Option (List Char) := if cs.isEmpty then some cs else none

theorem isSome_ended (cs : List Char) : (ended cs).isSome = cs.isEmpty := by
  cases cs <;> rfl

theorem follows_end {k : Nat} (cs : List Char) :
    Follows (k + 2) (.rule .endOfInput) cs (ended cs) :=
  .rule (.nothingLeft cs)

theorem isSome_whole {α : Type} (p : Parser α) (cs : List Char) :
    (whole p cs).isSome = (leftBy p cs).any List.isEmpty := by
  unfold whole leftBy
  cases p cs with
  | none => rfl
  | some found =>
    obtain ⟨x, rest⟩ := found
    cases rest <;> rfl

theorem isSome_ofPath? (cs : List Char) :
    (ofPath? cs).isSome = (leftBy (separated (conditionOf cs)) cs).any fun rest =>
      (repeated (separated (conditionOf cs)) rest.length rest).2.isEmpty := by
  rw [ofPath?, isSome_whole]
  cases h : separated (conditionOf cs) cs <;> simp [leftBy, h]

theorem follows_path (cs : List Char) :
    ∃ x, Follows (64 * cs.length + 32) (.rule .path) cs x ∧ x.isSome = (ofPath? cs).isSome := by
  have hc := mirrors_conditionOf cs
  have hconsumes := condition_consumes (cs.length + 1)
  have hseparator := mirrors_separator (cs.length + 1) cs (Nat.lt_succ_self _)
  refine ⟨(leftBy separator cs).bind fun after =>
    (leftBy (segment (conditionOf cs) false) after).bind fun rest =>
      ended (repeated (separated (conditionOf cs)) rest.length rest).2, ?_, ?_⟩
  · refine .rule (.both_bind (hseparator.mono (by omega)) ?_)
    intro after hafter
    have hlt := length_of_leftBy separator_consumes hafter
    have hsegment := mirrors_segment hc hconsumes false after (by omega)
    refine .both_bind (hsegment.mono (by omega)) ?_
    intro rest hrest
    have hlt' := length_of_leftBy (segment_consumes hconsumes false) hrest
    have hshort : rest.length < cs.length + 1 + 1 := by omega
    have hrow := (mirrors_separated hc hconsumes).many (separated_consumes hconsumes) hshort
      (Nat.le_refl rest.length)
    exact .both (hrow.mono (by omega)) (follows_end _)
  · rw [isSome_ofPath?, leftBy_separated]
    cases leftBy separator cs with
    | none => rfl
    | some after =>
      rw [Option.bind_some, Option.bind_some]
      cases leftBy (segment (conditionOf cs) false) after with
      | none => rfl
      | some rest => exact isSome_ended _

theorem follows_relative (cs : List Char) :
    ∃ x, Follows (64 * cs.length + 32) (.rule .relative) cs x ∧
      x.isSome = (ofRelative? cs).isSome := by
  have hsegments := mirrors_segments (mirrors_conditionOf cs)
    (condition_consumes (cs.length + 1)) cs (by omega)
  refine ⟨_, .rule (.both (hsegments.mono (by omega)).perhaps (follows_end _)), ?_⟩
  rw [isSome_ended, ofRelative?]
  split
  · next hempty =>
    obtain rfl := List.isEmpty_iff.mp hempty
    have hnone : segments (conditionOf []) [] = none :=
      (segments_consumes (condition_consumes _)).nil
    rw [leftBy_of_none hnone]
    rfl
  · next hne =>
    rw [isSome_whole]
    cases leftBy (segments (conditionOf cs)) cs with
    | none => simpa using hne
    | some rest => rfl

theorem follows_wholeCondition (cs : List Char) :
    ∃ x, Follows (64 * cs.length + 64) (.rule .wholeCondition) cs x ∧
      x.isSome = (ofCondition? cs).isSome := by
  have hlen := (skipGap_suffix cs).length_le
  have hcondition := mirrors_conditionOf cs (skipGap cs) (by omega)
  refine ⟨(leftBy (conditionOf cs) (skipGap cs)).bind fun rest => ended (skipGap rest), ?_, ?_⟩
  · refine .rule (.both ((follows_gap cs).mono (by omega))
      (.both_bind (hcondition.mono (by omega)) ?_))
    intro rest hrest
    have hlt := length_of_leftBy (condition_consumes _) hrest
    exact .both ((follows_gap rest).mono (by omega)) (follows_end _)
  · cases hread : conditionOf cs (skipGap cs) with
    | none => simp [leftBy, ofCondition?, hread]
    | some found =>
      rw [leftBy_of_some hread, Option.bind_some, isSome_ended, ofCondition?, hread]
      cases h : (skipGap found.2).isEmpty <;> simp [h]

theorem fits_eq {r : Rule} {text : String} {x : Option (List Char)}
    (h : Follows (64 * text.toList.length + 64) (.rule r) text.toList x) :
    Diagnosis.fits r text = x.isSome := by
  have hread := h (fuelFor text.toList) false false ⟨0, text.toList⟩ .start
    (by unfold fuelFor; omega) rfl
  rw [Diagnosis.fits, ← hread, Option.isSome_map]

end Surface

open Surface Diagnosis

theorem fits_path (text : String) : fits .path text = (ofPath? text.toList).isSome := by
  obtain ⟨x, hfollows, hx⟩ := follows_path text.toList
  rw [fits_eq (hfollows.mono (by omega)), hx]

theorem fits_relative (text : String) : fits .relative text = (ofRelative? text.toList).isSome := by
  obtain ⟨x, hfollows, hx⟩ := follows_relative text.toList
  rw [fits_eq (hfollows.mono (by omega)), hx]

theorem fits_wholeCondition (text : String) :
    fits .wholeCondition text = (ofCondition? text.toList).isSome := by
  obtain ⟨x, hfollows, hx⟩ := follows_wholeCondition text.toList
  rw [fits_eq hfollows, hx]

/-- Whether something fails because a text does not have the form of a path. -/
def isMalformed {α : Type} : Except Reason α → Bool
  | .error reason => reason.isForm
  | .ok _ => false

theorem isMalformed_bind {α β : Type} {x : Except Reason α} {f : α → Except Reason β}
    (hx : isMalformed x = false) (hf : ∀ a, isMalformed (f a) = false) :
    isMalformed (x >>= f) = false := by
  cases x with
  | error reason => exact hx
  | ok a => exact hf a

namespace Surface

mutual

theorem isMalformed_steps (last : Option Step) (descendant : Bool) :
    (segs : List Segment) → isMalformed (steps last descendant segs) = false
  | [] => by
    rw [steps_nil]
    rfl
  | .self d :: rest => by
    rw [steps]
    split
    · rfl
    · exact isMalformed_steps _ _ rest
  | .attribute d name :: rest => by
    rw [steps.eq_def]
    simp only
    split
    · rfl
    · split
      · exact isMalformed_steps _ _ rest
      · exact isMalformed_bind (isMalformed_steps _ _ rest) fun _ => rfl
  | .step d test bs :: rest => by
    rw [steps]
    split
    · rfl
    · exact isMalformed_bind (isMalformed_predicates false bs) fun _ =>
        isMalformed_bind (isMalformed_steps _ _ rest) fun _ => rfl

theorem isMalformed_predicates (positioned : Bool) :
    (bs : List Bracket) → isMalformed (predicates positioned bs) = false
  | [] => by
    rw [predicates]
    rfl
  | .position digits :: rest => by
    rw [predicates]
    split
    · rfl
    · split
      · rfl
      · exact isMalformed_bind (isMalformed_predicates true rest) fun _ => rfl
  | .condition written :: rest => by
    rw [predicates]
    exact isMalformed_bind (isMalformed_resolveCondition written) fun _ =>
      isMalformed_bind (isMalformed_predicates positioned rest) fun _ => rfl

theorem isMalformed_resolveCondition :
    (written : Condition) → isMalformed (resolveCondition written) = false
  | .single source operand => by
    rw [resolveCondition.eq_def]
    simp only
    split
    · next segs => exact isMalformed_bind (isMalformed_steps none false segs) fun _ => rfl
    · rfl
  | .comparison source lhs op rhs => by
    rw [resolveCondition]
    exact isMalformed_bind (isMalformed_resolveOperand lhs) fun _ =>
      isMalformed_bind (isMalformed_resolveOperand rhs) fun _ => rfl

theorem isMalformed_resolveOperand :
    (operand : Operand) → isMalformed (resolveOperand operand) = false
  | .quoted source content => by
    rw [resolveOperand]
    rfl
  | .number source => by
    rw [resolveOperand]
    rfl
  | .bare source => by
    rw [resolveOperand]
    rfl
  | .path source segs => by
    rw [resolveOperand]
    split
    · exact isMalformed_bind (isMalformed_steps none false segs) fun _ => rfl
    · rfl

end

end Surface

/-- A path is refused for its form if and only if the grammar of the messages does not accept it.
Every other reason comes from the segments that have been read. -/
theorem isMalformed_parse (path : String) :
    isMalformed ((parse path).mapError Error.reason) = !fits .path path := by
  rw [fits_path, parse]
  cases ofPath? path.toList with
  | none => rfl
  | some segs =>
    have hsteps := isMalformed_steps none false segs
    simp only [Option.isSome_some, Bool.not_true]
    split
    · next h => rwa [h] at hsteps
    · rfl
    · rfl

theorem isMalformed_parseRelative (text path : String) :
    isMalformed ((parseRelative text path).mapError Error.reason) =
      !fits .relative (Text.trimmed text) := by
  rw [fits_relative, parseRelative]
  cases ofRelative? (Text.trimmed text).toList with
  | none => rfl
  | some segs =>
    have hsteps := isMalformed_steps none false segs
    simp only [Option.isSome_some, Bool.not_true]
    split
    · next h => rwa [h] at hsteps
    · rfl

theorem isMalformed_parseCondition (text path : String) :
    isMalformed ((parseCondition text path).mapError Error.reason) =
      !fits .wholeCondition text := by
  rw [fits_wholeCondition, parseCondition]
  cases ofCondition? text.toList with
  | none => rfl
  | some written =>
    have hcondition := isMalformed_resolveCondition written
    simp only [Option.isSome_some, Bool.not_true]
    split
    · next h => rwa [h] at hcondition
    · rfl

end MarkupTree.Path

import MarkupTree.Proofs.Path.Bracketed
import MarkupTree.Proofs.Path.Spelling

/-!
# Conditions on their own and in brackets

A condition on its own is read up to the end of the text, and in a path up to the bracket that
closes. Everything ends in the same way there but a bare text: where it is the last operand it takes
the blanks at the end of the text, and does not take those before a bracket. It is trimmed before it
is compared, so the two conditions mean the same; the source of the first one has the blanks.
-/

set_option autoImplicit false

namespace MarkupTree.Path

namespace Surface

section Gaps

variable {g v w : List Char} (hg : ∀ x ∈ g, isGap x = true)

include hg

theorem skipGap_eq_nil : skipGap g = [] := List.dropWhile_eq_nil_iff.mpr hg

theorem stops_eq_false_of_gap : stops g = false := by
  rw [stops, skipGap_eq_nil hg]
  rfl

theorem breaks_of_gap : Breaks g ∧ g.head? ≠ some '/' := by
  cases g with
  | nil => exact ⟨breaks_nil, nofun⟩
  | cons x g =>
    have hx : isGap x = true := hg x List.mem_cons_self
    simp only [isGap, Bool.or_eq_true, beq_iff_eq] at hx
    rcases hx with ((rfl | rfl) | rfl) | rfl <;>
      exact ⟨breaks_cons (by decide) (by decide) g, by simp⟩

theorem endsAlike_of_gap (hv : Closes v) : EndsAlike g (g ++ v) := by
  have hcloses := closes_append_of_gap hg hv
  have hstops := stops_of_closes hcloses
  refine ⟨breaks_of_gap hg, breaks_of_stops hstops, endsOperand_of_stops hstops, ?_⟩
  intro k hk
  rw [endsOperand, Bool.or_eq_false_iff] at hk
  rw [endsOperand_append hstops, Bool.eq_false_iff]
  intro hbehind
  -- More than blanks stand before `g`, so what stops there does not reach into it.
  have hstopped : stops (k ++ g) = true := by
    refine stops_local ?_ (fun hhead => absurd hhead hcloses.head_ne_equal) hbehind
    intro hnil
    have hempty := hk.2
    rw [skipGap_append, hnil, List.isEmpty_nil, if_pos rfl, skipGap_eq_nil hg] at hempty
    cases hempty
  rw [hk.1] at hstopped
  cases hstopped

theorem bareRun_before_close (hlast : ∀ x ∈ w.getLast?, isGap x = false) (hv : Closes v)
    (h : bareRun (w ++ g) = (w ++ g, [])) : bareRun (w ++ (g ++ v)) = (w, g ++ v) := by
  have hcloses := closes_append_of_gap hg hv
  induction w with
  | nil =>
    rw [List.nil_append]
    cases hcs : g ++ v with
    | nil =>
      rw [hcs] at hcloses
      cases hcloses
    | cons x rest =>
      rw [bareRun, ← hcs, stops_of_closes hcloses]
      rfl
  | cons x w ih =>
    rw [List.cons_append, bareRun] at h ⊢
    split at h
    · cases h
    · next hx =>
      obtain ⟨hrun, hrest⟩ := Prod.mk.inj h
      have hlast' : ∀ y ∈ w.getLast?, isGap y = false := by
        intro y hy
        apply hlast
        rw [List.getLast?_cons, Option.mem_def.mp hy]
        rfl
      have htail := ih hlast' (Prod.ext (List.cons.inj hrun).2 hrest)
      simp only [Bool.or_eq_true, not_or, Bool.not_eq_true] at hx
      -- The last character of `w` is no blank, so the blanks of `g` are not skipped from here.
      have hstops : stops (x :: w ++ (g ++ v)) ≠ true := by
        intro hstops
        refine absurd (stops_local ?_ ?_ hstops) (show ¬ stops (x :: w ++ g) = true by simp [hx])
        · intro hnil
          have hall := List.dropWhile_eq_nil_iff.mp hnil
          have hy := List.getLast?_eq_some_getLast (List.cons_ne_nil x w)
          have hgap := hall _ (List.getLast_mem (List.cons_ne_nil x w))
          rw [hlast _ hy] at hgap
          cases hgap
        · exact fun hhead => absurd hhead hcloses.head_ne_equal
      rw [if_neg (by simpa [hx] using hstops), htail]

end Gaps

theorem bareRun_rest {cs run rest : List Char} (h : bareRun cs = (run, rest)) :
    rest = [] ∨ stops rest = true ∨ ∃ x ∈ rest.head?, x ∈ ['[', '"', '\''] := by
  induction cs generalizing run with
  | nil =>
    cases h
    exact .inl rfl
  | cons x cs ih =>
    rw [bareRun] at h
    split at h
    · next hx =>
      cases h
      simp only [Bool.or_eq_true, beq_iff_eq] at hx
      rcases hx with ((hx | rfl) | rfl) | rfl
      · exact .inr (.inl hx)
      · exact .inr (.inr ⟨_, rfl, by simp⟩)
      · exact .inr (.inr ⟨_, rfl, by simp⟩)
      · exact .inr (.inr ⟨_, rfl, by simp⟩)
    · obtain ⟨-, hrest⟩ := Prod.mk.inj h
      exact ih (Prod.ext rfl hrest)

theorem eq_nil_of_bareRun {cs run g : List Char} (hg : ∀ x ∈ g, isGap x = true)
    (h : bareRun cs = (run, g)) : g = [] := by
  rcases bareRun_rest h with hnil | hstops | ⟨x, hx, hmark⟩
  · exact hnil
  · rw [stops_eq_false_of_gap hg] at hstops
    cases hstops
  · have hgap := hg x (List.mem_of_head? hx)
    simp only [List.mem_cons, List.not_mem_nil, or_false] at hmark
    rcases hmark with rfl | rfl | rfl <;> cases hgap

theorem exists_trailing_gap {w : List Char} (hw : w ≠ []) (hhead : ∀ x ∈ w.head?, isGap x = false) :
    ∃ k g, w = k ++ g ∧ k ≠ [] ∧ (∀ x ∈ k.getLast?, isGap x = false) ∧
      ∀ x ∈ g, isGap x = true := by
  have hsplit : w.rdropWhile isGap ++ w.rtakeWhile isGap = w := List.rdropWhile_append_rtakeWhile
  have hgap : ∀ x ∈ w.rtakeWhile isGap, isGap x = true := fun x hx => List.mem_rtakeWhile_imp hx
  refine ⟨_, _, hsplit.symm, ?_, ?_, hgap⟩
  · intro hnil
    rw [hnil, List.nil_append] at hsplit
    obtain ⟨x, w, rfl⟩ := List.exists_cons_of_ne_nil hw
    have hx := hgap x (by rw [hsplit]; exact List.mem_cons_self)
    rw [hhead x rfl] at hx
    cases hx
  · intro x hx
    obtain ⟨hne, rfl⟩ := List.mem_getLast?_eq_getLast hx
    simpa using List.rdropWhile_last_not isGap w hne

section Operands

variable {n : Nat} {c c' : Parser Condition} {w u v : List Char}
variable (hc : Consumes c) (hc' : Consumes c') (hlocal : Local n c c')
include hc hc' hlocal

theorem operand_in_brackets {x : Operand} (hw : w.length ≤ n)
    (hhead : ∀ y ∈ w.head?, isGap y = false) (hu : ∀ y ∈ u, isGap y = true) (hv : Closes v)
    (h : operand c (w ++ u) = some (x, u)) :
    ∃ k g x', w = k ++ g ∧ k ≠ [] ∧ (∀ y ∈ g, isGap y = true) ∧
      operand c' (k ++ (g ++ u ++ v)) = some (x', g ++ u ++ v) ∧
      ((g = [] ∧ x' = x) ∨ (x = .bare (String.ofList w) ∧ x' = .bare (String.ofList k))) := by
  have hne : w ≠ [] := (operand_consumes hc h).ne_nil_of_append
  rcases operand_eq_some_iff.mp h with hread | ⟨hnone, hread⟩
  · refine ⟨w, [], x, (List.append_nil w).symm, hne, nofun, ?_, .inl ⟨rfl, rfl⟩⟩
    rw [List.nil_append]
    exact operand_eq_some_iff.mpr
      (.inl (marked_local hc hc' hlocal hw (endsAlike_of_gap hu hv) hread))
  · obtain ⟨-, hrun, rfl⟩ := bare_append_eq_some.mp hread
    obtain rfl := eq_nil_of_bareRun hu hrun
    obtain ⟨k, g, rfl, hk, hlast, hgap⟩ := exists_trailing_gap hne hhead
    have hmarks := not_mem_of_bareRun hrun
    rw [List.forall_mem_append] at hmarks
    rw [List.append_nil] at hnone hrun
    refine ⟨k, g, .bare (String.ofList k), rfl, hk, hgap, ?_, .inr ⟨rfl, rfl⟩⟩
    rw [List.append_nil]
    refine operand_eq_some_iff.mpr (.inr ⟨?_, ?_⟩)
    · exact marked_eq_none_local hc hc' hk hmarks.1 (endsAlike_of_gap hgap hv) hnone
    · exact bare_append_eq_some.mpr ⟨hk, bareRun_before_close hgap hlast hv hrun, rfl⟩

end Operands

theorem trim_append_gap {g : List Char} (hg : ∀ x ∈ g, isGap x = true) (k : List Char) :
    Text.trim (k ++ g) = Text.trim k := by
  have hblank : ∀ x ∈ g, Text.isBlank x = true := fun x hx => isBlank_of_isGap (hg x hx)
  rw [Text.trim, Text.trim, List.dropWhile_append]
  split
  · next hnil =>
    rw [List.isEmpty_iff.mp hnil, List.dropWhile_eq_nil_iff.mpr hblank]
  · rw [List.reverse_append, List.dropWhile_append_of_pos]
    exact fun x hx => hblank x (List.mem_reverse.mp hx)

theorem number_of_digits {sign w : List Char} (hsign : sign = [] ∨ sign = ['-']) (hw : w ≠ [])
    (hdigits : ∀ x ∈ w, Decimal.isDigit x = true) :
    number (sign ++ w) = some (.number (String.ofList (sign ++ w)), []) := by
  obtain ⟨x, w, rfl⟩ := List.exists_cons_of_ne_nil hw
  have hx : Decimal.isDigit x = true := hdigits x List.mem_cons_self
  have hmantissa : skipMantissa? (x :: w) = some [] := by
    unfold skipMantissa?
    rw [if_pos (by simpa using hx), List.dropWhile_eq_nil_iff.mpr hdigits]
  have htaken := taken_append (sign ++ x :: w) []
  rw [List.append_nil] at htaken
  rcases hsign with rfl | rfl
  · unfold number
    split
    · next heq =>
      obtain ⟨rfl, -⟩ := List.cons.inj heq
      cases hx
    · change (skipMantissa? (x :: w)).bind _ = _
      rw [hmantissa, ← htaken]
      rfl
  · change (skipMantissa? (x :: w)).bind _ = _
    rw [hmantissa, ← htaken]
    rfl

theorem operand_of_number {c : Parser Condition} {w u : List Char} {x : Operand}
    (h : number w = some (x, [])) (hu : stops u = true) : operand c (w ++ u) = some (x, u) := by
  have hnumber : number (w ++ u) = some (x, u) := by
    rw [number_append (breaks_of_stops hu).1.1, h]
    rfl
  have hquoted : ending quoted (w ++ u) = none := by
    cases w with
    | nil => cases h
    | cons q w =>
      rw [ending, List.cons_append, quoted_eq_none]
      · rfl
      · rintro (rfl | rfl) <;> cases h
  exact operand_eq_some.mpr
    (.inr ⟨hquoted, .inl (ending_eq_some.mpr ⟨hnumber, endsOperand_of_stops hu⟩)⟩)

theorem condition_of_position {n : Nat} {cs rest : List Char} {digits : String}
    (h : position cs = some (digits, rest)) :
    ∃ source, condition (n + 1) cs = some (.single source (.number digits), rest) := by
  obtain ⟨rfl, hrest, hne, hclose⟩ := position_eq_some h
  have hclose : Closes rest := hclose
  have hcs := List.takeWhile_append_dropWhile (p := Decimal.isDigit) (l := cs)
  have hall : ∀ x ∈ cs.takeWhile Decimal.isDigit, Decimal.isDigit x = true :=
    fun x hx => List.mem_takeWhile_imp hx
  rw [← hrest] at hcs
  generalize cs.takeWhile Decimal.isDigit = w at hne hcs hall
  subst hcs
  have hnumber := number_of_digits (.inl rfl) (by simpa using hne) hall
  refine ⟨_, condition_succ_eq_some.mpr ⟨_, rest, ?_, .inr ⟨?_, rfl, rfl⟩⟩⟩
  · exact operand_of_number hnumber (stops_of_closes hclose)
  · simp [comparand, hclose.comparison_eq_none]

theorem comparand_in_brackets {n : Nat} {c c' : Parser Condition} {w u v : List Char}
    (hc : Consumes c) (hc' : Consumes c') (hlocal : Local n c c') {op : Comparison} {x : Operand}
    (hw : w.length ≤ n) (hu : ∀ y ∈ u, isGap y = true) (hv : Closes v)
    (h : comparand c (w ++ u) = some ((op, x), u)) :
    ∃ k g x', w = k ++ g ∧ (∀ y ∈ g, isGap y = true) ∧
      comparand c' (k ++ (g ++ u ++ v)) = some ((op, x'), g ++ u ++ v) ∧
      resolveOperand x' = resolveOperand x := by
  obtain ⟨front, r, rfl, -, hfront, hread⟩ := (comparand_iff hc).mp h
  obtain ⟨-, -, -, -, -, hhead, -⟩ := id hfront
  rw [List.length_append] at hw
  obtain ⟨k, g, x', rfl, hk, hg, hread', hsame⟩ :=
    operand_in_brackets hc hc' hlocal (by omega) hhead hu hv hread
  refine ⟨front ++ k, g, x', by rw [List.append_assoc], hg, ?_, ?_⟩
  · refine (comparand_iff hc').mpr ⟨front, k, rfl, hk, hfront.of_head ?_, hread'⟩
    rw [List.head?_append_of_ne_nil _ hk]
  · rcases hsame with ⟨-, rfl⟩ | ⟨rfl, rfl⟩
    · rfl
    · simp only [resolveOperand, Text.trimmed, String.toList_ofList, trim_append_gap hg]

/-- A condition at the end of a text is one in brackets, but for blanks `g` at its end. Only the last
operand can take them, since one before it ends at an operator in both places. -/
theorem condition_in_brackets {d n : Nat} {k u v : List Char} {written : Condition}
    {source : String} {test : Path.Condition} (hk : k.length < n)
    (hhead : ∀ x ∈ k.head?, isGap x = false) (hu : ∀ x ∈ u, isGap x = true) (hv : Closes v)
    (h : condition d (k ++ u) = some (written, u))
    (hresolve : resolveCondition written = .ok (source, test)) :
    ∃ k' g written', k = k' ++ g ∧ (∀ x ∈ g, isGap x = true) ∧
      condition n (k' ++ (g ++ u ++ v)) = some (written', g ++ u ++ v) ∧
      source = String.ofList k ∧ resolveCondition written' = .ok (String.ofList k', test) := by
  obtain ⟨n, rfl⟩ : ∃ m, n = m + 1 := ⟨n - 1, by omega⟩
  cases d with
  | zero => cases h
  | succ d =>
    have hc := condition_consumes d
    have hc' := condition_consumes n
    have hlocal := condition_local d n
    obtain ⟨lhs, l, m, rfl, hl, hlhs, ⟨op, rhs, hcmp, rfl⟩ | ⟨rfl, -, rfl⟩⟩ := text_of_condition h
    · rw [List.length_append] at hk
      obtain ⟨m, g, rhs', rfl, hg, hcmp', hsame⟩ :=
        comparand_in_brackets hc hc' hlocal (by omega) hu hv hcmp
      obtain ⟨left, hleft, hresolve⟩ := bind_eq_ok_iff.mp hresolve
      obtain ⟨right, hright, hresolve⟩ := bind_eq_ok_iff.mp hresolve
      cases hresolve
      refine ⟨l ++ m, g, .comparison (String.ofList (l ++ m)) lhs op rhs', by rw [List.append_assoc],
        hg, ?_, rfl, ?_⟩
      · have htaken := taken_append (l ++ m) (g ++ u ++ v)
        rw [List.append_assoc l] at htaken ⊢
        apply condition_succ_eq_some.mpr
        refine ⟨lhs, m ++ (g ++ u ++ v), ?_, .inl ⟨op, rhs', hcmp', by rw [htaken]⟩⟩
        apply operand_local hc hc' hlocal (by omega) (stops_of_comparand hcmp)
          (stops_of_comparand hcmp') ?_ hlhs
        have hm : m ≠ [] := (comparand_consumes hc' hcmp').ne_nil_of_append
        rw [List.append_assoc m, List.head?_append_of_ne_nil _ hm, List.head?_append_of_ne_nil _ hm]
        exact id
      · rw [resolveCondition, hleft, hsame, hright]
        rfl
    · cases lhs with
      | path written segs =>
        rw [List.append_nil] at hk hhead
        obtain ⟨l, g, x', rfl, -, hg, hread, ⟨rfl, rfl⟩ | ⟨hbare, -⟩⟩ :=
          operand_in_brackets hc hc' hlocal (by omega) hhead hu hv hlhs
        · obtain ⟨steps, hsteps, hresolve⟩ := bind_eq_ok_iff.mp hresolve
          cases hresolve
          have htaken := taken_append l ([] ++ u ++ v)
          refine ⟨l, [], .single (String.ofList l) (.path written segs), by simp,
            List.forall_mem_nil _, ?_, by simp, ?_⟩
          · apply condition_succ_eq_some.mpr
            refine ⟨_, _, hread, .inr ⟨?_, rfl, by rw [htaken]⟩⟩
            simp [comparand, (closes_append_of_gap hu hv).comparison_eq_none]
          · rw [resolveCondition, hsteps]
            rfl
        · cases hbare
      | quoted | number | bare => cases hresolve

theorem ofCondition?_eq_some {cs : List Char} {written : Condition}
    (h : ofCondition? cs = some written) :
    ∃ d g k u, cs = g ++ (k ++ u) ∧ (∀ x ∈ g, isGap x = true) ∧ (∀ x ∈ u, isGap x = true) ∧
      (∀ x ∈ k.head?, isGap x = false) ∧ condition d (k ++ u) = some (written, u) := by
  unfold ofCondition? at h
  split at h
  · next found u hread =>
    split at h
    · next hempty =>
      cases h
      obtain ⟨k, hk, hcs⟩ := (condition_consumes _ hread).exists_taken
      obtain ⟨g, hg, hgap⟩ := exists_gap cs
      rw [conditionOf, hcs] at hread
      refine ⟨_, g, k, u, by rw [← hcs]; exact hg, hgap, ?_, ?_, hread⟩
      · exact List.dropWhile_eq_nil_iff.mp (List.isEmpty_iff.mp hempty)
      · intro x hx
        obtain ⟨k, rfl⟩ := List.head?_eq_some_iff.mp hx
        exact isGap_of_skipGap hcs
    · cases h
  · cases h

theorem bracket_enclosed {content : String} {g k u : List Char} {written : Condition}
    {found : String × Path.Condition} (hcontent : content.toList = g ++ (k ++ u))
    (hg : ∀ x ∈ g, isGap x = true) (hu : ∀ x ∈ u, isGap x = true)
    (hhead : ∀ x ∈ k.head?, isGap x = false)
    (h : ∀ n v, k.length < n → Closes v → condition n (k ++ v) = some (written, v))
    (hresolve : resolveCondition written = .ok found) {n : Nat} (v : List Char)
    (hn : content.toList.length < n) :
    bracket (condition n) (enclosed content ++ v) = some (.condition written, v) := by
  have hlen : k.length < n := by
    rw [hcontent, List.length_append, List.length_append] at hn
    omega
  have hread := h n (u ++ ']' :: v) hlen (closes_append_of_gap hu rfl)
  have hskip : skipGap (g ++ (k ++ (u ++ ']' :: v))) = k ++ (u ++ ']' :: v) := by
    rw [skipGap_append_of_gap hg]
    exact skipGap_of_head (condition_consumes n hread).ne_nil_of_append hhead _
  apply bracket_eq_some.mpr
  refine ⟨g ++ (k ++ (u ++ ']' :: v)), u ++ ']' :: v, ?_, ?_, .inr ⟨?_, written, ?_, rfl⟩⟩
  · simp [enclosed, hcontent]
  · exact skipGap_append_of_gap hu _
  · rw [hskip]
    -- Digits alone would be a number, which is not a condition.
    cases hpos : position (k ++ (u ++ ']' :: v)) with
    | none => rfl
    | some found =>
      obtain ⟨n, rfl⟩ : ∃ m, n = m + 1 := ⟨n - 1, by omega⟩
      obtain ⟨source, hnumber⟩ := condition_of_position (n := n) hpos
      rw [hread, Option.some.injEq, Prod.mk.injEq] at hnumber
      rw [hnumber.1] at hresolve
      cases hresolve
  · rw [hskip]
    exact hread

end Surface

open Surface

theorem parseCondition_eq_ok {content path : String} {found : String × Condition} :
    parseCondition content path = .ok found ↔
      ∃ written, ofCondition? content.toList = some written ∧
        resolveCondition written = .ok found := by
  unfold parseCondition
  cases ofCondition? content.toList with
  | none => simp
  | some written => cases h : resolveCondition written <;> simp [h]

/-- The text without the blanks at its end. -/
def withoutGap (source : String) : String := String.ofList (source.toList.rdropWhile isGap)

theorem exists_parse_in_brackets {content path source : String} {test : Condition}
    (h : parseCondition content path = .ok (source, test)) :
    ∃ k g, source = String.ofList (k ++ g) ∧ (∀ x ∈ g, isGap x = true) ∧
      (∀ x ∈ k.getLast?, isGap x = false) ∧
      parse ("/a[" ++ content ++ "]") =
        .ok [⟨false, .name "a", none, [.condition (String.ofList k) test]⟩] := by
  obtain ⟨written, hwritten, hresolve⟩ := parseCondition_eq_ok.mp h
  obtain ⟨d, g, k, u, hcontent, hg, hu, hhead, hread⟩ := ofCondition?_eq_some hwritten
  obtain ⟨k, g', written', rfl, hg', hread', rfl, hresolve'⟩ :=
    condition_in_brackets (v := [']']) (Nat.lt_succ_self _) hhead hu rfl hread hresolve
  have hne := (condition_consumes _ hread').ne_nil_of_append
  have hgap : ∀ x ∈ g' ++ u, isGap x = true := List.forall_mem_append.mpr ⟨hg', hu⟩
  have hclose : Closes (g' ++ u ++ [']']) := closes_append_of_gap hgap rfl
  have hpath : ("/a[" ++ content ++ "]").toList =
      '/' :: ((if false then ['/'] else []) ++
        ((NameTest.name "a").display.toList ++ enclosed content)) := by
    simp [enclosed, NameTest.display]
  refine ⟨k, g', rfl, hg', last_of_condition hclose hread', ?_⟩
  refine parse_enclosed (IsName.legible (rfl : IsName "a") (by decide)) hpath ?_ hresolve'
  intro n v hn
  refine bracket_enclosed (k := k) (u := g' ++ u) (by rw [hcontent, List.append_assoc]) hg hgap
    ?_ ?_ hresolve' v hn
  · rwa [List.head?_append_of_ne_nil _ hne] at hhead
  · intro n v hn hv
    exact condition_local _ n hn hclose hv hread'

/-- In the brackets of a step a condition means what it means on its own, and its text is the one
without the blanks at the end. So it is the same condition exactly where its text on its own does
not end in a blank. -/
theorem parse_in_brackets {content path source : String} {test : Condition}
    (h : parseCondition content path = .ok (source, test)) :
    parse ("/a[" ++ content ++ "]") =
        .ok [⟨false, .name "a", none, [.condition (withoutGap source) test]⟩] ∧
      (parse ("/a[" ++ content ++ "]") =
          .ok [⟨false, .name "a", none, [.condition source test]⟩] ↔
        ∀ x ∈ source.toList.getLast?, isGap x = false) := by
  obtain ⟨k, g, rfl, hg, hlast, hparse⟩ := exists_parse_in_brackets h
  rw [withoutGap, String.toList_ofList, rdropWhile_append_of_gap hg hlast]
  refine ⟨hparse, ?_⟩
  rw [hparse]
  constructor
  · intro heq
    simp only [Except.ok.injEq, List.cons.injEq, Step.mk.injEq, Predicate.condition.injEq,
      String.ofList_inj, true_and, and_true] at heq
    rwa [← heq]
  · intro hend
    have hsame := rdropWhile_append_of_gap (g := []) nofun hend
    rw [List.append_nil, rdropWhile_append_of_gap hg hlast] at hsame
    rw [← hsame]

/-- A path with a condition of its own is compared with a bare text, behind a blank. -/
theorem parse_in_brackets_nested :
    let source := "./b[@c = ']'] != x y"
    ∃ test, parseCondition ("\t" ++ source) "/" = .ok (source, test) ∧
      parse ("/a[" ++ ("\t" ++ source) ++ "]") =
        .ok [⟨false, .name "a", none, [.condition source test]⟩] := by
  intro source
  have hsource : (parseCondition ("\t" ++ source) "/").toOption.map Prod.fst = some source := by
    decide +kernel
  obtain ⟨⟨_, test⟩, hread, rfl⟩ := Option.map_eq_some_iff.mp hsource
  rw [toOption_eq_some_iff] at hread
  have hlast : source.toList.getLast? = some 'y' := by decide +kernel
  refine ⟨test, hread, (parse_in_brackets hread).2.mpr ?_⟩
  rw [hlast]
  rintro _ ⟨⟩
  rfl

/-- A blank at the end of a bare text is in the source of the condition, and is not in brackets. -/
theorem condition_keeps_blank_at_end :
    ∃ test, parseCondition "@a=hello world " "/" = .ok ("@a=hello world ", test) ∧
      parse ("/a[" ++ "@a=hello world " ++ "]") ≠
        .ok [⟨false, .name "a", none, [.condition "@a=hello world " test]⟩] := by
  have hsource : (parseCondition "@a=hello world " "/").toOption.map Prod.fst =
      some "@a=hello world " := by
    decide +kernel
  have hinner : (parse ("/a[" ++ "@a=hello world " ++ "]")).toOption.map
      (List.map fun s => s.conditions.map Prod.fst) = some [["@a=hello world"]] := by
    decide +kernel
  obtain ⟨⟨_, test⟩, hread, rfl⟩ := Option.map_eq_some_iff.mp hsource
  rw [toOption_eq_some_iff] at hread
  refine ⟨test, hread, ?_⟩
  intro hparse
  rw [hparse] at hinner
  have hsame : [["@a=hello world "]] = [["@a=hello world"]] := Option.some.inj hinner
  revert hsame
  decide

end MarkupTree.Path

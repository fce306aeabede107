import MarkupTree.Proofs.Path.Following

/-!
# Words under the grammar

Names, tests, operators, quotations, numbers, positions and bare texts: the rules of the grammar for
them end where their readers end. None of these nest, so each is compared with its reader as a
function of the text.
-/

set_option autoImplicit false

namespace MarkupTree.Path

namespace Surface

open Grammar

theorem leftBy_localName (cs : List Char) :
    leftBy localName cs = if startsName cs then some (cs.dropWhile isNameChar) else none := by
  unfold leftBy localName
  split <;> rfl

theorem leftBy_qualifiedName (cs : List Char) :
    leftBy qualifiedName cs = if startsName cs then some (nameRun cs).2 else none := by
  unfold leftBy qualifiedName
  split <;> rfl

theorem mirrors_localName (n : Nat) : Mirrors n 4 (.rule .localName) localName := by
  intro cs _
  rw [leftBy_localName]
  exact (follows_atLeastOne isNameChar cs).rule.mono (by omega)

theorem nameRun_left_dropWhile (cs : List Char) :
    (nameRun (cs.dropWhile isNameChar)).2 = (nameRun cs).2 := by
  induction cs with
  | nil => rfl
  | cons c cs ih =>
    cases hc : isNameChar c with
    | false => rw [List.dropWhile_cons_of_neg (by simp [hc])]
    | true => simp [List.dropWhile_cons_of_pos hc, ih, nameRun, hc]

theorem startsName_dropWhile (cs : List Char) : startsName (cs.dropWhile isNameChar) = false := by
  have hhead := List.head?_dropWhile_not isNameChar cs
  unfold startsName
  cases h : (cs.dropWhile isNameChar).head? with
  | none => rfl
  | some c =>
    rw [h] at hhead
    simpa using hhead

theorem follows_colons (cs : List Char) (hcs : startsName cs = false) :
    Follows (64 * cs.length + 6) (.many (.both (.literal ":") (.rule .localName))) cs
      (some (nameRun cs).2) := by
  induction h : cs.length using Nat.strongRecOn generalizing cs with
  | _ n ih =>
    subst h
    cases cs with
    | nil => exact .many_none (.both_none (.char_neg (q := ':') rfl nofun))
    | cons c cs =>
      rw [startsName_cons] at hcs
      by_cases hc : c = ':'
      · subst hc
        have hname := mirrors_localName _ cs (Nat.lt_succ_self _)
        rw [leftBy_localName] at hname
        cases hstarts : startsName cs with
        | false =>
          have hrun : nameRun (':' :: cs) = ([], ':' :: cs) := by simp [nameRun, hcs, hstarts]
          rw [hstarts] at hname
          rw [hrun]
          exact .many_none (.both (.char_pos rfl) (hname.mono (by rw [List.length_cons]; omega)))
        | true =>
          have hrun : (nameRun (':' :: cs)).2 = (nameRun (cs.dropWhile isNameChar)).2 := by
            rw [nameRun_left_dropWhile]
            simp [nameRun, hstarts]
          have hlen := List.length_dropWhile_le isNameChar cs
          have hrest := ih _ (by rw [List.length_cons]; omega) (cs.dropWhile isNameChar)
            (startsName_dropWhile cs) rfl
          rw [hstarts, if_pos rfl] at hname
          rw [hrun]
          exact .many_some (.both (.char_pos rfl) (hname.mono (by rw [List.length_cons]; omega)))
            (hrest.mono (by rw [List.length_cons]; omega))
      · have hrun : nameRun (c :: cs) = ([], c :: cs) := by simp [nameRun, hcs, hc]
        rw [hrun]
        exact .many_none (.both_none (.char_neg (q := ':') rfl (by simpa using hc)))

theorem mirrors_qualifiedName (n : Nat) : Mirrors n 8 (.rule .qualifiedName) qualifiedName := by
  intro cs hcs
  have hname := mirrors_localName n cs hcs
  rw [leftBy_localName] at hname
  rw [leftBy_qualifiedName]
  cases hstarts : startsName cs with
  | false =>
    rw [hstarts] at hname
    exact .rule (.both_none (hname.mono (by omega)))
  | true =>
    have hlen := List.length_dropWhile_le isNameChar cs
    have hcolons := follows_colons _ (startsName_dropWhile cs)
    rw [nameRun_left_dropWhile] at hcolons
    rw [hstarts, if_pos rfl] at hname
    exact .rule (.both (hname.mono (by omega)) (hcolons.mono (by omega)))

theorem leftBy_comparison (cs : List Char) :
    leftBy comparison cs = ("!=".toList.isPrefixOf? cs).or
      (("<=".toList.isPrefixOf? cs).or ((">=".toList.isPrefixOf? cs).or
        (("=".toList.isPrefixOf? cs).or (("<".toList.isPrefixOf? cs).or
          (">".toList.isPrefixOf? cs))))) := by
  unfold leftBy comparison
  split
  case h_5 _ rest hrest =>
    have hequal := isPrefixOf?_of_head (w := []) (head_ne_of_forall hrest)
    simp [List.isPrefixOf?, hequal]
  case h_6 _ rest hrest =>
    have hequal := isPrefixOf?_of_head (w := []) (head_ne_of_forall hrest)
    simp [List.isPrefixOf?, hequal]
  case h_7 hunequal _ _ hequal hless hgreater =>
    have hbang : ['!', '='].isPrefixOf? cs = none := by
      by_cases hhead : cs.head? = some '!'
      · obtain ⟨rest, rfl⟩ := List.head?_eq_some_iff.mp hhead
        change ['='].isPrefixOf? rest = none
        exact isPrefixOf?_of_head
          (head_ne_of_forall fun after h => hunequal after (congrArg ('!' :: ·) h))
      · exact isPrefixOf?_of_head hhead
    have hequal := head_ne_of_forall hequal
    have hless := head_ne_of_forall hless
    have hgreater := head_ne_of_forall hgreater
    simp [hbang, isPrefixOf?_of_head hequal, isPrefixOf?_of_head hless,
      isPrefixOf?_of_head hgreater]
  all_goals rfl

theorem mirrors_comparison (n : Nat) : Mirrors n 8 (.rule .comparison) comparison := by
  intro cs _
  have hchoice : Follows 8 (.rule .comparison) cs _ :=
    .rule (.either (.literal "!=" cs) (.either (.literal "<=" cs) (.either (.literal ">=" cs)
      (.either (.literal "=" cs) (.either (.literal "<" cs) (.literal ">" cs))))))
  rw [leftBy_comparison]
  exact hchoice.mono (by omega)

theorem leftBy_nameTest (cs : List Char) :
    leftBy nameTest cs = ("text()".toList.isPrefixOf? cs).or
      ((("*:".toList.isPrefixOf? cs).bind (leftBy localName)).or
        (("*".toList.isPrefixOf? cs).or (leftBy qualifiedName cs))) := by
  unfold leftBy nameTest
  split
  · next rest hrest =>
    rw [hrest]
    rfl
  · next htext =>
    rw [htext, Option.none_or]
    split
    · next rest =>
      cases h : localName rest <;> simp [List.isPrefixOf?, h]
    · next rest hcolon =>
      have hnone := isPrefixOf?_of_head (w := []) (head_ne_of_forall hcolon)
      simp [List.isPrefixOf?, hnone]
    · next hcolon hstar =>
      have hhead := head_ne_of_forall hstar
      have hin : "*:".toList.isPrefixOf? cs = none := isPrefixOf?_of_head (w := [':']) hhead
      have hany : "*".toList.isPrefixOf? cs = none := isPrefixOf?_of_head (w := []) hhead
      rw [hin, hany, Option.bind_none, Option.none_or, Option.none_or, Option.map_map]
      rfl

theorem length_of_isPrefixOf? {w cs rest : List Char} (h : w.isPrefixOf? cs = some rest) :
    rest.length ≤ cs.length := by
  rw [← List.append_eq_of_isPrefixOf?_eq_some h, List.length_append]
  omega

theorem mirrors_nameTest (n : Nat) : Mirrors n 12 Grammar.nameTest nameTest := by
  intro cs hcs
  have hany : Follows (64 * cs.length + 8) (.rule .anyNamespace) cs
      (("*:".toList.isPrefixOf? cs).bind (leftBy localName)) := by
    refine .rule (.both_bind (.literal "*:" cs) ?_)
    intro mid hmid
    have hlen := length_of_isPrefixOf? hmid
    exact (mirrors_localName _ mid (Nat.lt_succ_self _)).mono (by omega)
  have hqualified := mirrors_qualifiedName n cs hcs
  rw [leftBy_nameTest]
  exact .either (.rule (.literal "text()" cs)) (.either (hany.mono (by omega))
    (.either (.rule (.literal "*" cs)) (hqualified.mono (by omega))))

theorem follows_quotation {q : Char} {mark : String} (hmark : mark.toList = [q])
    (cs : List Char) :
    Follows (cs.length + 4) (.many (.both (.unless (.literal mark)) anyChar)) cs
      (some (cs.dropWhile (· != q))) := by
  induction cs with
  | nil =>
    have hclose : Follows 1 (.literal mark) [] none := .char_neg hmark nofun
    exact .many_none (.both hclose.unlessAhead (.one_neg rfl))
  | cons c cs ih =>
    by_cases hc : c = q
    · subst hc
      have hclose : Follows (cs.length + 2) (.literal mark) (c :: cs) (some cs) := .char_pos hmark
      rw [List.dropWhile_cons_of_neg (by simp)]
      exact .many_none (.both_none hclose.unlessAhead)
    · have hclose : Follows (cs.length + 2) (.literal mark) (c :: cs) none :=
        .char_neg hmark (by simpa using hc)
      rw [List.dropWhile_cons_of_pos (by simpa using hc)]
      exact .many_some (.both hclose.unlessAhead (.one_pos rfl)) ih

/-- What stands behind a text in these quotation marks. -/
def afterQuotation? (q : Char) : List Char → Option (List Char)
  | [] => none
  | c :: cs => if c = q then (cs.dropWhile (· != q)).tail? else none

theorem follows_enclosed {q : Char} {mark : String} (hmark : mark.toList = [q]) {r : Rule}
    (hr : r.body = .many (.both (.unless (.literal mark)) anyChar)) (cs : List Char) :
    Follows (cs.length + 8) (chain [.literal mark, .rule r, .literal mark]) cs
      (afterQuotation? q cs) := by
  cases cs with
  | nil => exact .both_none (.char_neg hmark nofun)
  | cons c cs =>
    by_cases hc : c = q
    · subst hc
      have hcontent := follows_quotation hmark cs
      rw [← hr] at hcontent
      have hclose : Follows (cs.length + 6) (.literal mark) (cs.dropWhile (· != c))
          (cs.dropWhile (· != c)).tail? := by
        have hhead := List.head?_dropWhile_not (· != c) cs
        cases hrest : cs.dropWhile (· != c) with
        | nil => exact .char_neg hmark nofun
        | cons e rest =>
          rw [hrest] at hhead
          obtain rfl : e = c := by simpa using hhead
          exact .char_pos hmark
      rw [afterQuotation?, if_pos rfl]
      exact .both (.char_pos hmark) (.both (hcontent.rule.mono (by simp)) (hclose.mono (by simp)))
    · rw [afterQuotation?, if_neg hc]
      exact .both_none (.char_neg hmark (by simpa using hc))

theorem leftBy_quoted (cs : List Char) :
    leftBy quoted cs = (afterQuotation? '"' cs).or (afterQuotation? '\'' cs) := by
  cases cs with
  | nil => rfl
  | cons q cs =>
    by_cases hdouble : q = '"'
    · subst hdouble
      simp only [leftBy, quoted, afterQuotation?]
      cases cs.dropWhile (· != '"') <;> rfl
    · by_cases hsingle : q = '\''
      · subst hsingle
        simp only [leftBy, quoted, afterQuotation?]
        cases cs.dropWhile (· != '\'') <;> rfl
      · simp [leftBy, quoted, afterQuotation?, hdouble, hsingle]

theorem mirrors_quoted (n : Nat) : Mirrors n 12 (.rule .stringLiteral) quoted := by
  intro cs _
  have hboth := (follows_enclosed (q := '"') rfl (r := .doubleQuoted) rfl cs).either
    (follows_enclosed (q := '\'') rfl (r := .singleQuoted) rfl cs)
  rw [leftBy_quoted]
  exact hboth.rule.mono (by omega)

theorem follows_mantissa (cs : List Char) :
    Follows (cs.length + 7)
      (.either (.both (atLeastOnce digit) (.perhaps (.both (.literal ".") (.many digit))))
        (.both (.literal ".") (atLeastOnce digit))) cs (skipMantissa? cs) := by
  have hdigits := follows_atLeastOne Decimal.isDigit cs
  cases hhead : cs.head?.any Decimal.isDigit with
  | true =>
    have hwhole : Follows (cs.length + 6)
        (.both (atLeastOnce digit) (.perhaps (.both (.literal ".") (.many digit)))) cs
        (skipMantissa? cs) := by
      have hlen := List.length_dropWhile_le Decimal.isDigit cs
      rw [hhead, if_pos rfl] at hdigits
      unfold skipMantissa?
      rw [if_pos hhead]
      refine .both (hdigits.mono (by omega)) ?_
      split
      · next rest hrest =>
        have hpart := follows_run Decimal.isDigit rest
        rw [hrest, List.length_cons] at hlen
        rw [hrest]
        exact .perhaps (.both (.char_pos (q := '.') rfl) (hpart.mono (by omega)))
      · next hnot =>
        exact .perhaps (.both_none (.char_neg (q := '.') rfl (head_ne_of_forall hnot)))
    have hnot : cs.head? ≠ some '.' := by
      intro hdot
      rw [hdot] at hhead
      cases hhead
    simpa using hwhole.either (.both_none (.char_neg (q := '.') rfl hnot))
  | false =>
    rw [hhead] at hdigits
    unfold skipMantissa?
    rw [if_neg (by simp [hhead])]
    refine (Follows.both_none (hdigits.mono (by omega))).either (x := none) ?_
    split
    · next rest =>
      exact .both (.char_pos (q := '.') rfl)
        ((follows_atLeastOne Decimal.isDigit rest).mono (by simp))
    · next hnot =>
      exact .both_none (.char_neg (q := '.') rfl (head_ne_of_forall hnot))

theorem follows_sign {k : Nat} (cs : List Char) :
    Follows (k + 3) (.perhaps (.either (.literal "+") (.literal "-"))) cs
      (some (Decimal.sign cs).2) := by
  have hmarks := ((Follows.literal (k := k) "+" cs).either (.literal "-" cs)).perhaps
  have hsign : (("+".toList.isPrefixOf? cs).or ("-".toList.isPrefixOf? cs)).getD cs =
      (Decimal.sign cs).2 := by
    unfold Decimal.sign
    split
    · rfl
    · rfl
    · next hminus hplus =>
      have hminus := isPrefixOf?_of_head (w := []) (head_ne_of_forall hminus)
      have hplus := isPrefixOf?_of_head (w := []) (head_ne_of_forall hplus)
      simp [hminus, hplus]
  rwa [hsign] at hmarks

theorem follows_exponent (cs : List Char) :
    Follows (cs.length + 7)
      (.perhaps (chain [
        .one fun c => c == 'e' || c == 'E',
        .perhaps (.either (.literal "+") (.literal "-")),
        atLeastOnce digit])) cs (some (skipExponent cs)) := by
  cases cs with
  | nil => exact .perhaps (.both_none (.one_neg rfl))
  | cons c cs =>
    cases hc : c == 'e' || c == 'E' with
    | false =>
      rw [skipExponent, hc]
      exact .perhaps (.both_none (.one_neg (by simpa using hc)))
    | true =>
      have hlen := (sign_suffix cs).length_le
      have hdigits := follows_atLeastOne Decimal.isDigit (Decimal.sign cs).2
      have hpart : Follows (cs.length + 7) (chain [
          .one fun c => c == 'e' || c == 'E',
          .perhaps (.either (.literal "+") (.literal "-")),
          atLeastOnce digit]) (c :: cs) _ :=
        .both (.one_pos hc) (.both (follows_sign (k := cs.length + 2) cs) (hdigits.mono (by omega)))
      rw [skipExponent, hc]
      have hwhole := hpart.perhaps
      simp only [reduceIte]
      split at hwhole
      · next h => rwa [if_pos h]
      · next h => rwa [if_neg h]

theorem leftBy_number (cs : List Char) :
    leftBy number cs =
      (skipMantissa? (("-".toList.isPrefixOf? cs).getD cs)).map skipExponent := by
  have hread : ∀ unsigned, ((skipMantissa? unsigned).bind fun rest =>
      some (Operand.number (taken cs (skipExponent rest)), skipExponent rest)).map Prod.snd =
        (skipMantissa? unsigned).map skipExponent := by
    intro unsigned
    cases skipMantissa? unsigned <;> rfl
  unfold leftBy number
  split
  · exact hread _
  · next hnot =>
    have hminus : "-".toList.isPrefixOf? cs = none :=
      isPrefixOf?_of_head (w := []) (head_ne_of_forall hnot)
    rw [hminus]
    exact hread cs

theorem mirrors_number (n : Nat) : Mirrors n 12 (.rule .number) number := by
  intro cs _
  have hlen : (("-".toList.isPrefixOf? cs).getD cs).length ≤ cs.length := by
    cases h : "-".toList.isPrefixOf? cs with
    | none => exact Nat.le_refl _
    | some rest => exact length_of_isPrefixOf? h
  have hmantissa := follows_mantissa (("-".toList.isPrefixOf? cs).getD cs)
  rw [leftBy_number]
  refine .rule (.both (.perhaps (.literal "-" cs)) (.both_map (hmantissa.mono (by omega)) ?_))
  intro rest hrest
  have hlt := (skipMantissa?_leaves hrest).2
  exact (follows_exponent rest).mono (by omega)

theorem isSome_leftBy {α : Type} (p : Parser α) (cs : List Char) :
    (leftBy p cs).isSome = (p cs).isSome :=
  Option.isSome_map

theorem isSome_isPrefixOf? (q : Char) (cs : List Char) :
    ([q].isPrefixOf? cs).isSome = (cs.head? == some q) := by
  cases cs with
  | nil => rfl
  | cons c cs =>
    by_cases hc : c = q
    · subst hc
      simp [List.isPrefixOf?]
    · simp [List.isPrefixOf?, hc, Ne.symm hc]

theorem follows_stop (cs : List Char) :
    ∃ x, Follows (64 * cs.length + 11)
      (.both gap (.either (.rule .comparison) (.literal "]"))) cs x ∧ x.isSome = stops cs := by
  have hlen := (skipGap_suffix cs).length_le
  have hcomparison := mirrors_comparison _ (skipGap cs) (Nat.lt_succ_self _)
  have hstop := (hcomparison.mono (m := 64 * cs.length + 9) (by omega)).either
    (.literal "]" (skipGap cs))
  refine ⟨_, .both ((follows_gap cs).mono (by omega)) hstop, ?_⟩
  rw [Option.isSome_or, isSome_leftBy, stops]
  exact congrArg _ (isSome_isPrefixOf? ']' _)

theorem follows_operandEnd (cs : List Char) :
    ∃ x, Follows (64 * cs.length + 12) operandEnd cs x ∧ x.isSome = endsOperand cs := by
  have hlen := (skipGap_suffix cs).length_le
  have hcomparison := mirrors_comparison _ (skipGap cs) (Nat.lt_succ_self _)
  have hend := (hcomparison.mono (m := 64 * cs.length + 10) (by omega)).either
    ((Follows.literal "]" (skipGap cs)).either
      (.rule (r := .endOfInput) (.nothingLeft (skipGap cs))))
  refine ⟨_, .both ((follows_gap cs).mono (by omega)) hend, ?_⟩
  rw [Option.isSome_or, Option.isSome_or, isSome_leftBy, endsOperand, stops, ← Bool.or_assoc]
  congr 1
  · exact congrArg _ (isSome_isPrefixOf? ']' _)
  · cases (skipGap cs).isEmpty <;> rfl

theorem isEmpty_takeWhile (p : Char → Bool) (cs : List Char) :
    (cs.takeWhile p).isEmpty = !cs.head?.any p := by
  cases cs with
  | nil => rfl
  | cons c cs => cases hc : p c <;> simp [hc]

theorem leftBy_position (cs : List Char) :
    leftBy position cs =
      if cs.head?.any Decimal.isDigit &&
          (skipGap (cs.dropWhile Decimal.isDigit)).head? == some ']' then
        some (cs.dropWhile Decimal.isDigit)
      else none := by
  simp only [leftBy, position, isEmpty_takeWhile, Bool.not_not]
  split <;> rfl

theorem mirrors_position (n : Nat) : Mirrors n 8 (.rule .position) position := by
  intro cs _
  have hlen := List.length_dropWhile_le Decimal.isDigit cs
  have hdigits := follows_atLeastOne Decimal.isDigit cs
  rw [leftBy_position]
  cases hhead : cs.head?.any Decimal.isDigit with
  | false =>
    rw [hhead] at hdigits
    exact .rule (.both_none (hdigits.mono (by omega)))
  | true =>
    have hgap := follows_gap (cs.dropWhile Decimal.isDigit)
    have hclose := (Follows.both (hgap.mono (m := 64 * cs.length + 4) (by omega))
      (.literal "]" (skipGap (cs.dropWhile Decimal.isDigit)))).ahead
    have hsome : ("]".toList.isPrefixOf? (skipGap (cs.dropWhile Decimal.isDigit))).isSome = _ :=
      isSome_isPrefixOf? ']' _
    rw [hhead, if_pos rfl] at hdigits
    rw [hsome] at hclose
    exact .rule (.both (hdigits.mono (by omega)) hclose)

/-- Where a bare text ends. -/
def endsBare (cs : List Char) : Bool :=
  stops cs || (cs.head? == some '[' || (cs.head? == some '"' || cs.head? == some '\''))

theorem follows_bareChar (cs : List Char) :
    Follows (64 * cs.length + 14)
      (chain [
        .unless (.both gap (.either (.rule .comparison) (.literal "]"))),
        .unless quotation,
        anyChar]) cs (if endsBare cs then none else cs.tail?) := by
  obtain ⟨x, hstop, hx⟩ := follows_stop cs
  have hunless := hstop.unlessAhead
  have hmarks := ((Follows.literal (k := 64 * cs.length + 9) "[" cs).either
    ((Follows.literal "\"" cs).either (.literal "'" cs))).unlessAhead
  rw [hx] at hunless
  have hmark : (("[".toList.isPrefixOf? cs).or (("\"".toList.isPrefixOf? cs).or
      ("'".toList.isPrefixOf? cs))).isSome =
        (cs.head? == some '[' || (cs.head? == some '"' || cs.head? == some '\'')) := by
    rw [Option.isSome_or, Option.isSome_or]
    exact congr (congrArg _ (isSome_isPrefixOf? '[' cs))
      (congr (congrArg _ (isSome_isPrefixOf? '"' cs)) (isSome_isPrefixOf? '\'' cs))
  rw [hmark] at hmarks
  simp only [chain]
  unfold endsBare
  cases hstops : stops cs with
  | true =>
    rw [hstops] at hunless
    exact .both_none (hunless.mono (by omega))
  | false =>
    rw [hstops] at hunless
    rw [Bool.false_or]
    refine .both (hunless.mono (by omega)) ?_
    split
    · next hends =>
      rw [hends] at hmarks
      exact .both_none hmarks
    · next hends =>
      rw [if_neg hends] at hmarks
      refine .both hmarks ?_
      cases cs with
      | nil => exact .one_neg rfl
      | cons c cs => exact .one_pos rfl

theorem bareRun_cons (c : Char) (cs : List Char) :
    bareRun (c :: cs) =
      if endsBare (c :: cs) then ([], c :: cs) else (c :: (bareRun cs).1, (bareRun cs).2) := by
  simp [bareRun, endsBare, or_assoc]

theorem follows_bareRun (cs : List Char) :
    Follows (64 * cs.length + 15)
      (.many (chain [
        .unless (.both gap (.either (.rule .comparison) (.literal "]"))),
        .unless quotation,
        anyChar])) cs (some (bareRun cs).2) := by
  have hchar := follows_bareChar cs
  induction cs with
  | nil => exact .many_none hchar
  | cons c cs ih =>
    rw [bareRun_cons]
    cases hends : endsBare (c :: cs) with
    | true =>
      rw [hends] at hchar
      exact .many_none hchar
    | false =>
      rw [hends] at hchar
      exact .many_some hchar ((ih (follows_bareChar cs)).mono (by rw [List.length_cons]; omega))

theorem mirrors_bare (n : Nat) : Mirrors n 20 (.rule .bareLiteral) bare := by
  intro cs _
  have hchar := follows_bareChar cs
  cases cs with
  | nil => exact .rule (.both_none (hchar.mono (by simp)))
  | cons c cs =>
    have hbare : leftBy bare (c :: cs) =
        if endsBare (c :: cs) then none else some (bareRun cs).2 := by
      simp only [leftBy, bare, bareRun_cons]
      cases endsBare (c :: cs) <;> rfl
    rw [hbare]
    cases hends : endsBare (c :: cs) with
    | true =>
      rw [hends] at hchar
      exact .rule (.both_none (hchar.mono (by simp)))
    | false =>
      rw [hends] at hchar
      exact .rule (.both (hchar.mono (by simp))
        ((follows_bareRun cs).mono (by rw [List.length_cons]; omega)))

end Surface

end MarkupTree.Path

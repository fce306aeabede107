import MarkupTree.Proofs.Path.Consumption

/-!
# What follows a piece of a path does not change it

A reader looks at most a little beyond what it takes. So a name, a number or a text without brackets
is read in the same way whatever follows it, as long as it ends there, and a repetition reads the
same items again if each of them is read again.
-/

set_option autoImplicit false

namespace MarkupTree.Path.Surface

/-- What has been read from a text, when the text goes on with `t`. -/
def followed {α : Type} (t : List Char) (found : α × List Char) : α × List Char :=
  (found.1, found.2 ++ t)

theorem eq_some_of_map_followed {α : Type} {t : List Char} {found : Option (α × List Char)} {x : α}
    (h : found.map (followed t) = some (x, t)) : found = some (x, []) := by
  obtain ⟨⟨y, rest⟩, rfl, heq⟩ := Option.map_eq_some_iff.mp h
  obtain ⟨hy, hrest⟩ := Prod.mk.inj heq
  rw [List.append_left_eq_self] at hrest
  exact congrArg some (Prod.ext hy hrest)

/-- Texts before which every name, name test and number ends. -/
def EndsName (t : List Char) : Prop :=
  ∀ c ∈ t.head?, isNameChar c = false ∧ c ∉ [':', '(', ')', '*']

/-- Texts before which every segment ends, with its row of brackets. -/
def Breaks (t : List Char) : Prop :=
  EndsName t ∧ t.head? ≠ some '@' ∧ t.head? ≠ some '['

theorem breaks_nil : Breaks [] := ⟨nofun, nofun, nofun⟩

theorem endsName_cons {x : Char} (hname : isNameChar x = false) (hx : x ∉ [':', '(', ')', '*'])
    (t : List Char) : EndsName (x :: t) := by
  rintro _ ⟨⟩
  exact ⟨hname, hx⟩

theorem breaks_cons {x : Char} (hname : isNameChar x = false)
    (hx : x ∉ [':', '(', ')', '*', '@', '[']) (t : List Char) : Breaks (x :: t) := by
  simp only [List.mem_cons, List.not_mem_nil, or_false, not_or] at hx
  obtain ⟨hcolon, hopen, hclose, hstar, hattribute, hbracket⟩ := hx
  refine ⟨endsName_cons hname ?_ t, by simpa using hattribute, by simpa using hbracket⟩
  simp [hcolon, hopen, hclose, hstar]

section Runs

variable {p : Char → Bool} {t : List Char}

theorem dropWhile_append_of_head (h : ∀ c ∈ t.head?, p c = false) (cs : List Char) :
    (cs ++ t).dropWhile p = cs.dropWhile p ++ t := by
  induction cs with
  | nil =>
    cases t with
    | nil => rfl
    | cons c t => simp [h c rfl]
  | cons c cs ih => cases hc : p c <;> simp [hc, ih]

theorem takeWhile_append_of_head (h : ∀ c ∈ t.head?, p c = false) (cs : List Char) :
    (cs ++ t).takeWhile p = cs.takeWhile p := by
  induction cs with
  | nil =>
    cases t with
    | nil => rfl
    | cons c t => simp [h c rfl]
  | cons c cs ih => cases hc : p c <;> simp [hc, ih]

end Runs

section Names

variable {t : List Char}

theorem EndsName.head_ne (ht : EndsName t) {x : Char}
    (hx : isNameChar x = true ∨ x ∈ [':', '(', ')', '*']) : t.head? ≠ some x := by
  intro h
  obtain ⟨hname, hmem⟩ := ht x h
  rcases hx with hx | hx
  · rw [hname] at hx
    cases hx
  · exact hmem hx

theorem startsName_append (ht : EndsName t) (cs : List Char) :
    startsName (cs ++ t) = startsName cs := by
  cases cs with
  | nil =>
    cases t with
    | nil => rfl
    | cons c t => exact (startsName_cons c t).trans (ht c rfl).1
  | cons c cs => rw [List.cons_append, startsName_cons, startsName_cons]

theorem localName_append (ht : EndsName t) (cs : List Char) :
    localName (cs ++ t) = (localName cs).map (followed t) := by
  have hhead : ∀ c ∈ t.head?, isNameChar c = false := fun c hc => (ht c hc).1
  unfold localName
  rw [startsName_append ht, takeWhile_append_of_head hhead, dropWhile_append_of_head hhead]
  split <;> rfl

theorem nameRun_append_of_endsName (ht : EndsName t) (cs : List Char) :
    nameRun (cs ++ t) = ((nameRun cs).1, (nameRun cs).2 ++ t) := by
  induction cs with
  | nil =>
    cases t with
    | nil => rfl
    | cons c t =>
      have hc := ht c rfl
      have hcolon : c ≠ ':' := fun h => hc.2 (by simp [h])
      simp [nameRun, hc.1, hcolon]
  | cons c cs ih =>
    rw [List.cons_append, nameRun, nameRun, startsName_append ht, ih]
    split <;> rfl

theorem qualifiedName_append (ht : EndsName t) (cs : List Char) :
    qualifiedName (cs ++ t) = (qualifiedName cs).map (followed t) := by
  unfold qualifiedName
  rw [startsName_append ht, nameRun_append_of_endsName ht]
  split <;> rfl

theorem isPrefixOf?_append {key : List Char} (hkey : ∀ c ∈ key, c ∉ t.head?) (cs : List Char) :
    key.isPrefixOf? (cs ++ t) = (key.isPrefixOf? cs).map (· ++ t) := by
  induction key generalizing cs with
  | nil => rfl
  | cons k key ih =>
    cases cs with
    | nil =>
      cases t with
      | nil => rfl
      | cons c t =>
        have hne : k ≠ c := fun h => hkey k List.mem_cons_self (h ▸ rfl)
        simp [List.isPrefixOf?, hne]
    | cons c cs =>
      have ih := ih (fun k hk => hkey k (List.mem_cons_of_mem _ hk)) cs
      by_cases hc : k = c
      · simp [List.isPrefixOf?, hc, ih]
      · simp [List.isPrefixOf?, hc]

theorem qualifiedName_of_endsName (ht : EndsName t) : qualifiedName t = none := by
  have h : startsName t = false := startsName_append ht []
  simp [qualifiedName, h]

theorem nameTest_append (ht : EndsName t) (cs : List Char) :
    nameTest (cs ++ t) = (nameTest cs).map (followed t) := by
  have hkey : ∀ c ∈ "text()".toList, c ∉ t.head? := by
    have hall : "text()".toList.all fun c =>
        isNameChar c || [':', '(', ')', '*'].contains c := by decide
    intro c hc
    apply ht.head_ne
    simpa only [Bool.or_eq_true, List.contains_iff_mem] using List.all_eq_true.mp hall c hc
  have hstar : ∀ after, t ≠ '*' :: after := by
    rintro after rfl
    exact ht.head_ne (.inr (by decide)) rfl
  have hcolon : ∀ after, t ≠ ':' :: after := by
    rintro after rfl
    exact ht.head_ne (.inr (by decide)) rfl
  unfold nameTest
  rw [isPrefixOf?_append hkey]
  cases "text()".toList.isPrefixOf? cs with
  | some rest => rfl
  | none =>
    cases cs with
    | nil =>
      simp only [List.nil_append, Option.map_none]
      split
      · exact absurd rfl (hstar _)
      · exact absurd rfl (hstar _)
      · rw [qualifiedName_of_endsName ht]
        rfl
    | cons c cs =>
      simp only [List.cons_append, Option.map_none]
      split
      · next after h =>
        obtain ⟨rfl, htail⟩ := List.cons.inj h
        cases cs with
        | nil => exact absurd htail (hcolon _)
        | cons d cs =>
          rw [List.cons_append] at htail
          obtain ⟨rfl, rfl⟩ := List.cons.inj htail
          simp only [localName_append ht]
          cases localName cs <;> rfl
      · next after hnot h =>
        obtain ⟨rfl, rfl⟩ := List.cons.inj h
        split
        · next h => cases h; exact absurd rfl (hnot _)
        · next h => cases h; rfl
        · next hstar => exact absurd rfl (hstar _)
      · next hnot hnot' =>
        split
        · next h => cases h; exact absurd rfl (hnot _)
        · next h => cases h; exact absurd rfl (hnot' _)
        · rw [← List.cons_append, qualifiedName_append ht]
          cases qualifiedName (c :: cs) <;> rfl

end Names

theorem taken_append_append (cs rest t : List Char) :
    taken (cs ++ t) (rest ++ t) = taken cs rest := by
  unfold taken
  rw [List.length_append, List.length_append, Nat.add_sub_add_right,
    List.take_append_of_le_length (Nat.sub_le _ _)]

section Numbers

theorem isNameChar_of_isDigit {c : Char} (h : Decimal.isDigit c = true) : isNameChar c = true := by
  simp only [Decimal.isDigit, Bool.and_eq_true, decide_eq_true_eq] at h
  have hlow : 48 ≤ c.toNat := h.1
  have hhigh : c.toNat ≤ 57 := h.2
  have hreserved : c ∉ reserved := by
    intro hmem
    have hall : reserved.all fun x => x.toNat < 48 ∨ 57 < x.toNat := by decide
    have := of_decide_eq_true (List.all_eq_true.mp hall c hmem)
    omega
  have hblank : Text.isBlank c = false := by
    simp [Text.isBlank]
    omega
  simp [isNameChar, hreserved, hblank]

variable {t : List Char} (ht : EndsName t)
include ht

theorem EndsName.not_digit : ∀ c ∈ t.head?, Decimal.isDigit c = false := by
  intro c hc
  cases hdigit : Decimal.isDigit c with
  | false => rfl
  | true => exact absurd hc (ht.head_ne (.inl (isNameChar_of_isDigit hdigit)))

theorem anyDigit_append (cs : List Char) :
    (cs ++ t).head?.any Decimal.isDigit = cs.head?.any Decimal.isDigit := by
  cases cs with
  | cons c cs => rfl
  | nil =>
    cases t with
    | nil => rfl
    | cons c t => simpa using ht.not_digit c rfl

theorem sign_append (cs : List Char) :
    (Decimal.sign (cs ++ t)).2 = (Decimal.sign cs).2 ++ t := by
  cases cs with
  | nil =>
    rw [List.nil_append]
    unfold Decimal.sign
    split
    · exact absurd rfl (ht.head_ne (x := '-') (.inl (by decide)))
    · exact absurd rfl (ht.head_ne (x := '+') (.inl (by decide)))
    · rfl
  | cons c cs =>
    rw [List.cons_append]
    unfold Decimal.sign
    split
    · next h => cases h; rfl
    · next h => cases h; rfl
    · next hminus hplus =>
      split
      · next h => cases h; exact absurd rfl (hminus _)
      · next h => cases h; exact absurd rfl (hplus _)
      · rfl

theorem skipExponent_of_endsName : skipExponent t = t := by
  cases t with
  | nil => rfl
  | cons c t =>
    have hsmall : c ≠ 'e' := fun h => ht.head_ne (x := 'e') (.inl (by decide)) (congrArg some h)
    have hlarge : c ≠ 'E' := fun h => ht.head_ne (x := 'E') (.inl (by decide)) (congrArg some h)
    simp [skipExponent, hsmall, hlarge]

theorem skipExponent_append (cs : List Char) :
    skipExponent (cs ++ t) = skipExponent cs ++ t := by
  cases cs with
  | nil => exact skipExponent_of_endsName ht
  | cons c cs =>
    simp only [List.cons_append, skipExponent, sign_append ht, anyDigit_append ht,
      dropWhile_append_of_head ht.not_digit]
    split
    · split <;> rfl
    · rfl

theorem skipMantissa?_append (cs : List Char) :
    skipMantissa? (cs ++ t) = (skipMantissa? cs).map (· ++ t) := by
  have hpoint : ∀ after, t ≠ '.' :: after := by
    rintro after rfl
    exact ht.head_ne (x := '.') (.inl (by decide)) rfl
  unfold skipMantissa?
  rw [anyDigit_append ht, dropWhile_append_of_head ht.not_digit]
  split
  · cases cs.dropWhile Decimal.isDigit with
    | nil =>
      rw [List.nil_append]
      split
      · exact absurd rfl (hpoint _)
      · rfl
    | cons c rest =>
      rw [List.cons_append]
      split
      · next h =>
        cases h
        simp [dropWhile_append_of_head ht.not_digit]
      · next hpoint =>
        split
        · next h => cases h; exact absurd rfl (hpoint _)
        · rfl
  · cases cs with
    | nil =>
      rw [List.nil_append]
      split
      · exact absurd rfl (hpoint _)
      · rfl
    | cons c rest =>
      rw [List.cons_append]
      split
      · next h =>
        cases h
        rw [anyDigit_append ht]
        split
        · next hfirst => simp [dropWhile_append_of_head ht.not_digit, hfirst]
        · next hfirst => simp [hfirst]
      · next hpoint =>
        split
        · next h => cases h; exact absurd rfl (hpoint _)
        · rfl

theorem number_append (cs : List Char) :
    number (cs ++ t) = (number cs).map (followed t) := by
  have hread : ∀ unsigned : List Char,
      (skipMantissa? (unsigned ++ t)).bind (fun mid =>
          some (Operand.number (taken (cs ++ t) (skipExponent mid)), skipExponent mid)) =
        ((skipMantissa? unsigned).bind fun mid =>
          some (Operand.number (taken cs (skipExponent mid)), skipExponent mid)).map
            (followed t) := by
    intro unsigned
    rw [skipMantissa?_append ht]
    cases skipMantissa? unsigned with
    | none => rfl
    | some mid => simp [skipExponent_append ht, taken_append_append, followed]
  unfold number
  cases cs with
  | nil =>
    have hminus : ∀ after, t ≠ '-' :: after := by
      rintro after rfl
      exact ht.head_ne (x := '-') (.inl (by decide)) rfl
    rw [List.nil_append]
    split
    · exact absurd rfl (hminus _)
    · exact hread []
  | cons c cs =>
    by_cases hc : c = '-'
    · subst hc
      exact hread cs
    · have h := hread (c :: cs)
      simp only [List.cons_append] at h ⊢
      simpa [hc] using h

end Numbers

section Repetition

variable {α : Type} {item item' : Parser α} {u u' : List Char}

theorem repeated_next {fuel : Nat} {k : List Char} {xs : List α}
    (hrun : repeated item fuel (k ++ u) = (xs, u)) : k = [] ∨ (item (k ++ u)).isSome := by
  cases h : item (k ++ u) with
  | some found => exact .inr rfl
  | none =>
    rw [repeated_of_none h] at hrun
    exact .inl (List.append_left_eq_self.mp (Prod.mk.inj hrun).2)

theorem repeated_local (hitem : Consumes item) (hitem' : Consumes item') {fuel more : Nat}
    {s : List Char} {xs : List α} (hrun : repeated item fuel (s ++ u) = (xs, u))
    (hstep : ∀ w k x, w ++ k <:+ s → item (w ++ (k ++ u)) = some (x, k ++ u) →
      k = [] ∨ (item (k ++ u)).isSome → item' (w ++ (k ++ u')) = some (x, k ++ u'))
    (hmore : (s ++ u').length ≤ more) :
    repeated item' more (s ++ u') =
      (xs ++ (repeated item' more u').1, (repeated item' more u').2) := by
  induction fuel generalizing s xs more with
  | zero =>
    obtain ⟨rfl, hs⟩ := Prod.mk.inj hrun
    obtain rfl := List.append_left_eq_self.mp hs
    rfl
  | succ fuel ih =>
    cases h : item (s ++ u) with
    | none =>
      rw [repeated_of_none h] at hrun
      obtain ⟨rfl, hs⟩ := Prod.mk.inj hrun
      obtain rfl := List.append_left_eq_self.mp hs
      rfl
    | some found =>
      obtain ⟨x, rest⟩ := found
      rw [repeated_of_some h] at hrun
      obtain ⟨rfl, hleft⟩ := Prod.mk.inj hrun
      obtain ⟨k, rfl⟩ : u <:+ rest := hleft ▸ repeated_suffix hitem fuel rest
      obtain ⟨w, hw⟩ := (hitem h).1
      obtain rfl : w ++ k = s := by simpa [← List.append_assoc] using hw
      rw [List.append_assoc] at h
      have hrest : repeated item fuel (k ++ u) = ((repeated item fuel (k ++ u)).1, u) :=
        Prod.ext rfl hleft
      have hread := hstep w k x (List.suffix_refl _) h (repeated_next hrest)
      have hlt := (hitem' hread).2
      simp only [List.length_append] at hlt hmore
      obtain ⟨more, rfl⟩ : ∃ n, more = n + 1 := ⟨more - 1, by omega⟩
      have hfuel : u'.length ≤ more := by omega
      rw [List.append_assoc, repeated_of_some hread,
        repeated_fuel hitem' (Nat.le_succ_of_le hfuel) hfuel, ih hrest]
      · rfl
      · intro w' k' y hsuffix
        exact hstep w' k' y (hsuffix.trans (List.suffix_append w k))
      · simp only [List.length_append]
        omega

end Repetition

theorem separator_append {u : List Char} (hslash : u.head? ≠ some '/') (cs : List Char) :
    separator (cs ++ u) = (separator cs).map (followed u) := by
  have hu : ∀ after, u ≠ '/' :: after := by
    rintro after rfl
    exact hslash rfl
  unfold separator
  cases cs with
  | nil =>
    rw [List.nil_append]
    split
    · exact absurd rfl (hu _)
    · exact absurd rfl (hu _)
    · rfl
  | cons x cs =>
    rw [List.cons_append]
    split
    · next h =>
      obtain ⟨rfl, htail⟩ := List.cons.inj h
      cases cs with
      | nil => exact absurd htail (hu _)
      | cons y cs =>
        rw [List.cons_append] at htail
        obtain ⟨rfl, rfl⟩ := List.cons.inj htail
        rfl
    · next hnot h =>
      obtain ⟨rfl, rfl⟩ := List.cons.inj h
      split
      · next h => cases h; exact absurd rfl (hnot _)
      · next h => cases h; rfl
      · next hone => exact absurd rfl (hone _)
    · next hone =>
      split
      · next h => cases h; exact absurd rfl (hone _)
      · next h => cases h; exact absurd rfl (hone _)
      · rfl

section Bracketless

variable {u : List Char} (hu : Breaks u) (c c' : Parser Condition)
include hu

theorem brackets_of_bracketless {cs : List Char} (hcs : '[' ∉ cs) :
    brackets c (cs ++ u) = ([], cs ++ u) := by
  refine repeated_of_none (bracket_eq_none ?_) _
  cases cs with
  | nil => exact hu.2.2
  | cons x cs =>
    intro h
    cases h
    exact hcs List.mem_cons_self

theorem named_append_of_bracketless (d : Bool) {cs : List Char} (hcs : '[' ∉ cs) :
    segment.named c d (cs ++ u) = (segment.named c' d cs).map (followed u) := by
  simp only [segment.named, nameTest_append hu.1]
  cases h : nameTest cs with
  | none => rfl
  | some found =>
    obtain ⟨test, rest⟩ := found
    have hrest : '[' ∉ rest := fun hmem => hcs ((nameTest_consumes h).1.subset hmem)
    have hempty : brackets c' rest = ([], rest) := by
      simpa using brackets_of_bracketless breaks_nil c' hrest
    simp [followed, brackets_of_bracketless hu c hrest, hempty]

theorem segment_append_of_bracketless (d : Bool) {cs : List Char} (hcs : '[' ∉ cs) :
    segment c d (cs ++ u) = (segment c' d cs).map (followed u) := by
  have hnamed := named_append_of_bracketless hu c c' d hcs
  cases cs with
  | nil =>
    unfold segment
    simp only [List.nil_append] at hnamed ⊢
    split
    · exact absurd rfl hu.2.1
    · exact absurd rfl (hu.1.head_ne (x := '.') (.inl (by decide)))
    · exact hnamed
  | cons x cs =>
    rw [List.cons_append] at hnamed ⊢
    unfold segment
    split
    · next h =>
      obtain ⟨rfl, rfl⟩ := List.cons.inj h
      simp only [qualifiedName_append hu.1, Option.map_map]
      rfl
    · next h =>
      obtain ⟨rfl, rfl⟩ := List.cons.inj h
      rw [startsName_append hu.1, hnamed]
      cases hstarts : startsName cs <;> simp [hstarts, followed]
    · next hattribute hself =>
      split
      · next h => cases h; exact absurd rfl (hattribute _)
      · next h => cases h; exact absurd rfl (hself _)
      · exact hnamed

theorem separated_append_of_bracketless (hslash : u.head? ≠ some '/') {cs : List Char}
    (hcs : '[' ∉ cs) : separated c (cs ++ u) = (separated c' cs).map (followed u) := by
  simp only [separated, separator_append hslash]
  cases h : separator cs with
  | none => rfl
  | some found =>
    obtain ⟨d, rest⟩ := found
    have hrest : '[' ∉ rest := fun hmem => hcs ((separator_consumes h).1.subset hmem)
    exact segment_append_of_bracketless hu c c' d hrest

theorem segments_append_of_bracketless (hc : Consumes c) (hc' : Consumes c')
    (hslash : u.head? ≠ some '/') {cs : List Char} (hcs : '[' ∉ cs) :
    segments c (cs ++ u) = (segments c' cs).map (followed u) := by
  simp only [segments, segment_append_of_bracketless hu c c' false hcs]
  cases h : segment c' false cs with
  | none => rfl
  | some found =>
    obtain ⟨first, after⟩ := found
    have hafter : ∀ {cs}, cs <:+ after → '[' ∉ cs := fun hsuffix hmem =>
      hcs ((segment_consumes hc' false h).1.subset (hsuffix.subset hmem))
    obtain ⟨s, hs⟩ := repeated_suffix (separated_consumes hc') after.length after
    generalize hrun : repeated (separated c') after.length after = found at hs
    obtain ⟨segs, left⟩ := found
    obtain rfl : s ++ left = after := hs
    have hstuck : separated c (left ++ u) = none := by
      have := repeated_stuck (separated_consumes hc') (Nat.le_refl (s ++ left).length)
      rw [hrun] at this
      rw [separated_append_of_bracketless hu c c' hslash (hafter (List.suffix_append s left)), this]
      rfl
    have hstep : ∀ w k x, w ++ k <:+ s → separated c' (w ++ (k ++ left)) = some (x, k ++ left) →
        k = [] ∨ (separated c' (k ++ left)).isSome →
        separated c (w ++ (k ++ (left ++ u))) = some (x, k ++ (left ++ u)) := by
      rintro w k x ⟨before, rfl⟩ hread -
      have hbracketless : '[' ∉ w ++ (k ++ left) := hafter ⟨before, by simp⟩
      have hread' := separated_append_of_bracketless hu c c' hslash hbracketless
      rw [hread] at hread'
      simpa [followed] using hread'
    have hmore := repeated_local (separated_consumes hc') (separated_consumes hc) hrun hstep
      (Nat.le_refl _)
    rw [repeated_of_none hstuck, List.append_nil, ← List.append_assoc] at hmore
    simp only [Option.bind_eq_bind, Option.map_some, Option.bind_some, followed, hmore, hrun]

theorem path_append_of_bracketless (hc : Consumes c) (hc' : Consumes c')
    (hslash : u.head? ≠ some '/') {cs : List Char} (hcs : '[' ∉ cs) :
    path c (cs ++ u) = (path c' cs).map (followed u) := by
  simp only [path, segments_append_of_bracketless hu c c' hc hc' hslash hcs]
  cases segments c' cs with
  | none => rfl
  | some found => simp [followed, taken_append_append]

end Bracketless

end MarkupTree.Path.Surface

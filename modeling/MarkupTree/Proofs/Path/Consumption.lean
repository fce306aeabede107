import Mathlib.Data.List.Infix
import Mathlib.Data.List.TakeWhile
import MarkupTree.Path.Parse

/-!
# Every reader of written paths takes something

Each reader takes at least one character off the front of what it is given and leaves the rest. So
the fuel of a repetition, which is the length of the text, never runs out and can be forgotten. The
readers that branch are also taken apart here, once for all: what a success of theirs consists of.
-/

set_option autoImplicit false

namespace MarkupTree.Path.Surface

/-- What is left of a text when something has been taken off its front. -/
def Leaves (cs rest : List Char) : Prop := rest <:+ cs ∧ rest.length < cs.length

namespace Leaves

variable {cs mid rest : List Char}

theorem cons {c : Char} (h : rest <:+ cs) : Leaves (c :: cs) rest :=
  ⟨h.trans (List.suffix_cons c cs), Nat.lt_succ_of_le h.length_le⟩

theorem to_suffix (h : Leaves cs mid) (hrest : rest <:+ mid) : Leaves cs rest :=
  ⟨hrest.trans h.1, Nat.lt_of_le_of_lt hrest.length_le h.2⟩

theorem ne_nil (h : Leaves cs rest) : cs ≠ [] := by
  rintro rfl
  exact absurd h.2 (Nat.not_lt_zero _)

theorem ne_nil_of_append {w : List Char} (h : Leaves (w ++ rest) rest) : w ≠ [] := by
  rintro rfl
  exact absurd h.2 (Nat.lt_irrefl _)

theorem exists_taken (h : Leaves cs rest) : ∃ w, w ≠ [] ∧ cs = w ++ rest := by
  obtain ⟨w, rfl⟩ := h.1
  exact ⟨w, h.ne_nil_of_append, rfl⟩

end Leaves

/-- Every success takes something off the front. -/
def Consumes {α : Type} (p : Parser α) : Prop :=
  ∀ ⦃cs x rest⦄, p cs = some (x, rest) → Leaves cs rest

theorem Consumes.nil {α : Type} {p : Parser α} (hp : Consumes p) : p [] = none := by
  cases h : p [] with
  | none => rfl
  | some found => exact absurd rfl (hp h).ne_nil

theorem skipGap_suffix (cs : List Char) : skipGap cs <:+ cs := List.dropWhile_suffix _

@[simp] theorem taken_append (s rest : List Char) : taken (s ++ rest) rest = String.ofList s := by
  simp [taken]

section Repetition

variable {α : Type} {item : Parser α}

theorem repeated_of_none {cs : List Char} (h : item cs = none) (fuel : Nat) :
    repeated item fuel cs = ([], cs) := by
  cases fuel with
  | zero => rfl
  | succ fuel => simp [repeated, h]

theorem repeated_of_some {cs rest : List Char} {x : α} (h : item cs = some (x, rest))
    (fuel : Nat) :
    repeated item (fuel + 1) cs =
      (x :: (repeated item fuel rest).1, (repeated item fuel rest).2) := by
  simp [repeated, h]

theorem repeated_suffix (hitem : Consumes item) (fuel : Nat) (cs : List Char) :
    (repeated item fuel cs).2 <:+ cs := by
  induction fuel generalizing cs with
  | zero => exact List.suffix_refl _
  | succ fuel ih =>
    cases h : item cs with
    | none =>
      rw [repeated_of_none h]
    | some found =>
      rw [repeated_of_some h]
      exact (ih found.2).trans (hitem h).1

/-- Fuel for the length of the text is enough: more of it changes nothing. -/
theorem repeated_fuel (hitem : Consumes item) {fuel more : Nat} {cs : List Char}
    (hfuel : cs.length ≤ fuel) (hmore : cs.length ≤ more) :
    repeated item fuel cs = repeated item more cs := by
  induction fuel generalizing more cs with
  | zero =>
    obtain rfl : cs = [] := List.length_eq_zero_iff.mp (Nat.le_zero.mp hfuel)
    rw [repeated_of_none hitem.nil, repeated_of_none hitem.nil]
  | succ fuel ih =>
    cases h : item cs with
    | none => rw [repeated_of_none h, repeated_of_none h]
    | some found =>
      have hlt := (hitem h).2
      obtain ⟨more, rfl⟩ : ∃ n, more = n + 1 := ⟨more - 1, by omega⟩
      have hrest : repeated item fuel found.2 = repeated item more found.2 :=
        ih (by omega) (by omega)
      rw [repeated_of_some h, repeated_of_some h, hrest]

theorem repeated_stuck (hitem : Consumes item) {fuel : Nat} {cs : List Char}
    (hfuel : cs.length ≤ fuel) : item (repeated item fuel cs).2 = none := by
  induction fuel generalizing cs with
  | zero =>
    obtain rfl : cs = [] := List.length_eq_zero_iff.mp (Nat.le_zero.mp hfuel)
    exact hitem.nil
  | succ fuel ih =>
    cases h : item cs with
    | none =>
      rw [repeated_of_none h]
      exact h
    | some found =>
      have hlt := (hitem h).2
      rw [repeated_of_some h]
      exact ih (by omega)

theorem forall_mem_repeated {P : α → Prop} (h : ∀ cs x rest, item cs = some (x, rest) → P x)
    (fuel : Nat) (cs : List Char) : ∀ x ∈ (repeated item fuel cs).1, P x := by
  induction fuel generalizing cs with
  | zero => nofun
  | succ fuel ih =>
    cases hread : item cs with
    | none =>
      rw [repeated_of_none hread]
      nofun
    | some found =>
      rw [repeated_of_some hread]
      exact List.forall_mem_cons.mpr ⟨h _ _ _ hread, ih found.2⟩

end Repetition

theorem startsName_cons (c : Char) (cs : List Char) : startsName (c :: cs) = isNameChar c := by
  simp [startsName]

theorem nameRun_append (cs : List Char) : (nameRun cs).1 ++ (nameRun cs).2 = cs := by
  induction cs with
  | nil => rfl
  | cons c cs ih =>
    unfold nameRun
    split
    · simpa using ih
    · rfl

theorem qualifiedName_eq_some {cs rest : List Char} {name : String}
    (h : qualifiedName cs = some (name, rest)) :
    startsName cs = true ∧ name = String.ofList (nameRun cs).1 ∧ rest = (nameRun cs).2 := by
  unfold qualifiedName at h
  split at h
  · next hstarts => cases h; exact ⟨hstarts, rfl, rfl⟩
  · cases h

theorem qualifiedName_consumes : Consumes qualifiedName := by
  intro cs name rest h
  obtain ⟨hstarts, -, rfl⟩ := qualifiedName_eq_some h
  cases cs with
  | nil => cases hstarts
  | cons c cs =>
    rw [startsName_cons] at hstarts
    rw [nameRun, hstarts, Bool.true_or, if_pos rfl]
    exact Leaves.cons ⟨_, nameRun_append cs⟩

theorem localName_consumes : Consumes localName := by
  intro cs name rest h
  unfold localName at h
  split at h
  · next hstarts =>
    cases h
    cases cs with
    | nil => cases hstarts
    | cons c cs =>
      rw [startsName_cons] at hstarts
      rw [List.dropWhile_cons_of_pos hstarts]
      exact Leaves.cons (List.dropWhile_suffix _)
  · cases h

theorem nameTest_eq_some {cs rest : List Char} {test : NameTest}
    (h : nameTest cs = some (test, rest)) :
    (test = .text ∧ cs = "text()".toList ++ rest) ∨
      (∃ after name, cs = '*' :: ':' :: after ∧ localName after = some (name, rest) ∧
        test = .anyNamespace name) ∨
      (cs = '*' :: rest ∧ test = .any) ∨
      (∃ name, qualifiedName cs = some (name, rest) ∧ test = .name name) := by
  unfold nameTest at h
  split at h
  · next hprefix =>
    cases h
    exact .inl ⟨rfl, (List.append_eq_of_isPrefixOf?_eq_some hprefix).symm⟩
  · split at h
    · next after _ =>
      split at h
      · next hname => cases h; exact .inr (.inl ⟨_, _, rfl, hname, rfl⟩)
      · cases h; exact .inr (.inr (.inl ⟨rfl, rfl⟩))
    · cases h; exact .inr (.inr (.inl ⟨rfl, rfl⟩))
    · obtain ⟨⟨name, left⟩, hname, h⟩ := Option.map_eq_some_iff.mp h
      cases h
      exact .inr (.inr (.inr ⟨name, hname, rfl⟩))

theorem nameTest_consumes : Consumes nameTest := by
  intro cs test rest h
  rcases nameTest_eq_some h with ⟨-, rfl⟩ | ⟨after, name, rfl, hname, -⟩ | ⟨rfl, -⟩ |
    ⟨name, hname, -⟩
  · exact Leaves.cons (List.suffix_append _ _)
  · exact Leaves.cons ((localName_consumes hname).1.trans (List.suffix_cons _ _))
  · exact Leaves.cons (List.suffix_refl _)
  · exact qualifiedName_consumes hname

theorem nameTest_ne_context {cs rest : List Char} {test : NameTest}
    (h : nameTest cs = some (test, rest)) : test ≠ .context := by
  rcases nameTest_eq_some h with ⟨rfl, -⟩ | ⟨_, _, -, -, rfl⟩ | ⟨-, rfl⟩ | ⟨_, -, rfl⟩ <;> nofun

theorem separator_eq_some {cs rest : List Char} {d : Bool} :
    separator cs = some (d, rest) ↔
      (d = true ∧ cs = '/' :: '/' :: rest) ∨
        (d = false ∧ cs = '/' :: rest ∧ rest.head? ≠ some '/') := by
  constructor
  · intro h
    unfold separator at h
    split at h
    · cases h
      exact .inl ⟨rfl, rfl⟩
    · next hnot =>
      cases h
      refine .inr ⟨rfl, rfl, ?_⟩
      intro hhead
      obtain ⟨after, rfl⟩ := List.head?_eq_some_iff.mp hhead
      exact hnot after rfl
    · cases h
  · rintro (⟨rfl, rfl⟩ | ⟨rfl, rfl, hhead⟩)
    · rfl
    · cases rest with
      | nil => rfl
      | cons x rest =>
        have hx : x ≠ '/' := fun h => hhead (congrArg some h)
        simp [separator, hx]

theorem separator_consumes : Consumes separator := by
  intro cs d rest h
  rcases separator_eq_some.mp h with ⟨-, rfl⟩ | ⟨-, rfl, -⟩
  · exact Leaves.cons (List.suffix_cons _ _)
  · exact Leaves.cons (List.suffix_refl _)

theorem comparison_eq_some {cs rest : List Char} {op : Comparison} :
    comparison cs = some (op, rest) ↔
      cs = op.symbol.toList ++ rest ∧
        (op = .less ∨ op = .greater → rest.head? ≠ some '=') := by
  constructor
  · intro h
    unfold comparison at h
    split at h <;> cases h
    · exact ⟨rfl, nofun⟩
    · exact ⟨rfl, nofun⟩
    · exact ⟨rfl, nofun⟩
    · exact ⟨rfl, nofun⟩
    · next hnot =>
      refine ⟨rfl, fun _ hhead => ?_⟩
      obtain ⟨after, rfl⟩ := List.head?_eq_some_iff.mp hhead
      exact hnot after rfl
    · next hnot =>
      refine ⟨rfl, fun _ hhead => ?_⟩
      obtain ⟨after, rfl⟩ := List.head?_eq_some_iff.mp hhead
      exact hnot after rfl
  · rintro ⟨rfl, hhead⟩
    cases op with
    | less =>
      cases rest with
      | nil => rfl
      | cons x rest =>
        have hx : x ≠ '=' := fun h => hhead (.inl rfl) (congrArg some h)
        simp [Comparison.symbol, comparison, hx]
    | greater =>
      cases rest with
      | nil => rfl
      | cons x rest =>
        have hx : x ≠ '=' := fun h => hhead (.inr rfl) (congrArg some h)
        simp [Comparison.symbol, comparison, hx]
    | equal => rfl
    | unequal => rfl
    | lessOrEqual => rfl
    | greaterOrEqual => rfl

theorem comparison_consumes : Consumes comparison := by
  intro cs op rest h
  obtain ⟨rfl, -⟩ := comparison_eq_some.mp h
  have hne : op.symbol.toList ≠ [] := by cases op <;> decide
  refine ⟨List.suffix_append _ _, ?_⟩
  have := List.length_pos_iff.mpr hne
  rw [List.length_append]
  omega

variable {c : Parser Condition}

theorem bracket_eq_some {cs rest : List Char} {b : Bracket} :
    bracket c cs = some (b, rest) ↔
      ∃ inner mid, cs = '[' :: inner ∧ skipGap mid = ']' :: rest ∧
        ((∃ digits, position (skipGap inner) = some (digits, mid) ∧ b = .position digits) ∨
          (position (skipGap inner) = none ∧ ∃ written, c (skipGap inner) = some (written, mid) ∧
            b = .condition written)) := by
  constructor
  · intro h
    unfold bracket at h
    split at h
    · next inner =>
      refine ⟨inner, ?_⟩
      cases hpos : position (skipGap inner) with
      | some found =>
        obtain ⟨digits, mid⟩ := found
        simp only [hpos, Option.bind_eq_bind, Option.bind_some] at h
        split at h
        · next hmid => cases h; exact ⟨mid, rfl, hmid, .inl ⟨digits, rfl, rfl⟩⟩
        · cases h
      | none =>
        simp only [hpos, Option.bind_eq_bind, Option.bind_eq_some_iff, Option.map_eq_some_iff] at h
        obtain ⟨_, ⟨⟨written, mid⟩, hwritten, rfl⟩, h⟩ := h
        split at h
        · next hmid => cases h; exact ⟨mid, rfl, hmid, .inr ⟨rfl, written, hwritten, rfl⟩⟩
        · cases h
    · cases h
  · rintro ⟨inner, mid, rfl, hmid, ⟨digits, hpos, rfl⟩ | ⟨hpos, written, hwritten, rfl⟩⟩
    · simp [bracket, hpos, hmid]
    · simp [bracket, hpos, hwritten, hmid]

theorem bracket_eq_none {cs : List Char} (h : cs.head? ≠ some '[') : bracket c cs = none := by
  unfold bracket
  split
  · simp at h
  · rfl

theorem position_eq_some {cs rest : List Char} {digits : String}
    (h : position cs = some (digits, rest)) :
    digits = String.ofList (cs.takeWhile Decimal.isDigit) ∧ rest = cs.dropWhile Decimal.isDigit ∧
      (cs.takeWhile Decimal.isDigit).isEmpty = false ∧ (skipGap rest).head? = some ']' := by
  simp only [position] at h
  split at h
  · next hcond =>
    cases h
    simpa using hcond
  · cases h

theorem bracket_consumes (hc : Consumes c) : Consumes (bracket c) := by
  intro cs b rest h
  obtain ⟨inner, mid, rfl, hmid, h⟩ := bracket_eq_some.mp h
  have hclose : rest <:+ mid := (List.suffix_cons _ _).trans (hmid ▸ skipGap_suffix mid)
  refine Leaves.cons ((hclose.trans ?_).trans (skipGap_suffix inner))
  rcases h with ⟨digits, hpos, -⟩ | ⟨-, written, hwritten, -⟩
  · obtain ⟨-, rfl, -⟩ := position_eq_some hpos
    exact List.dropWhile_suffix _
  · exact (hc hwritten).1

theorem named_eq_some {d : Bool} {cs rest : List Char} {seg : Segment} :
    segment.named c d cs = some (seg, rest) ↔
      ∃ test after, nameTest cs = some (test, after) ∧
        seg = .step d test (brackets c after).1 ∧ rest = (brackets c after).2 := by
  constructor
  · intro h
    obtain ⟨⟨test, after⟩, htest, h⟩ := Option.bind_eq_some_iff.mp h
    cases h
    exact ⟨test, after, htest, rfl, rfl⟩
  · rintro ⟨test, after, htest, rfl, rfl⟩
    exact Option.bind_eq_some_iff.mpr ⟨_, htest, rfl⟩

theorem segment_eq_some {d : Bool} {cs rest : List Char} {seg : Segment} :
    segment c d cs = some (seg, rest) ↔
      (∃ after name, cs = '@' :: after ∧ qualifiedName after = some (name, rest) ∧
          seg = .attribute d name) ∨
        (cs = '.' :: rest ∧ startsName rest = false ∧ seg = .self d) ∨
        ((∀ after, cs = '.' :: after → startsName after = true) ∧ cs.head? ≠ some '@' ∧
          segment.named c d cs = some (seg, rest)) := by
  constructor
  · intro h
    unfold segment at h
    split at h
    · next after =>
      obtain ⟨⟨name, left⟩, hname, h⟩ := Option.map_eq_some_iff.mp h
      cases h
      exact .inl ⟨after, name, rfl, hname, rfl⟩
    · next after =>
      split at h
      · next hstarts =>
        refine .inr (.inr ⟨?_, by simp, h⟩)
        rintro _ ⟨⟩
        exact hstarts
      · next hstarts =>
        cases h
        exact .inr (.inl ⟨rfl, by simpa using hstarts, rfl⟩)
    · next hattribute hself =>
      refine .inr (.inr ⟨fun after hcs => absurd hcs (hself after), ?_, h⟩)
      intro hhead
      obtain ⟨after, rfl⟩ := List.head?_eq_some_iff.mp hhead
      exact hattribute _ rfl
  · rintro (⟨after, name, rfl, hname, rfl⟩ | ⟨rfl, hstarts, rfl⟩ | ⟨hself, hhead, h⟩)
    · simp [segment, hname]
    · simp [segment, hstarts]
    · unfold segment
      split
      · exact absurd rfl hhead
      · next after => rw [if_pos (hself after rfl), h]
      · exact h

theorem named_consumes (hc : Consumes c) (d : Bool) : Consumes (segment.named c d) := by
  intro cs seg rest h
  obtain ⟨test, after, htest, -, rfl⟩ := named_eq_some.mp h
  exact (nameTest_consumes htest).to_suffix (repeated_suffix (bracket_consumes hc) _ _)

theorem segment_consumes (hc : Consumes c) (d : Bool) : Consumes (segment c d) := by
  intro cs seg rest h
  rcases segment_eq_some.mp h with ⟨after, name, rfl, hname, -⟩ | ⟨rfl, -⟩ | ⟨-, -, h⟩
  · exact Leaves.cons (qualifiedName_consumes hname).1
  · exact Leaves.cons (List.suffix_refl _)
  · exact named_consumes hc d h

theorem separated_eq_some {cs rest : List Char} {seg : Segment} :
    separated c cs = some (seg, rest) ↔
      ∃ d after, separator cs = some (d, after) ∧ segment c d after = some (seg, rest) := by
  simp only [separated, Option.bind_eq_bind, Option.bind_eq_some_iff, Prod.exists]

theorem separated_consumes (hc : Consumes c) : Consumes (separated c) := by
  intro cs seg rest h
  obtain ⟨d, after, hsep, hseg⟩ := separated_eq_some.mp h
  exact (separator_consumes hsep).to_suffix (segment_consumes hc d hseg).1

theorem segments_eq_some {cs rest : List Char} {segs : List Segment} :
    segments c cs = some (segs, rest) ↔
      ∃ first after, segment c false cs = some (first, after) ∧
        segs = first :: (repeated (separated c) after.length after).1 ∧
        rest = (repeated (separated c) after.length after).2 := by
  constructor
  · intro h
    obtain ⟨⟨first, after⟩, hfirst, h⟩ := Option.bind_eq_some_iff.mp h
    cases h
    exact ⟨first, after, hfirst, rfl, rfl⟩
  · rintro ⟨first, after, hfirst, rfl, rfl⟩
    exact Option.bind_eq_some_iff.mpr ⟨_, hfirst, rfl⟩

theorem segments_consumes (hc : Consumes c) : Consumes (segments c) := by
  intro cs segs rest h
  obtain ⟨first, after, hfirst, -, rfl⟩ := segments_eq_some.mp h
  exact (segment_consumes hc false hfirst).to_suffix
    (repeated_suffix (separated_consumes hc) _ _)

/-- What stands in brackets behind the name of a segment. -/
def Segment.brackets : Segment → List Bracket
  | .attribute _ _ => []
  | .self _ => []
  | .step _ _ bs => bs

theorem forall_mem_brackets {P : Bracket → Prop}
    (h : ∀ cs b rest, bracket c cs = some (b, rest) → P b) {d : Bool} {cs rest : List Char}
    {seg : Segment} (hread : segment c d cs = some (seg, rest)) : ∀ b ∈ seg.brackets, P b := by
  rcases segment_eq_some.mp hread with ⟨_, _, -, -, rfl⟩ | ⟨-, -, rfl⟩ | ⟨-, -, hread⟩
  · nofun
  · nofun
  · obtain ⟨test, after, -, rfl, -⟩ := named_eq_some.mp hread
    exact forall_mem_repeated h _ _

section

variable {P : Segment → Prop} (h : ∀ d cs seg rest, segment c d cs = some (seg, rest) → P seg)

include h

theorem forall_mem_separated (fuel : Nat) (cs : List Char) :
    ∀ seg ∈ (repeated (separated c) fuel cs).1, P seg := by
  apply forall_mem_repeated
  intro cs seg rest hread
  obtain ⟨d, after, -, hseg⟩ := separated_eq_some.mp hread
  exact h d after seg rest hseg

theorem forall_mem_segments {cs rest : List Char} {segs : List Segment}
    (hread : segments c cs = some (segs, rest)) : ∀ seg ∈ segs, P seg := by
  obtain ⟨first, after, hfirst, rfl, -⟩ := segments_eq_some.mp hread
  exact List.forall_mem_cons.mpr ⟨h _ _ _ _ hfirst, forall_mem_separated h _ _⟩

end

theorem quoted_eq_some {cs rest : List Char} {x : Operand} :
    quoted cs = some (x, rest) ↔
      ∃ q content, (q = '"' ∨ q = '\'') ∧ q ∉ content ∧ cs = (q :: content ++ [q]) ++ rest ∧
        x = .quoted (String.ofList (q :: content ++ [q])) (String.ofList content) := by
  constructor
  · intro h
    unfold quoted at h
    split at h
    case h_2 => cases h
    case h_1 q inner =>
      split at h
      case isFalse => cases h
      case isTrue hq =>
        split at h
        case h_1 => cases h
        case h_2 c after hafter =>
          have hc : c = q := by
            have hhead := List.head?_dropWhile_not (· != q) inner
            rw [hafter] at hhead
            simpa using hhead
          have hmem : q ∉ inner.takeWhile (· != q) := by
            intro hmem
            simpa using List.mem_takeWhile_imp hmem
          have hcs : q :: inner = (q :: inner.takeWhile (· != q) ++ [q]) ++ after := by
            have hsplit := List.takeWhile_append_dropWhile (p := (· != q)) (l := inner)
            rw [hafter, hc] at hsplit
            simp [hsplit]
          cases h
          refine ⟨q, _, by simpa using hq, hmem, hcs, ?_⟩
          rw [hcs, taken_append]
  · rintro ⟨q, content, hq, hmem, rfl, rfl⟩
    have hbefore : ∀ c ∈ content, (c != q) = true := by
      intro c hc
      have : c ≠ q := fun h => hmem (h ▸ hc)
      simpa using this
    have htaken := taken_append (q :: content ++ [q]) rest
    simp only [List.cons_append, List.append_assoc, List.nil_append] at htaken ⊢
    rw [quoted, if_pos (by simpa using hq), List.dropWhile_append_of_pos hbefore,
      List.takeWhile_append_of_pos hbefore]
    simp [htaken]

theorem quoted_consumes : Consumes quoted := by
  intro cs x rest h
  obtain ⟨q, content, -, -, rfl, -⟩ := quoted_eq_some.mp h
  exact Leaves.cons (List.suffix_append _ _)

theorem sign_suffix (cs : List Char) : (Decimal.sign cs).2 <:+ cs := by
  unfold Decimal.sign
  split
  · exact List.suffix_cons _ _
  · exact List.suffix_cons _ _
  · exact List.suffix_refl _

theorem skipExponent_suffix (cs : List Char) : skipExponent cs <:+ cs := by
  unfold skipExponent
  split
  · next c rest =>
    split
    · dsimp only
      split
      · exact ((List.dropWhile_suffix _).trans (sign_suffix rest)).trans (List.suffix_cons _ _)
      · exact List.suffix_refl _
    · exact List.suffix_refl _
  · exact List.suffix_refl _

theorem skipMantissa?_leaves {cs rest : List Char} (h : skipMantissa? cs = some rest) :
    Leaves cs rest := by
  unfold skipMantissa? at h
  split at h
  · next hdigit =>
    cases cs with
    | nil => cases hdigit
    | cons c cs =>
      have hc : Decimal.isDigit c = true := by simpa using hdigit
      rw [List.dropWhile_cons_of_pos hc] at h
      have hdrop : cs.dropWhile Decimal.isDigit <:+ cs := List.dropWhile_suffix _
      split at h
      · next after hafter =>
        cases h
        rw [hafter] at hdrop
        exact Leaves.cons (((List.dropWhile_suffix _).trans (List.suffix_cons _ _)).trans hdrop)
      · cases h
        exact Leaves.cons hdrop
  · split at h
    · split at h
      · cases h
        exact Leaves.cons (List.dropWhile_suffix _)
      · cases h
    · cases h

theorem number_eq_some {cs rest : List Char} {x : Operand} (h : number cs = some (x, rest)) :
    x = .number (taken cs rest) ∧ ∃ mid, rest = skipExponent mid ∧
      (skipMantissa? cs = some mid ∨ ∃ unsigned, cs = '-' :: unsigned ∧
        skipMantissa? unsigned = some mid) := by
  simp only [number, Option.bind_eq_bind, Option.bind_eq_some_iff] at h
  obtain ⟨mid, hmid, h⟩ := h
  cases h
  refine ⟨rfl, mid, rfl, ?_⟩
  split at hmid
  · exact .inr ⟨_, rfl, hmid⟩
  · exact .inl hmid

theorem number_consumes : Consumes number := by
  intro cs x rest h
  obtain ⟨-, mid, rfl, hmid⟩ := number_eq_some h
  rcases hmid with hm | ⟨unsigned, rfl, hm⟩
  · exact (skipMantissa?_leaves hm).to_suffix (skipExponent_suffix mid)
  · exact Leaves.cons ((skipExponent_suffix mid).trans (skipMantissa?_leaves hm).1)

theorem path_eq_some {cs rest : List Char} {x : Operand} :
    path c cs = some (x, rest) ↔
      ∃ segs, segments c cs = some (segs, rest) ∧ x = .path (taken cs rest) segs := by
  constructor
  · intro h
    obtain ⟨⟨segs, left⟩, hsegs, h⟩ := Option.bind_eq_some_iff.mp h
    cases h
    exact ⟨segs, hsegs, rfl⟩
  · rintro ⟨segs, hsegs, rfl⟩
    exact Option.bind_eq_some_iff.mpr ⟨_, hsegs, rfl⟩

theorem bareRun_append (cs : List Char) : (bareRun cs).1 ++ (bareRun cs).2 = cs := by
  induction cs with
  | nil => rfl
  | cons c cs ih =>
    unfold bareRun
    split
    · rfl
    · simpa using ih

theorem bare_eq_some {cs rest : List Char} {x : Operand} :
    bare cs = some (x, rest) ↔
      ∃ run, run ≠ [] ∧ bareRun cs = (run, rest) ∧ x = .bare (String.ofList run) := by
  constructor
  · intro h
    unfold bare at h
    cases hrun : bareRun cs with
    | mk run left =>
      rw [hrun] at h
      cases run with
      | nil => cases h
      | cons r run =>
        cases h
        exact ⟨r :: run, List.cons_ne_nil _ _, rfl, rfl⟩
  · rintro ⟨run, hne, hrun, rfl⟩
    simp [bare, hrun]

theorem bare_append_eq_some {w rest : List Char} {x : Operand} :
    bare (w ++ rest) = some (x, rest) ↔
      w ≠ [] ∧ bareRun (w ++ rest) = (w, rest) ∧ x = .bare (String.ofList w) := by
  rw [bare_eq_some]
  constructor
  · rintro ⟨run, hne, hrun, rfl⟩
    have hcs : run ++ rest = w ++ rest := by simpa [hrun] using bareRun_append (w ++ rest)
    obtain rfl : run = w := List.append_cancel_right hcs
    exact ⟨hne, hrun, rfl⟩
  · rintro ⟨hne, hrun, rfl⟩
    exact ⟨w, hne, hrun, rfl⟩

theorem bare_consumes : Consumes bare := by
  intro cs x rest h
  obtain ⟨run, hne, hrun, -⟩ := bare_eq_some.mp h
  have happend := bareRun_append cs
  rw [hrun] at happend
  cases run with
  | nil => exact absurd rfl hne
  | cons r run =>
    rw [← happend]
    exact Leaves.cons (List.suffix_append _ _)

theorem ending_eq_some {p : Parser Operand} {cs rest : List Char} {x : Operand} :
    ending p cs = some (x, rest) ↔ p cs = some (x, rest) ∧ endsOperand rest = true := by
  simp [ending, Option.filter_eq_some_iff]

theorem operand_eq_some {cs rest : List Char} {x : Operand} :
    operand c cs = some (x, rest) ↔
      ending quoted cs = some (x, rest) ∨
        ending quoted cs = none ∧ (ending number cs = some (x, rest) ∨
          ending number cs = none ∧ (ending (path c) cs = some (x, rest) ∨
            ending (path c) cs = none ∧ bare cs = some (x, rest))) := by
  simp only [operand, Option.or_eq_some_iff]

theorem operand_consumes (hc : Consumes c) : Consumes (operand c) := by
  intro cs x rest h
  rcases operand_eq_some.mp h with h | ⟨-, h | ⟨-, h | ⟨-, h⟩⟩⟩
  · exact quoted_consumes (ending_eq_some.mp h).1
  · exact number_consumes (ending_eq_some.mp h).1
  · obtain ⟨segs, hsegs, -⟩ := path_eq_some.mp (ending_eq_some.mp h).1
    exact segments_consumes hc hsegs
  · exact bare_consumes h

theorem segments_of_operand {cs rest : List Char} {source : String} {segs : List Segment}
    (h : operand c cs = some (.path source segs, rest)) : segments c cs = some (segs, rest) := by
  rcases operand_eq_some.mp h with h | ⟨-, h | ⟨-, h | ⟨-, h⟩⟩⟩
  · obtain ⟨_, _, -, -, -, hpath⟩ := quoted_eq_some.mp (ending_eq_some.mp h).1
    cases hpath
  · cases (number_eq_some (ending_eq_some.mp h).1).1
  · obtain ⟨segs', hsegs, hpath⟩ := path_eq_some.mp (ending_eq_some.mp h).1
    cases hpath
    exact hsegs
  · obtain ⟨_, -, -, hpath⟩ := bare_eq_some.mp h
    cases hpath

theorem comparand_eq_some {cs rest : List Char} {x : Comparison × Operand} :
    comparand c cs = some (x, rest) ↔
      ∃ mid, comparison (skipGap cs) = some (x.1, mid) ∧
        operand c (skipGap mid) = some (x.2, rest) := by
  simp only [comparand, Option.bind_eq_bind, Option.bind_eq_some_iff]
  constructor
  · rintro ⟨⟨op, mid⟩, hop, ⟨rhs, left⟩, hrhs, h⟩
    cases h
    exact ⟨mid, hop, hrhs⟩
  · rintro ⟨mid, hop, hrhs⟩
    exact ⟨_, hop, _, hrhs, rfl⟩

theorem comparand_consumes (hc : Consumes c) : Consumes (comparand c) := by
  intro cs x rest h
  obtain ⟨mid, hop, hrhs⟩ := comparand_eq_some.mp h
  have hmid : mid <:+ cs := (comparison_consumes hop).1.trans (skipGap_suffix cs)
  have hleaves := operand_consumes hc hrhs
  have hlen := (skipGap_suffix mid).length_le.trans hmid.length_le
  exact ⟨hleaves.1.trans ((skipGap_suffix mid).trans hmid), Nat.lt_of_lt_of_le hleaves.2 hlen⟩

theorem condition_succ_eq_some {d : Nat} {cs rest : List Char} {x : Condition} :
    condition (d + 1) cs = some (x, rest) ↔
      ∃ lhs mid, operand (condition d) cs = some (lhs, mid) ∧
        ((∃ op rhs, comparand (condition d) mid = some ((op, rhs), rest) ∧
            x = .comparison (taken cs rest) lhs op rhs) ∨
          (comparand (condition d) mid = none ∧ mid = rest ∧ x = .single (taken cs rest) lhs)) := by
  simp only [condition, Option.bind_eq_bind, Option.bind_eq_some_iff]
  constructor
  · rintro ⟨⟨lhs, mid⟩, hlhs, h⟩
    refine ⟨lhs, mid, hlhs, ?_⟩
    cases hcmp : comparand (condition d) mid with
    | none =>
      rw [hcmp] at h
      cases h
      exact .inr ⟨rfl, rfl, rfl⟩
    | some found =>
      rw [hcmp] at h
      cases h
      exact .inl ⟨_, _, rfl, rfl⟩
  · rintro ⟨lhs, mid, hlhs, ⟨op, rhs, hcmp, rfl⟩ | ⟨hcmp, rfl, rfl⟩⟩
    · exact ⟨_, hlhs, by simp [hcmp]⟩
    · exact ⟨_, hlhs, by simp [hcmp]⟩

theorem condition_consumes (d : Nat) : Consumes (condition d) := by
  induction d with
  | zero => nofun
  | succ d ih =>
    intro cs x rest h
    obtain ⟨lhs, mid, hlhs, h⟩ := condition_succ_eq_some.mp h
    have hleaves := operand_consumes ih hlhs
    rcases h with ⟨op, rhs, hcmp, -⟩ | ⟨-, rfl, -⟩
    · exact hleaves.to_suffix (comparand_consumes ih hcmp).1
    · exact hleaves

end MarkupTree.Path.Surface

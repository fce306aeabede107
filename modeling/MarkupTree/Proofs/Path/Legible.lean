import MarkupTree.Proofs.Number.Digits
import MarkupTree.Proofs.Path.Concatenation

/-!
# What has been read can be written and read again

A name, a name test and what stands in brackets have texts of their own. Each of them, written
alone, is read as what it was when it was read out of a longer text. A position may have been
written with leading zeros; it is written without them, and means the same.
-/

set_option autoImplicit false

namespace MarkupTree.Path

namespace Surface

theorem startsName_nameRun (cs : List Char) : startsName (nameRun cs).1 = startsName cs := by
  cases cs with
  | nil => rfl
  | cons c cs =>
    rw [nameRun, startsName_cons]
    cases hc : isNameChar c with
    | true => simp [startsName_cons, hc]
    | false =>
      rw [Bool.false_or]
      split
      · exact (startsName_cons c _).trans hc
      · rfl

theorem nameRun_nameRun (cs : List Char) : nameRun (nameRun cs).1 = ((nameRun cs).1, []) := by
  induction cs with
  | nil => rfl
  | cons c cs ih =>
    rw [nameRun]
    split
    · next hc => rw [nameRun, startsName_nameRun, if_pos hc, ih]
    · rfl

theorem mem_nameRun {cs : List Char} {c : Char} (h : c ∈ (nameRun cs).1) :
    isNameChar c = true ∨ c = ':' := by
  induction cs with
  | nil => cases h
  | cons x cs ih =>
    rw [nameRun] at h
    split at h
    · next hx =>
      rcases List.mem_cons.mp h with rfl | h
      · simp only [Bool.or_eq_true, Bool.and_eq_true, beq_iff_eq] at hx
        exact hx.imp_right And.left
      · exact ih h
    · cases h

/-- A name that is read as a whole. -/
def IsName (name : String) : Prop := qualifiedName name.toList = some (name, [])

theorem isName_of_qualifiedName {cs rest : List Char} {name : String}
    (h : qualifiedName cs = some (name, rest)) : IsName name := by
  obtain ⟨hstarts, rfl, -⟩ := qualifiedName_eq_some h
  rw [IsName, String.toList_ofList, qualifiedName, startsName_nameRun, if_pos hstarts,
    nameRun_nameRun]

theorem IsName.mem {name : String} (h : IsName name) {c : Char} (hc : c ∈ name.toList) :
    isNameChar c = true ∨ c = ':' := by
  obtain ⟨-, hname, -⟩ := qualifiedName_eq_some h
  rw [hname, String.toList_ofList] at hc
  exact mem_nameRun hc

theorem not_isBlank_of_isNameChar {c : Char} (h : isNameChar c = true) :
    Text.isBlank c = false := by
  simp only [isNameChar, Bool.and_eq_true, Bool.not_eq_true'] at h
  exact h.2

theorem not_isBlank_of_all {cs : List Char} (h : cs.all fun c => !Text.isBlank c) :
    ∀ c ∈ cs, Text.isBlank c = false := by
  intro c hc
  simpa using List.all_eq_true.mp h c hc

theorem IsName.not_isBlank {name : String} (h : IsName name) :
    ∀ c ∈ name.toList, Text.isBlank c = false := by
  intro c hc
  rcases h.mem hc with hname | rfl
  · exact not_isBlank_of_isNameChar hname
  · rfl

theorem IsName.startsName {name : String} (h : IsName name) : startsName name.toList = true :=
  (qualifiedName_eq_some h).1

theorem nameTest_of_isName {name : String} (h : IsName name) :
    nameTest name.toList = some (.name name, []) := by
  have hkeyword : "text()".toList.isPrefixOf? name.toList = none := by
    cases hprefix : "text()".toList.isPrefixOf? name.toList with
    | none => rfl
    | some rest =>
      have hname := List.append_eq_of_isPrefixOf?_eq_some hprefix
      have hmem : '(' ∈ name.toList := by rw [← hname]; simp
      exact absurd (h.mem hmem) (by decide)
  have hstarts := h.startsName
  simp only [nameTest, hkeyword]
  split
  · next heq => rw [heq] at hstarts; cases hstarts
  · next heq => rw [heq] at hstarts; cases hstarts
  · rw [show qualifiedName name.toList = some (name, []) from h]
    rfl

theorem localName_of_localName {cs rest : List Char} {name : String}
    (h : localName cs = some (name, rest)) :
    localName name.toList = some (name, []) ∧ ∀ c ∈ name.toList, isNameChar c = true := by
  unfold localName at h
  split at h
  · next hstarts =>
    cases h
    have hmem : ∀ c ∈ cs.takeWhile isNameChar, isNameChar c = true :=
      fun c hc => List.mem_takeWhile_imp hc
    have hstarts' : startsName (cs.takeWhile isNameChar) = true := by
      cases cs with
      | nil => exact hstarts
      | cons c cs =>
        rw [startsName_cons] at hstarts
        rw [List.takeWhile_cons_of_pos hstarts, startsName_cons, hstarts]
    rw [String.toList_ofList]
    refine ⟨?_, hmem⟩
    rw [localName, if_pos hstarts', List.takeWhile_eq_self_iff.mpr hmem,
      List.dropWhile_eq_nil_iff.mpr hmem]
  · cases h

end Surface

/-- A test whose text is read as that test, and not as a dot. -/
structure NameTest.Legible (test : NameTest) : Prop where
  read : Surface.nameTest test.display.toList = some (test, [])
  dot : ∀ after, test.display.toList = '.' :: after → Surface.startsName after = true
  not_isBlank : ∀ c ∈ test.display.toList, Text.isBlank c = false

namespace Surface

theorem legible_of_nameTest {cs rest : List Char} {test : NameTest}
    (h : nameTest cs = some (test, rest))
    (hdot : ∀ after, cs = '.' :: after → startsName after = true) : test.Legible := by
  rcases nameTest_eq_some h with ⟨rfl, -⟩ | ⟨after, name, rfl, hname, rfl⟩ | ⟨-, rfl⟩ |
    ⟨name, hname, rfl⟩
  · exact ⟨rfl, nofun, not_isBlank_of_all (by decide)⟩
  · obtain ⟨hread, hmem⟩ := localName_of_localName hname
    have hdisplay : (NameTest.anyNamespace name).display.toList = '*' :: ':' :: name.toList := by
      simp [NameTest.display]
    refine ⟨?_, ?_, ?_⟩
    · rw [hdisplay]
      simp [nameTest, hread, List.isPrefixOf?]
    · rw [hdisplay]
      nofun
    · rw [hdisplay, List.forall_mem_cons, List.forall_mem_cons]
      exact ⟨rfl, rfl, fun c hc => not_isBlank_of_isNameChar (hmem c hc)⟩
  · exact ⟨rfl, nofun, not_isBlank_of_all (by decide)⟩
  · have hlegible := isName_of_qualifiedName hname
    refine ⟨nameTest_of_isName hlegible, ?_, hlegible.not_isBlank⟩
    intro after hafter
    obtain ⟨-, rfl, -⟩ := qualifiedName_eq_some hname
    simp only [NameTest.display, String.toList_ofList] at hafter
    cases cs with
    | nil => cases hafter
    | cons c cs =>
      rw [nameRun] at hafter
      split at hafter
      · obtain ⟨rfl, rfl⟩ := List.cons.inj hafter
        rw [startsName_nameRun]
        exact hdot cs rfl
      · cases hafter

theorem legible_any : NameTest.any.Legible := ⟨rfl, nofun, not_isBlank_of_all (by decide)⟩

theorem IsName.legible {name : String} (h : IsName name) (hdot : name.toList.head? ≠ some '.') :
    (NameTest.name name).Legible where
  read := nameTest_of_isName h
  dot _ hafter := absurd (congrArg List.head? hafter) hdot
  not_isBlank := h.not_isBlank

theorem not_isGap_of_isDigit {c : Char} (h : Decimal.isDigit c = true) : isGap c = false := by
  cases hgap : isGap c with
  | false => rfl
  | true =>
    simp only [isGap, Bool.or_eq_true, beq_iff_eq] at hgap
    rcases hgap with ((rfl | rfl) | rfl) | rfl <;> cases h

theorem position_of_digits {ds v : List Char} (hne : ds ≠ [])
    (hall : ∀ c ∈ ds, Decimal.isDigit c = true) (hv : Closes v) :
    position (ds ++ v) = some (String.ofList ds, v) := by
  have hv' : (skipGap v).head? = some ']' := hv
  have hdigit := (breaks_of_stops (stops_of_closes hv)).1.1.not_digit
  simp only [position]
  rw [takeWhile_append_of_head hdigit, dropWhile_append_of_head hdigit,
    List.takeWhile_eq_self_iff.mpr hall, List.dropWhile_eq_nil_iff.mpr hall, List.nil_append, hv',
    if_pos]
  simpa using hne

/-- A text that is read as what stands in these brackets, between blanks and wherever they close. -/
structure Bracket.Content (b : Bracket) (k : List Char) : Prop where
  ne_nil : k ≠ []
  head : ∀ x ∈ k.head?, isGap x = false
  fills : ∀ n v, k.length < n → Closes v → Fills (Surface.condition n) b k v

theorem content_of_digits {ds : List Char} (hne : ds ≠ [])
    (hall : ∀ c ∈ ds, Decimal.isDigit c = true) :
    (Bracket.position (String.ofList ds)).Content ds where
  ne_nil := hne
  head x hx := not_isGap_of_isDigit (hall x (List.mem_of_head? hx))
  fills _ _ _ hv := .inl ⟨_, position_of_digits hne hall hv, rfl⟩

theorem exists_content {d : Nat} {w v : List Char} {b : Bracket}
    (h : bracket (condition d) (w ++ v) = some (b, v)) :
    ∃ g k g', w = '[' :: (g ++ k ++ g' ++ [']']) ∧ (∀ x ∈ g, isGap x = true) ∧
      (∀ x ∈ g', isGap x = true) ∧ b.Content k := by
  obtain ⟨g, k, g', rfl, hg, hg', hne, hhead, hk⟩ := bracket_content (condition_consumes d) h
  refine ⟨g, k, g', rfl, hg, hg', hne, hhead, ?_⟩
  exact fun n v hn hv => hk.local (condition_local d n) hn (closes_append_of_gap hg' rfl) hv

theorem Bracket.Content.bracket {b : Bracket} {k g g' : List Char} (h : b.Content k)
    (hg : ∀ x ∈ g, isGap x = true) (hg' : ∀ x ∈ g', isGap x = true) {n : Nat} (hn : k.length < n)
    (v : List Char) :
    Surface.bracket (Surface.condition n) ('[' :: (g ++ k ++ g' ++ [']']) ++ v) = some (b, v) :=
  bracket_spaced hg hg' h.ne_nil h.head (h.fills n _ hn (closes_append_of_gap hg' rfl))

def Condition.source : Condition → String
  | .single source _ => source
  | .comparison source _ _ _ => source

theorem source_of_condition {d : Nat} {k u : List Char} {x : Condition}
    (h : condition d (k ++ u) = some (x, u)) : x.source = String.ofList k := by
  cases d with
  | zero => cases h
  | succ d =>
    obtain ⟨lhs, mid, -, ⟨op, rhs, -, rfl⟩ | ⟨-, -, rfl⟩⟩ := condition_succ_eq_some.mp h
    · exact taken_append k u
    · exact taken_append k u

def enclosed (text : String) : List Char := '[' :: (text.toList ++ [']'])

end Surface

/-- The text of a predicate is read as what stands in some brackets. -/
def Predicate.WrittenAs (p : Predicate) (b : Surface.Bracket) : Prop :=
  ∀ n v, p.display.toList.length < n →
    Surface.bracket (Surface.condition n) (Surface.enclosed p.display ++ v) = some (b, v)

namespace Surface

theorem Bracket.Content.writtenAs {p : Predicate} {b : Bracket} (h : b.Content p.display.toList) :
    p.WrittenAs b := by
  intro n v hn
  have hread := h.bracket (List.forall_mem_nil _) (List.forall_mem_nil _) hn v
  rwa [List.nil_append, List.append_nil] at hread

theorem position_writtenAs (n : Nat) :
    (Predicate.position n).WrittenAs (.position n.repr) := by
  apply Bracket.Content.writtenAs
  have h := content_of_digits (Decimal.repr_ne_nil n) fun c => Decimal.isDigit_of_mem_repr
  rwa [String.ofList_toList] at h

theorem condition_writtenAs {d : Nat} {cs rest : List Char} {written : Condition}
    {test : Path.Condition} (h : bracket (condition d) cs = some (.condition written, rest)) :
    (Predicate.condition written.source test).WrittenAs (.condition written) := by
  obtain ⟨w, -, rfl⟩ := (bracket_consumes (condition_consumes d) h).exists_taken
  obtain ⟨g, k, g', -, -, -, hk⟩ := exists_content h
  apply Bracket.Content.writtenAs
  obtain ⟨digits, -, hb⟩ | ⟨-, written', hread, hb⟩ := hk.fills _ [']'] (Nat.lt_succ_self _) rfl
  · cases hb
  · cases hb
    rwa [Predicate.display, source_of_condition hread, String.toList_ofList]

/-- The text is read as these brackets, whatever stands behind it. -/
def Bracket.From (b : Bracket) (w : List Char) : Prop :=
  ∀ n v, w.length ≤ n → bracket (Surface.condition n) (w ++ v) = some (b, v)

theorem Bracket.from_of_bracket {d : Nat} {w v : List Char} {b : Bracket}
    (h : bracket (Surface.condition d) (w ++ v) = some (b, v)) : b.From w :=
  fun n _ hn => bracket_local (condition_consumes d) (condition_local d n) hn h

theorem from_of_writtenAs {p : Predicate} {b : Bracket} (h : p.WrittenAs b) :
    b.From (enclosed p.display) := by
  intro n v hn
  apply h
  simp only [enclosed, List.length_cons, List.length_append] at hn
  omega

theorem forall₂_from_of_writtenAs {ps : List Predicate} {bs : List Bracket}
    (h : List.Forall₂ Predicate.WrittenAs ps bs) :
    List.Forall₂ Bracket.From bs (ps.map fun p => enclosed p.display) := by
  induction h with
  | nil => exact .nil
  | cons hp _ ih => exact .cons (from_of_writtenAs hp) ih

theorem Bracket.From.head {b : Bracket} {w : List Char} (h : b.From w) (v : List Char) :
    (w ++ v).head? = some '[' := by
  by_contra hne
  have hread := h w.length v (Nat.le_refl _)
  rw [bracket_eq_none hne] at hread
  cases hread

theorem endsName_of_from {bs : List Bracket} {ws : List (List Char)}
    (h : List.Forall₂ Bracket.From bs ws) : EndsName ws.flatten := by
  cases h with
  | nil => exact breaks_nil.1
  | @cons b w bs ws hw _ =>
    obtain ⟨after, hafter⟩ := List.head?_eq_some_iff.mp (hw.head ws.flatten)
    rw [List.flatten_cons, hafter]
    exact endsName_cons (by decide) (by decide) after

theorem brackets_of_from {bs : List Bracket} {ws : List (List Char)} {n : Nat} {v : List Char}
    (h : List.Forall₂ Bracket.From bs ws) (hv : v.head? ≠ some '[')
    (hn : ws.flatten.length ≤ n) :
    brackets (condition n) (ws.flatten ++ v) = (bs, v) := by
  have hcondition := bracket_consumes (condition_consumes n)
  induction h with
  | nil => exact repeated_of_none (bracket_eq_none hv) _
  | @cons b w bs ws hw _ ih =>
    rw [List.flatten_cons, List.length_append] at hn
    have hrest := ih (by omega)
    rw [List.flatten_cons, List.append_assoc]
    generalize ws.flatten ++ v = tail at hrest ⊢
    have hread := hw n tail (by omega)
    have hless := (hcondition hread).2
    obtain ⟨fuel, hfuel⟩ : ∃ m, (w ++ tail).length = m + 1 :=
      ⟨(w ++ tail).length - 1, by omega⟩
    have hmore : tail.length ≤ fuel := by omega
    rw [brackets, hfuel, repeated_of_some hread, repeated_fuel hcondition hmore (Nat.le_refl _)]
    rw [brackets] at hrest
    rw [hrest]

/-- What stands in some brackets has been read there. -/
def Bracket.IsRead (b : Bracket) : Prop :=
  ∃ d cs rest, bracket (Surface.condition d) cs = some (b, rest)

/-- The parts of the segment can be written and read again. -/
def Segment.Legible : Segment → Prop
  | .attribute _ name => IsName name
  | .self _ => True
  | .step _ test bs => test.Legible ∧ ∀ b ∈ bs, b.IsRead

theorem segment_legible {d : Bool} {depth : Nat} {cs rest : List Char} {seg : Segment}
    (h : segment (condition depth) d cs = some (seg, rest)) : seg.Legible := by
  rcases segment_eq_some.mp h with ⟨after, name, -, hname, rfl⟩ | ⟨-, -, rfl⟩ | ⟨hdot, -, h⟩
  · exact isName_of_qualifiedName hname
  · trivial
  · obtain ⟨test, after, htest, rfl, -⟩ := named_eq_some.mp h
    refine ⟨legible_of_nameTest htest hdot, ?_⟩
    apply forall_mem_repeated
    intro cs b rest hb
    exact ⟨depth, cs, rest, hb⟩

theorem ofPath?_legible {cs : List Char} {segs : List Segment} (h : ofPath? cs = some segs) :
    ∀ seg ∈ segs, seg.Legible :=
  forall_mem_ofPath? (fun _ _ _ _ _ => segment_legible) h

theorem ofRelative?_legible {cs : List Char} {segs : List Segment}
    (h : ofRelative? cs = some segs) : ∀ seg ∈ segs, seg.Legible :=
  forall_mem_ofRelative? (fun _ _ _ _ _ => segment_legible) h

theorem nameTest_head {cs rest : List Char} {test : NameTest}
    (h : nameTest cs = some (test, rest)) : cs.head? ≠ some '/' ∧ cs.head? ≠ some '@' := by
  constructor
  · intro hhead
    obtain ⟨after, rfl⟩ := List.head?_eq_some_iff.mp hhead
    cases h
  · intro hhead
    obtain ⟨after, rfl⟩ := List.head?_eq_some_iff.mp hhead
    cases h

/-- The text of a segment behind its separator. -/
inductive Segment.From : Segment → List Char → Prop
  | ofAttribute (descendant : Bool) {name : String} : IsName name →
      From (.attribute descendant name) ('/' :: ((if descendant then ['/'] else []) ++
        '@' :: name.toList))
  | ofSelf (descendant : Bool) :
      From (.self descendant) ('/' :: ((if descendant then ['/'] else []) ++ ['.']))
  | ofStep (descendant : Bool) {test : NameTest} {bs : List Bracket} {ws : List (List Char)} :
      test.Legible → List.Forall₂ Bracket.From bs ws →
      From (.step descendant test bs) ('/' :: ((if descendant then ['/'] else []) ++
        (test.display.toList ++ ws.flatten)))

theorem ofPath?_of_segment {d : Bool} {k : List Char} {seg : Segment} (hk : k.head? ≠ some '/')
    (h : ∀ n, k.length ≤ n → segment (condition n) d k = some (seg, [])) :
    ofPath? ('/' :: ((if d then ['/'] else []) ++ k)) = some [seg] := by
  apply ofPath?_singleton
  obtain ⟨n, hn, hdepth⟩ := exists_depth ('/' :: ((if d then ['/'] else []) ++ k))
  rw [hn]
  refine separated_eq_some.mpr ⟨d, k, ?_, h n ?_⟩
  · cases d with
    | true => rfl
    | false => exact separator_eq_some.mpr (.inr ⟨rfl, rfl, hk⟩)
  · simp only [List.length_cons, List.length_append] at hdepth
    omega

theorem segment_of_from {d : Bool} {test : NameTest} {bs : List Bracket} {ws : List (List Char)}
    {n : Nat} (htest : test.Legible) (h : List.Forall₂ Bracket.From bs ws)
    (hn : ws.flatten.length ≤ n) :
    segment (condition n) d (test.display.toList ++ ws.flatten) = some (.step d test bs, []) := by
  have hne : test.display.toList ≠ [] := (nameTest_consumes htest.read).ne_nil
  have hrow := endsName_of_from h
  have hread : nameTest (test.display.toList ++ ws.flatten) = some (test, ws.flatten) := by
    rw [nameTest_append hrow, htest.read]
    rfl
  have hbrackets := brackets_of_from (v := []) h nofun hn
  rw [List.append_nil] at hbrackets
  apply segment_eq_some.mpr
  refine .inr (.inr ⟨?_, ?_, named_eq_some.mpr ⟨test, _, hread, by rw [hbrackets], by rw [hbrackets]⟩⟩)
  · intro after hafter
    obtain ⟨x, name, hname⟩ := List.exists_cons_of_ne_nil hne
    rw [hname] at hafter
    obtain ⟨rfl, rfl⟩ := List.cons.inj hafter
    exact (startsName_append hrow name).trans (htest.dot name hname)
  · rw [List.head?_append_of_ne_nil _ hne]
    exact (nameTest_head htest.read).2

theorem Segment.From.ofPath? {seg : Segment} {w : List Char} (h : seg.From w) :
    ofPath? w = some [seg] := by
  cases h with
  | ofAttribute d hname =>
    exact ofPath?_of_segment nofun fun n _ => segment_eq_some.mpr (.inl ⟨_, _, rfl, hname, rfl⟩)
  | ofSelf d => exact ofPath?_of_segment nofun fun n _ => rfl
  | ofStep d htest hbs =>
    have hne := (nameTest_consumes htest.read).ne_nil
    refine ofPath?_of_segment ?_ fun n hn => segment_of_from htest hbs ?_
    · rw [List.head?_append_of_ne_nil _ hne]
      exact (nameTest_head htest.read).1
    · rw [List.length_append] at hn
      omega

theorem ofPath?_self : ofPath? "/.".toList = some [.self false] := (Segment.From.ofSelf false).ofPath?

theorem ofPath?_attribute {name : String} (h : IsName name) :
    ofPath? ('/' :: '@' :: name.toList) = some [.attribute false name] :=
  (Segment.From.ofAttribute false h).ofPath?

theorem ofPath?_step {d : Bool} {test : NameTest} {ps : List Predicate} {bs : List Bracket}
    (htest : test.Legible) (hps : List.Forall₂ Predicate.WrittenAs ps bs) :
    ofPath? ('/' :: ((if d then ['/'] else []) ++
      (test.display.toList ++ ps.flatMap fun p => enclosed p.display))) =
        some [.step d test bs] := by
  rw [List.flatMap_def]
  exact (Segment.From.ofStep d htest (forall₂_from_of_writtenAs hps)).ofPath?

end Surface

end MarkupTree.Path

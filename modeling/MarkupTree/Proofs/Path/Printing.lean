import MarkupTree.Proofs.Path.Folding
import MarkupTree.Proofs.Path.Legible

/-!
# Printing steps and reading them again

Every step prints as a slash and a text, and the printed steps of a path, one after the other, are
read as the same steps. A path is folded from segments, so it may have been written in other ways:
with dots, with double slashes before an attribute, with zeros before a position. What a step prints
is one way of writing it that folds to the step itself, whatever stands before it.
-/

set_option autoImplicit false

namespace MarkupTree.Path

/-- The steps as they are written one after the other. -/
def print (steps : List Step) : String := String.join (steps.map fun s => "/" ++ s.display)

open Surface

theorem source_of_resolveCondition {written : Surface.Condition} {source : String}
    {test : Condition} (h : resolveCondition written = .ok (source, test)) :
    source = written.source := by
  cases written with
  | single text operand =>
    cases operand with
    | path _ segs =>
      rw [resolveCondition] at h
      obtain ⟨steps, -, h⟩ := bind_eq_ok_iff.mp h
      cases h
      rfl
    | quoted => cases h
    | number => cases h
    | bare => cases h
  | comparison text lhs op rhs =>
    rw [resolveCondition] at h
    obtain ⟨x, -, h⟩ := bind_eq_ok_iff.mp h
    obtain ⟨y, -, h⟩ := bind_eq_ok_iff.mp h
    cases h
    rfl

theorem predicates_position {positioned : Bool} {digits : String} {bs : List Bracket}
    {ps : List Predicate} :
    predicates positioned (.position digits :: bs) = .ok ps ↔
      ¬ maxPosition < Decimal.ofDigits digits.toList ∧ positioned = false ∧
        ∃ more, predicates true bs = .ok more ∧
          ps = .position (Decimal.ofDigits digits.toList) :: more := by
  simp only [predicates]
  by_cases hrange : maxPosition < Decimal.ofDigits digits.toList
  · simp [hrange]
  · cases positioned with
    | true => simp [hrange]
    | false =>
      rw [if_neg hrange, if_neg Bool.false_ne_true, bind_eq_ok_iff]
      simp [hrange, eq_comm]

theorem predicates_condition {positioned : Bool} {written : Surface.Condition} {bs : List Bracket}
    {ps : List Predicate} :
    predicates positioned (.condition written :: bs) = .ok ps ↔
      ∃ meaning more, resolveCondition written = .ok meaning ∧
        predicates positioned bs = .ok more ∧ ps = .condition meaning.1 meaning.2 :: more := by
  rw [predicates, bind_eq_ok_iff]
  apply exists_congr
  intro meaning
  rw [bind_eq_ok_iff]
  simp [eq_comm]

/-- What a bracket means on its own. -/
def Bracket.Means : Bracket → Predicate → Prop
  | .position digits, p => Decimal.ofDigits digits.toList ≤ maxPosition ∧
      p = .position (Decimal.ofDigits digits.toList)
  | .condition written, p => ∃ meaning, resolveCondition written = .ok meaning ∧
      p = .condition meaning.1 meaning.2

/-- A row of brackets means what each of them means, if there is not more than one position. -/
theorem predicates_eq_ok_iff {positioned : Bool} {bs : List Bracket} {ps : List Predicate} :
    predicates positioned bs = .ok ps ↔ List.Forall₂ Bracket.Means bs ps ∧
      positioned.toNat + (ps.filterMap Predicate.position?).length ≤ 1 := by
  induction bs generalizing positioned ps with
  | nil =>
    rw [predicates, List.forall₂_nil_left_iff]
    constructor
    · rintro ⟨⟩
      exact ⟨rfl, by cases positioned <;> decide⟩
    · rintro ⟨rfl, -⟩
      rfl
  | cons b bs ih =>
    rw [List.forall₂_cons_left_iff]
    cases b with
    | position digits =>
      rw [predicates_position]
      constructor
      · rintro ⟨hrange, rfl, more, hmore, rfl⟩
        obtain ⟨hall, hcount⟩ := ih.mp hmore
        refine ⟨⟨_, more, ⟨by omega, rfl⟩, hall, rfl⟩, ?_⟩
        rw [List.filterMap_cons_some (f := Predicate.position?) rfl, List.length_cons]
        simpa [Nat.add_comm] using hcount
      · rintro ⟨⟨_, more, ⟨hrange, rfl⟩, hall, rfl⟩, hcount⟩
        rw [List.filterMap_cons_some (f := Predicate.position?) rfl, List.length_cons] at hcount
        cases positioned with
        | true =>
          rw [Bool.toNat_true] at hcount
          omega
        | false =>
          have hcount' : true.toNat + (more.filterMap Predicate.position?).length ≤ 1 := by
            simpa [Nat.add_comm] using hcount
          exact ⟨by omega, rfl, more, ih.mpr ⟨hall, hcount'⟩, rfl⟩
    | condition written =>
      rw [predicates_condition]
      constructor
      · rintro ⟨meaning, more, hmeaning, hmore, rfl⟩
        obtain ⟨hall, hcount⟩ := ih.mp hmore
        exact ⟨⟨_, more, ⟨meaning, hmeaning, rfl⟩, hall, rfl⟩, hcount⟩
      · rintro ⟨⟨_, more, ⟨meaning, hmeaning, rfl⟩, hall, rfl⟩, hcount⟩
        exact ⟨meaning, more, hmeaning, ih.mpr ⟨hall, hcount⟩, rfl⟩

theorem exists_writtenAs {positioned : Bool} {bs : List Bracket} {ps : List Predicate}
    (hread : ∀ b ∈ bs, b.IsRead) (h : predicates positioned bs = .ok ps) :
    ∃ bs', List.Forall₂ Predicate.WrittenAs ps bs' ∧ predicates positioned bs' = .ok ps := by
  induction bs generalizing positioned ps with
  | nil =>
    rw [predicates] at h
    cases h
    exact ⟨[], .nil, by rw [predicates]⟩
  | cons b bs ih =>
    rw [List.forall_mem_cons] at hread
    obtain ⟨hb, hread⟩ := hread
    cases b with
    | position digits =>
      obtain ⟨hrange, hpositioned, more, hmore, rfl⟩ := predicates_position.mp h
      obtain ⟨bs', hbs', hps⟩ := ih hread hmore
      refine ⟨_, .cons (position_writtenAs _) hbs', predicates_position.mpr ?_⟩
      rw [Decimal.ofDigits_repr]
      exact ⟨hrange, hpositioned, more, hps, rfl⟩
    | condition written =>
      obtain ⟨d, cs, rest, hb⟩ := hb
      obtain ⟨⟨source, test⟩, more, htest, hmore, rfl⟩ := predicates_condition.mp h
      obtain ⟨bs', hbs', hps⟩ := ih hread hmore
      obtain rfl := source_of_resolveCondition htest
      exact ⟨.condition written :: bs', .cons (condition_writtenAs hb) hbs',
        predicates_condition.mpr ⟨_, more, htest, hps, rfl⟩⟩

/-- A step that comes out of a written path: its parts can be written and read again, or it reads an
attribute of the context. -/
def Step.Written (s : Step) : Prop :=
  (∀ key ∈ s.reads, IsName key) ∧
    ((s.test.Legible ∧ ∃ bs, List.Forall₂ Predicate.WrittenAs s.predicates bs ∧
        Surface.predicates false bs = .ok s.predicates) ∨
      ∃ key, s = ⟨false, .context, some key, []⟩)

/-- A step that may stand somewhere before another one. -/
def Step.Before (s t : Step) : Prop := s.reads = none ∧ t.test ≠ .context

theorem NameTest.Legible.ne_context {test : NameTest} (h : test.Legible) : test ≠ .context := by
  rintro rfl
  cases h.read

theorem written_attributeStep {d : Bool} {key : String} (h : IsName key) :
    (attributeStep d key).Written := by
  have hkey : ∀ k ∈ (attributeStep d key).reads, IsName k := by
    rintro _ ⟨⟩
    exact h
  cases d with
  | true => exact ⟨hkey, .inl ⟨legible_any, [], .nil, by rw [predicates]; rfl⟩⟩
  | false => exact ⟨hkey, .inr ⟨key, rfl⟩⟩

theorem written_append {last : Option Step} {more : List Step} (hlast : ∀ s ∈ last, s.Written)
    (hbefore : ∀ s ∈ last, ∀ t ∈ more, s.Before t) (hmore : ∀ s ∈ more, s.Written)
    (hpairs : more.Pairwise Step.Before) :
    (∀ s ∈ last.toList ++ more, s.Written) ∧ (last.toList ++ more).Pairwise Step.Before := by
  cases last with
  | none => exact ⟨hmore, hpairs⟩
  | some s =>
    exact ⟨List.forall_mem_cons.mpr ⟨hlast s rfl, hmore⟩,
      List.pairwise_cons.mpr ⟨hbefore s rfl, hpairs⟩⟩

/-- What comes out of a written path is written itself, reads at most in its last step, and tests
for the context at most in its first. -/
theorem steps_written {last : Option Step} {descendant : Bool} {segs : List Segment}
    {found : List Step} (hsegs : ∀ seg ∈ segs, seg.Legible) (hlast : ∀ s ∈ last, s.Written)
    (h : steps last descendant segs = .ok found) :
    (∀ s ∈ found, s.Written) ∧ found.Pairwise Step.Before := by
  induction segs generalizing last descendant found with
  | nil =>
    rw [steps_nil] at h
    cases h
    cases last with
    | none => exact ⟨nofun, .nil⟩
    | some s => exact ⟨by simpa using hlast, List.pairwise_singleton _ _⟩
  | cons seg rest ih =>
    rw [List.forall_mem_cons] at hsegs
    obtain ⟨hseg, hrest⟩ := hsegs
    cases hreads : last.any (·.reads.isSome) with
    | true =>
      rw [steps_after_read hreads] at h
      cases h
    | false =>
      rcases seg with ⟨d, name⟩ | d | ⟨d, test, brackets⟩
      · by_cases hd : last = none ∨ (descendant || d) = true
        · rw [steps_attribute_alone name hreads hd] at h
          obtain ⟨more, hmore, rfl⟩ := map_eq_ok_iff.mp h
          obtain rfl := steps_of_reads rfl hmore
          rw [steps_nil] at hmore
          cases hmore
          apply written_append hlast _ (by simpa using written_attributeStep hseg)
            (List.pairwise_singleton _ _)
          rintro s rfl t ht
          obtain rfl : t = attributeStep (descendant || d) name := by simpa using ht
          rw [hd.resolve_left nofun]
          exact ⟨by simpa using hreads, nofun⟩
        · -- The attribute joins the last step, which keeps its test and its predicates.
          rw [not_or, Bool.not_eq_true] at hd
          obtain ⟨s, rfl⟩ := Option.ne_none_iff_exists'.mp hd.1
          have hs : s.reads = none := by simpa using hreads
          rw [steps_attribute_joins name hs hd.2] at h
          apply ih hrest _ h
          rintro _ ⟨⟩
          rcases (hlast s rfl).2 with hparts | ⟨key, rfl⟩
          · exact ⟨by rintro _ ⟨⟩; exact hseg, .inl hparts⟩
          · cases hs
      · rw [steps_self d hreads] at h
        exact ih hrest hlast h
      · rw [steps_step test brackets hreads] at h
        obtain ⟨ps, hps, h⟩ := bind_eq_ok_iff.mp h
        obtain ⟨more, hmore, rfl⟩ := map_eq_ok_iff.mp h
        obtain ⟨bs, hbs, hps'⟩ := exists_writtenAs hseg.2 hps
        have hwritten : Step.Written ⟨descendant || d, test, none, ps⟩ :=
          ⟨nofun, .inl ⟨hseg.1, bs, hbs, hps'⟩⟩
        obtain ⟨hall, hpairs⟩ := ih hrest (by simpa using hwritten) hmore
        obtain ⟨t, after, rfl, htest⟩ := steps_head hmore
        apply written_append hlast _ hall hpairs
        rintro s rfl u hu
        refine ⟨by simpa using hreads, ?_⟩
        rcases List.mem_cons.mp hu with rfl | hu
        · rw [htest]
          exact hseg.1.ne_context
        · exact ((List.pairwise_cons.mp hpairs).1 u hu).2

theorem Step.toList_display (s : Step) :
    s.display.toList = (if s.descendant then ['/'] else []) ++
      (s.test.display.toList ++ s.predicates.flatMap fun p => enclosed p.display) ++
        (s.reads.elim [] fun key => '/' :: '@' :: key.toList) := by
  obtain ⟨descendant, test, reads, ps⟩ := s
  have hrow : (String.join (ps.map fun p => "[" ++ p.display ++ "]")).toList =
      ps.flatMap fun p => enclosed p.display := by
    simp [String.toList_join, List.flatMap_map, enclosed]
  rw [Step.display, String.toList_append, String.toList_append, String.toList_append, hrow]
  cases descendant <;> cases reads <;> simp

theorem Step.Written.exists_segments {s : Step} (h : s.Written) :
    ∃ segs, ofPath? ('/' :: s.display.toList) = some segs ∧
      ∀ last rest, (∀ l ∈ last, l.Before s) →
        steps last false (segs ++ rest) = (steps (some s) false rest).map (last.toList ++ ·) := by
  obtain ⟨hkey, ⟨htest, bs, hbs, hps⟩ | ⟨key, rfl⟩⟩ := h
  · obtain ⟨descendant, test, reads, ps⟩ := s
    have hstep := ofPath?_step (d := descendant) htest hbs
    have hreads : ∀ {last : Option Step}, (∀ l ∈ last, l.Before ⟨descendant, test, reads, ps⟩) →
        last.any (·.reads.isSome) = false := by
      intro last hlast
      cases last with
      | none => rfl
      | some l => simp [(hlast l rfl).1]
    rw [Step.toList_display]
    cases reads with
    | none =>
      refine ⟨[.step descendant test bs], by simpa using hstep, ?_⟩
      intro last rest hlast
      rw [List.singleton_append, steps_step test bs (hreads hlast), hps]
      rfl
    | some key =>
      have hboth := ofPath?_append hstep (ofPath?_attribute (hkey key rfl))
      refine ⟨_, hboth, ?_⟩
      intro last rest hlast
      rw [List.append_assoc, List.singleton_append, steps_step test bs (hreads hlast), hps]
      have hjoins : steps (some ⟨descendant, test, none, ps⟩) false (.attribute false key :: rest) =
          steps (some ⟨descendant, test, some key, ps⟩) false rest :=
        steps_attribute_joins key rfl rfl
      exact congrArg (Except.map (last.toList ++ ·)) hjoins
  · -- The context is written as a dot, which folds away where no step stands before it.
    have hboth := ofPath?_append ofPath?_self (ofPath?_attribute (hkey key rfl))
    refine ⟨_, by simpa [Step.display, NameTest.display] using hboth, ?_⟩
    intro last rest hlast
    cases last with
    | some l => exact absurd rfl (hlast l rfl).2
    | none =>
      simp only [List.cons_append, List.nil_append]
      rw [steps_self false rfl, steps_attribute_alone key rfl (.inl rfl)]
      rfl

theorem toList_print_cons (s : Step) (rest : List Step) :
    (print (s :: rest)).toList = ('/' :: s.display.toList) ++ (print rest).toList := by
  simp [print]

theorem exists_segments_print {s : Step} {rest : List Step}
    (h : ∀ t ∈ s :: rest, t.Written) (hpairs : (s :: rest).Pairwise Step.Before) :
    ∃ segs, ofPath? (print (s :: rest)).toList = some segs ∧
      ∀ last, (∀ l ∈ last, l.Before s) →
        steps last false segs = .ok (last.toList ++ s :: rest) := by
  induction rest generalizing s with
  | nil =>
    obtain ⟨segs, hsegs, hfold⟩ := (h s List.mem_cons_self).exists_segments
    have hprint : (print [s]).toList = '/' :: s.display.toList := by simp [print]
    refine ⟨segs, by rw [hprint, hsegs], ?_⟩
    intro last hlast
    have := hfold last [] hlast
    rw [List.append_nil, steps_nil] at this
    exact this
  | cons t rest ih =>
    obtain ⟨segs, hsegs, hfold⟩ := (h s List.mem_cons_self).exists_segments
    rw [List.pairwise_cons] at hpairs
    obtain ⟨more, hmore, hfold'⟩ := ih (fun u hu => h u (List.mem_cons_of_mem s hu)) hpairs.2
    refine ⟨segs ++ more, by rw [toList_print_cons, ofPath?_append hsegs hmore], ?_⟩
    intro last hlast
    have hnext : ∀ l ∈ some s, l.Before t := by
      rintro _ ⟨⟩
      exact hpairs.1 t List.mem_cons_self
    rw [hfold last more hlast, hfold' (some s) hnext]
    rfl

theorem parse_print {path : String} {found : List Step} (h : parse path = .ok found) :
    parse (print found) = .ok found := by
  obtain ⟨segs, hsegs, hsteps, hne⟩ := parse_eq_ok.mp h
  have hnone : ∀ s ∈ (none : Option Step), s.Written := nofun
  obtain ⟨hall, hpairs⟩ := steps_written (ofPath?_legible hsegs) hnone hsteps
  obtain ⟨s, rest, rfl⟩ := List.exists_cons_of_ne_nil hne
  obtain ⟨segs', hsegs', hfold⟩ := exists_segments_print hall hpairs
  exact parse_eq_ok.mpr ⟨segs', hsegs', hfold none nofun, hne⟩

/-- Texts at whose end nothing is trimmed. -/
def EndsInk (cs : List Char) : Prop := ∀ c ∈ cs.getLast?, Text.isBlank c = false

theorem EndsInk.append {a b : List Char} (ha : EndsInk a) (hb : EndsInk b) : EndsInk (a ++ b) := by
  intro c hc
  rw [List.getLast?_append, Option.mem_def, Option.or_eq_some_iff] at hc
  rcases hc with hc | ⟨-, hc⟩
  · exact hb c hc
  · exact ha c hc

theorem endsInk_of_forall {cs : List Char} (h : ∀ c ∈ cs, Text.isBlank c = false) : EndsInk cs :=
  fun c hc => h c (List.mem_of_getLast? hc)

theorem endsInk_enclosed (text : String) : EndsInk (enclosed text) := by
  intro c hc
  have hsplit : enclosed text = ('[' :: text.toList) ++ [']'] := rfl
  rw [hsplit, List.getLast?_concat] at hc
  cases hc
  rfl

theorem endsInk_row (ps : List Predicate) : EndsInk (ps.flatMap fun p => enclosed p.display) := by
  induction ps with
  | nil => nofun
  | cons p ps ih => exact (endsInk_enclosed p.display).append ih

theorem Step.Written.endsInk {s : Step} (h : s.Written) : EndsInk s.display.toList := by
  have hreads : EndsInk (s.reads.elim [] fun key => '/' :: '@' :: key.toList) := by
    cases hkey : s.reads with
    | none => nofun
    | some key =>
      apply endsInk_of_forall
      simpa using ⟨rfl, rfl, (h.1 key hkey).not_isBlank⟩
  rw [Step.toList_display]
  apply EndsInk.append (EndsInk.append _ (EndsInk.append _ (endsInk_row _))) hreads
  · cases s.descendant
    · nofun
    · exact endsInk_of_forall (not_isBlank_of_all (by decide))
  · obtain ⟨-, ⟨htest, -⟩ | ⟨key, rfl⟩⟩ := h
    · exact endsInk_of_forall htest.not_isBlank
    · have hdot : ∀ c ∈ ".".toList, Text.isBlank c = false := not_isBlank_of_all (by decide)
      exact endsInk_of_forall hdot

theorem endsInk_print {found : List Step} (h : ∀ s ∈ found, s.Written) :
    EndsInk (print found).toList := by
  induction found with
  | nil => nofun
  | cons s rest ih =>
    rw [List.forall_mem_cons] at h
    rw [toList_print_cons]
    have hslash : EndsInk ['/'] := endsInk_of_forall (not_isBlank_of_all (by decide))
    exact (hslash.append h.1.endsInk).append (ih h.2)

theorem trim_eq_self {cs : List Char} (hhead : ∀ c ∈ cs.head?, Text.isBlank c = false)
    (hlast : EndsInk cs) : Text.trim cs = cs := by
  have hreverse : ∀ c ∈ cs.reverse.head?, Text.isBlank c = false := by
    rw [List.head?_reverse]
    exact hlast
  have hfront : cs.dropWhile Text.isBlank = cs := dropWhile_append_of_head hhead []
  have hback : cs.reverse.dropWhile Text.isBlank = cs.reverse :=
    dropWhile_append_of_head hreverse []
  rw [Text.trim, hfront, hback, List.reverse_reverse]

theorem parseRelative_eq_ok {text path : String} {found : List Step} :
    parseRelative text path = .ok found ↔
      ∃ segs more, ofRelative? (Text.trimmed text).toList = some segs ∧
        steps none false segs = .ok more ∧ found = orSelf more := by
  simp only [parseRelative]
  cases ofRelative? (Text.trimmed text).toList with
  | none => simp
  | some segs =>
    simp only [Option.some.injEq, exists_and_left, exists_eq_left']
    cases steps none false segs with
    | error reason => simp
    | ok more => simp [eq_comm]

theorem parseRelative_dot {printed : String} {segs : List Segment} {more : List Step}
    (hink : EndsInk printed.toList) (hsegs : ofPath? printed.toList = some segs)
    (hsteps : steps none false segs = .ok more) (path : String) :
    parseRelative ("." ++ printed) path = .ok (orSelf more) := by
  have htext : (Text.trimmed ("." ++ printed)).toList = '.' :: printed.toList := by
    have hdot : EndsInk ['.'] := endsInk_of_forall (not_isBlank_of_all (by decide))
    have htoList : ("." ++ printed).toList = '.' :: printed.toList := by simp
    rw [Text.trimmed, String.toList_ofList, htoList]
    exact trim_eq_self (by rintro _ ⟨⟩; rfl) (hdot.append hink)
  apply parseRelative_eq_ok.mpr
  refine ⟨.self false :: segs, more, ?_, (steps_self false rfl).trans hsteps, rfl⟩
  obtain ⟨n, hn, hdepth⟩ := exists_depth ('.' :: printed.toList)
  rw [htext, ofRelative?, if_neg (by simp), whole_eq_some, hn]
  have hread := segments_dot (v := []) (.inr hsegs) breaks_nil nofun
    (Nat.le_trans (Nat.le_succ _) hdepth)
  rwa [List.append_nil] at hread

theorem parseRelative_print {text path : String} {found : List Step}
    (h : parseRelative text path = .ok found) (path' : String) :
    parseRelative ("." ++ print found) path' = .ok found := by
  obtain ⟨segs, more, hsegs, hsteps, rfl⟩ := parseRelative_eq_ok.mp h
  have hnone : ∀ s ∈ (none : Option Step), s.Written := nofun
  obtain ⟨hall, hpairs⟩ := steps_written (ofRelative?_legible hsegs) hnone hsteps
  cases more with
  | nil =>
    -- Nothing but dots: the step that stands for them prints as one more dot.
    have hself : (print [Step.self]).toList = "/.".toList := rfl
    have hsteps' : steps none false [.self false] = .ok [] := by
      rw [steps_self false rfl, steps_nil]
      rfl
    have hink : EndsInk (print [Step.self]).toList := by
      rw [hself]
      exact endsInk_of_forall (not_isBlank_of_all (by decide))
    have hsegs' : ofPath? (print [Step.self]).toList = some [.self false] := by
      rw [hself, ofPath?_self]
    exact parseRelative_dot hink hsegs' hsteps' path'
  | cons s rest =>
    obtain ⟨segs', hsegs', hfold⟩ := exists_segments_print hall hpairs
    exact parseRelative_dot (endsInk_print hall) hsegs' (hfold none nofun) path'

/-- Parsing what the steps of a path print gives the steps of the path, with the texts and meanings
of their conditions; and so for relative paths, printed behind a dot. -/
theorem printed_steps_read_back :
    (∀ path found, parse path = .ok found → parse (print found) = .ok found) ∧
      ∀ text path found, parseRelative text path = .ok found →
        ∀ path', parseRelative ("." ++ print found) path' = .ok found := by
  constructor
  · intro path found h
    exact parse_print h
  · intro text path found h path'
    exact parseRelative_print h path'

/-- A dot, a double slash before an attribute, zeros and blanks are not printed, a condition is. -/
theorem printed_steps_read_back_shortened :
    (∃ found, parse "/./a[ 007 ][ .b[.//c != \"]\"]/@k ]//@id" = .ok found ∧
      print found = "/a[7][.b[.//c != \"]\"]/@k]//*/@id" ∧
      parse "/a[7][.b[.//c != \"]\"]/@k]//*/@id" = .ok found) ∧
    ∃ found, parseRelative " ./. " "/" = .ok found ∧ print found = "/." ∧
      parseRelative "./." "/" = .ok found := by
  have hpath : ((parse "/./a[ 007 ][ .b[.//c != \"]\"]/@k ]//@id").toOption.map print) =
      some "/a[7][.b[.//c != \"]\"]/@k]//*/@id" := by
    decide +kernel
  have hdot : (parseRelative " ./. " "/").toOption.map print = some "/." := by
    decide +kernel
  obtain ⟨found, hfound, hprint⟩ := Option.map_eq_some_iff.mp hpath
  obtain ⟨found', hfound', hprint'⟩ := Option.map_eq_some_iff.mp hdot
  rw [toOption_eq_some_iff] at hfound hfound'
  have hback := printed_steps_read_back.1 _ _ hfound
  have hback' := printed_steps_read_back.2 _ _ _ hfound' "/"
  rw [hprint] at hback
  rw [hprint'] at hback'
  exact ⟨⟨found, hfound, hprint, hback⟩, ⟨found', hfound', hprint', hback'⟩⟩

end MarkupTree.Path

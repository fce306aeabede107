import MarkupTree.Proofs.Path.Occurrence
import MarkupTree.Proofs.Path.Printing

/-!
# The steps of parsed paths are well formed

What the type of steps leaves open: an attribute is read by the last step only, at most one
predicate of a step is a position, the context stands alone, and names are names. It is settled
partly where a text is read and partly where its segments are folded, for the path itself and for
every path in its conditions, which are folded in the same way at a lower depth of brackets.
-/

set_option autoImplicit false

namespace MarkupTree.Path

mutual

/-- The paths in the conditions of some steps, at any depth. -/
def pathsBelow : List Step → List (List Step)
  | [] => []
  | ⟨_, _, _, predicates⟩ :: rest => predicatesPaths predicates ++ pathsBelow rest

def predicatesPaths : List Predicate → List (List Step)
  | [] => []
  | .position _ :: rest => predicatesPaths rest
  | .condition _ test :: rest => conditionPaths test ++ predicatesPaths rest

def conditionPaths : Condition → List (List Step)
  | .compare lhs _ rhs => operandPaths lhs ++ operandPaths rhs
  | .present steps => steps :: pathsBelow steps

def operandPaths : Operand → List (List Step)
  | .path steps => steps :: pathsBelow steps
  | .literal _ => []

end

/-- A path together with the paths in its conditions. -/
def pathsWithin (steps : List Step) : List (List Step) := steps :: pathsBelow steps

theorem pathsBelow_cons (s : Step) (rest : List Step) :
    pathsBelow (s :: rest) = predicatesPaths s.predicates ++ pathsBelow rest := by
  obtain ⟨descendant, test, reads, predicates⟩ := s
  rw [pathsBelow]

theorem predicatesPaths_append (ps more : List Predicate) :
    predicatesPaths (ps ++ more) = predicatesPaths ps ++ predicatesPaths more := by
  induction ps with
  | nil => rw [List.nil_append, predicatesPaths, List.nil_append]
  | cons p ps ih =>
    cases p with
    | position => rw [List.cons_append, predicatesPaths, predicatesPaths, ih]
    | condition => rw [List.cons_append, predicatesPaths, predicatesPaths, ih, List.append_assoc]

theorem pathsBelow_eq (found : List Step) :
    pathsBelow found = predicatesPaths (found.flatMap Step.predicates) := by
  induction found with
  | nil => rw [pathsBelow, List.flatMap_nil, predicatesPaths]
  | cons s found ih => rw [pathsBelow_cons, ih, List.flatMap_cons, predicatesPaths_append]

theorem pathsBelow_self : pathsBelow [Step.self] = [] := by
  rw [pathsBelow_cons, pathsBelow, List.append_nil, Step.self, predicatesPaths]

section

variable {P : Step → Prop}

mutual

theorem forall_stepsWithin : (steps : List Step) →
    (∀ inner ∈ pathsWithin steps, ∀ s ∈ inner, P s) → ∀ s ∈ stepsWithin steps, P s
  | [], _ => by
    rw [stepsWithin]
    nofun
  | ⟨descendant, test, reads, predicates⟩ :: rest, h => by
    rw [pathsWithin, pathsBelow, List.forall_mem_cons, List.forall_mem_append] at h
    obtain ⟨hsteps, hpredicates, hrest⟩ := h
    rw [List.forall_mem_cons] at hsteps
    exact forall_stepsWithin_cons.mpr ⟨hsteps.1, forall_predicatesWithin predicates hpredicates,
      forall_stepsWithin rest (List.forall_mem_cons.mpr ⟨hsteps.2, hrest⟩)⟩

theorem forall_predicatesWithin : (ps : List Predicate) →
    (∀ inner ∈ predicatesPaths ps, ∀ s ∈ inner, P s) → ∀ s ∈ predicatesWithin ps, P s
  | [], _ => by
    rw [predicatesWithin]
    nofun
  | .position _ :: rest, h => by
    rw [predicatesPaths] at h
    exact forall_predicatesWithin_position.mpr (forall_predicatesWithin rest h)
  | .condition _ test :: rest, h => by
    rw [predicatesPaths, List.forall_mem_append] at h
    exact forall_predicatesWithin_condition.mpr
      ⟨forall_conditionWithin test h.1, forall_predicatesWithin rest h.2⟩

theorem forall_conditionWithin : (test : Condition) →
    (∀ inner ∈ conditionPaths test, ∀ s ∈ inner, P s) → ∀ s ∈ conditionWithin test, P s
  | .compare lhs _ rhs, h => by
    rw [conditionPaths, List.forall_mem_append] at h
    exact forall_conditionWithin_compare.mpr
      ⟨forall_operandWithin lhs h.1, forall_operandWithin rhs h.2⟩
  | .present steps, h => by
    rw [conditionPaths] at h
    rw [conditionWithin]
    exact forall_stepsWithin steps h

theorem forall_operandWithin : (operand : Operand) →
    (∀ inner ∈ operandPaths operand, ∀ s ∈ inner, P s) → ∀ s ∈ operandWithin operand, P s
  | .path steps, h => by
    rw [operandPaths] at h
    rw [operandWithin]
    exact forall_stepsWithin steps h
  | .literal _, _ => by
    rw [operandWithin]
    nofun

end

end

/-- Not empty, and without blanks and the characters with a meaning of their own. -/
def PlainName (cs : List Char) : Prop :=
  cs ≠ [] ∧ ∀ c ∈ cs, c ∉ Surface.reserved ∧ Text.isBlank c = false

/-- Plain names with colons between them. -/
def QualifiedName (name : String) : Prop := ∀ part ∈ name.toList.splitOn ':', PlainName part

structure WellFormed (steps : List Step) : Prop where
  ne_nil : steps ≠ []
  reads_last : ∀ s ∈ steps.dropLast, s.reads = none
  one_position : ∀ s ∈ steps, (s.predicates.filterMap Predicate.position?).length ≤ 1
  context_alone : ∀ s ∈ steps, s.test = .context →
    steps = [s] ∧ s.descendant = false ∧ s.predicates = []
  element_names : ∀ s ∈ steps, ∀ name, s.test = .name name → QualifiedName name
  local_names : ∀ s ∈ steps, ∀ name, s.test = .anyNamespace name → PlainName name.toList
  attribute_names : ∀ s ∈ steps, ∀ key, s.reads = some key → QualifiedName key

theorem wellFormed_self : WellFormed [Step.self] := by
  constructor <;> simp [Step.self]

open Surface

theorem isNameChar_iff {c : Char} :
    isNameChar c = true ↔ c ∉ reserved ∧ Text.isBlank c = false := by
  simp [isNameChar]

/-- A text that is a run of name characters and colons is split at the colons into plain names, of
which the first is missing where the text does not start like a name. -/
theorem splitOn_of_nameRun {cs : List Char} (h : nameRun cs = (cs, [])) :
    ∃ first rest, cs.splitOn ':' = first :: rest ∧ (∀ c ∈ first, isNameChar c = true) ∧
      (startsName cs = true → first ≠ []) ∧ ∀ part ∈ rest, PlainName part := by
  induction cs with
  | nil => exact ⟨[], [], rfl, nofun, nofun, nofun⟩
  | cons c cs ih =>
    rw [nameRun] at h
    split at h
    case isFalse => cases h
    case isTrue hc =>
      obtain ⟨hrun, hrest⟩ : (nameRun cs).1 = cs ∧ (nameRun cs).2 = [] := by simpa using h
      obtain ⟨first, rest, hsplit, hfirst, hstarts, hplain⟩ := ih (Prod.ext hrun hrest)
      rw [List.splitOn] at hsplit ⊢
      rw [List.splitOnP_cons_eq_if_modifyHead, hsplit]
      by_cases hcolon : c = ':'
      · subst hcolon
        have hname : isNameChar ':' = false := rfl
        have hafter : startsName cs = true := by simpa [hname] using hc
        refine ⟨[], first :: rest, rfl, nofun, by simp [startsName_cons, hname], ?_⟩
        rw [List.forall_mem_cons]
        exact ⟨⟨hstarts hafter, fun c hc => isNameChar_iff.mp (hfirst c hc)⟩, hplain⟩
      · have hname : isNameChar c = true := by simpa [hcolon] using hc
        refine ⟨c :: first, rest, by simp [hcolon], ?_, fun _ => List.cons_ne_nil c first, hplain⟩
        exact List.forall_mem_cons.mpr ⟨hname, hfirst⟩

theorem qualifiedName_of_isName {name : String} (h : IsName name) : QualifiedName name := by
  obtain ⟨hstarts, hname, hrest⟩ := qualifiedName_eq_some h
  have hrun : nameRun name.toList = (name.toList, []) := by
    refine Prod.ext ?_ hrest.symm
    conv_rhs => rw [hname, String.toList_ofList]
  obtain ⟨first, rest, hsplit, hfirst, hne, hplain⟩ := splitOn_of_nameRun hrun
  rw [QualifiedName, hsplit, List.forall_mem_cons]
  exact ⟨⟨hne hstarts, fun c hc => isNameChar_iff.mp (hfirst c hc)⟩, hplain⟩

theorem nameRun_append_of_forall {p r : List Char} (hp : ∀ c ∈ p, isNameChar c = true)
    (hr : nameRun r = (r, [])) : nameRun (p ++ r) = (p ++ r, []) := by
  induction p with
  | nil => exact hr
  | cons c p ih =>
    rw [List.forall_mem_cons] at hp
    rw [List.cons_append, nameRun, hp.1, Bool.true_or, if_pos rfl, ih hp.2]

theorem nameRun_intercalate {first : List Char} {parts : List (List Char)} (hfirst : PlainName first)
    (hparts : ∀ part ∈ parts, PlainName part) :
    let cs := [':'].intercalate (first :: parts)
    startsName cs = true ∧ nameRun cs = (cs, []) := by
  have hchars : ∀ {part}, PlainName part → ∀ c ∈ part, isNameChar c = true :=
    fun hpart c hc => isNameChar_iff.mpr (hpart.2 c hc)
  have hstarts : ∀ {part}, PlainName part → ∀ rest, startsName (part ++ rest) = true := by
    intro part hpart rest
    obtain ⟨c, part, rfl⟩ := List.exists_cons_of_ne_nil hpart.1
    exact (startsName_cons c _).trans (hchars hpart c List.mem_cons_self)
  induction parts generalizing first with
  | nil =>
    have hone : [':'].intercalate [first] = first ++ [] := by simp
    rw [hone]
    exact ⟨hstarts hfirst [], nameRun_append_of_forall (hchars hfirst) rfl⟩
  | cons second parts ih =>
    rw [List.forall_mem_cons] at hparts
    obtain ⟨hnext, hrun⟩ := ih hparts.1 hparts.2
    have hcolon : [':'].intercalate (first :: second :: parts) =
        first ++ ':' :: [':'].intercalate (second :: parts) := by
      simp
    rw [hcolon]
    refine ⟨hstarts hfirst _, nameRun_append_of_forall (hchars hfirst) ?_⟩
    rw [nameRun, hnext, hrun]
    rfl

theorem QualifiedName.isName {name : String} (h : QualifiedName name) : IsName name := by
  obtain ⟨first, parts, hsplit⟩ := List.exists_cons_of_ne_nil (List.splitOn_ne_nil ':' name.toList)
  rw [QualifiedName, hsplit, List.forall_mem_cons] at h
  obtain ⟨hstarts, hrun⟩ := nameRun_intercalate h.1 h.2
  rw [← hsplit, List.intercalate_splitOn] at hstarts hrun
  simp only [IsName, qualifiedName, hstarts, hrun, String.ofList_toList, if_true]

theorem plainName_of_localName {cs rest : List Char} {name : String}
    (h : localName cs = some (name, rest)) : PlainName name.toList := by
  obtain ⟨hread, hmem⟩ := localName_of_localName h
  exact ⟨(localName_consumes hread).ne_nil, fun c hc => isNameChar_iff.mp (hmem c hc)⟩

theorem NameTest.Legible.qualifiedName {name : String} (h : (NameTest.name name).Legible) :
    QualifiedName name := by
  rcases nameTest_eq_some h.read with ⟨htest, -⟩ | ⟨_, _, -, -, htest⟩ | ⟨-, htest⟩ |
    ⟨name', hname, htest⟩
  · cases htest
  · cases htest
  · cases htest
  · cases htest
    exact qualifiedName_of_isName (isName_of_qualifiedName hname)

theorem NameTest.Legible.plainName {name : String} (h : (NameTest.anyNamespace name).Legible) :
    PlainName name.toList := by
  rcases nameTest_eq_some h.read with ⟨htest, -⟩ | ⟨_, _, -, hname, htest⟩ | ⟨-, htest⟩ |
    ⟨_, -, htest⟩
  · cases htest
  · cases htest
    exact plainName_of_localName hname
  · cases htest
  · cases htest

section

variable {s : Step} (h : s.Written)

include h

theorem Step.Written.one_position : (s.predicates.filterMap Predicate.position?).length ≤ 1 := by
  rcases h.2 with ⟨-, bs, -, hps⟩ | ⟨key, rfl⟩
  · have hcount := (predicates_eq_ok_iff.mp hps).2
    omega
  · exact Nat.zero_le 1

theorem Step.Written.eq_of_context (htest : s.test = .context) :
    ∃ key, s = ⟨false, .context, some key, []⟩ := by
  rcases h.2 with ⟨hlegible, -⟩ | hkey
  · exact absurd htest hlegible.ne_context
  · exact hkey

theorem Step.Written.legible (htest : s.test ≠ .context) : s.test.Legible := by
  rcases h.2 with ⟨hlegible, -⟩ | ⟨key, rfl⟩
  · exact hlegible
  · exact absurd rfl htest

end

section

variable {found : List Step} (h : ∀ s ∈ found, s.Written) (hpairs : found.Pairwise Step.Before)

include hpairs

theorem reads_of_mem_dropLast {s : Step} (hs : s ∈ found.dropLast) : s.reads = none := by
  have hne : found ≠ [] := by
    rintro rfl
    cases hs
  rw [← List.dropLast_concat_getLast hne, List.pairwise_append] at hpairs
  exact (hpairs.2.2 s hs _ List.mem_cons_self).1

include h

theorem eq_singleton_of_context {s : Step} (hs : s ∈ found) (htest : s.test = .context) :
    found = [s] := by
  obtain ⟨key, hkey⟩ := (h s hs).eq_of_context htest
  obtain ⟨front, rest, rfl⟩ := List.append_of_mem hs
  rw [List.pairwise_append, List.pairwise_cons] at hpairs
  have hfront : front = [] := by
    apply List.eq_nil_iff_forall_not_mem.mpr
    intro t ht
    exact (hpairs.2.2 t ht s List.mem_cons_self).2 htest
  have hrest : rest = [] := by
    apply List.eq_nil_iff_forall_not_mem.mpr
    intro t ht
    have hreads := (hpairs.2.1.1 t ht).1
    rw [hkey] at hreads
    cases hreads
  rw [hfront, hrest, List.nil_append]

theorem wellFormed_of_written (hne : found ≠ []) : WellFormed found where
  ne_nil := hne
  reads_last _ hs := reads_of_mem_dropLast hpairs hs
  one_position s hs := (h s hs).one_position
  context_alone s hs htest := by
    obtain ⟨key, rfl⟩ := (h s hs).eq_of_context htest
    exact ⟨eq_singleton_of_context h hpairs hs htest, rfl, rfl⟩
  element_names s hs name htest := by
    have hlegible := (h s hs).legible (by simp [htest])
    rw [htest] at hlegible
    exact hlegible.qualifiedName
  local_names s hs name htest := by
    have hlegible := (h s hs).legible (by simp [htest])
    rw [htest] at hlegible
    exact hlegible.plainName
  attribute_names s hs key hkey := qualifiedName_of_isName ((h s hs).1 key hkey)

end

namespace Surface

/-- All paths in what the condition means are well formed. -/
def Condition.Sound (written : Condition) : Prop :=
  ∀ source test, resolveCondition written = .ok (source, test) →
    ∀ steps ∈ conditionPaths test, WellFormed steps

def Bracket.Sound : Bracket → Prop
  | .position _ => True
  | .condition written => written.Sound

/-- The segment can be written and read again, and all paths in its brackets are well formed. -/
def Segment.Sound (seg : Segment) : Prop :=
  seg.Legible ∧ ∀ descendant test bs, seg = .step descendant test bs → ∀ b ∈ bs, b.Sound

theorem predicates_sound {positioned : Bool} {bs : List Bracket} {ps : List Predicate}
    (hbs : ∀ b ∈ bs, b.Sound) (h : predicates positioned bs = .ok ps) :
    ∀ steps ∈ predicatesPaths ps, WellFormed steps := by
  induction bs generalizing positioned ps with
  | nil =>
    rw [predicates] at h
    cases h
    rw [predicatesPaths]
    exact List.forall_mem_nil _
  | cons b bs ih =>
    rw [List.forall_mem_cons] at hbs
    cases b with
    | position digits =>
      obtain ⟨-, -, more, hmore, rfl⟩ := predicates_position.mp h
      rw [predicatesPaths]
      exact ih hbs.2 hmore
    | condition written =>
      rw [predicates] at h
      obtain ⟨⟨source, test⟩, htest, h⟩ := bind_eq_ok_iff.mp h
      obtain ⟨more, hmore, h⟩ := bind_eq_ok_iff.mp h
      cases h
      rw [predicatesPaths, List.forall_mem_append]
      exact ⟨hbs.1 source test htest, ih hbs.2 hmore⟩

theorem Segment.Sound.brackets {seg : Segment} (h : seg.Sound) : ∀ b ∈ seg.brackets, b.Sound := by
  rcases seg with ⟨_, _⟩ | _ | ⟨d, test, bs⟩
  · nofun
  · nofun
  · exact h.2 d test bs rfl

theorem steps_sound {last : Option Step} {descendant : Bool} {segs : List Segment}
    {found : List Step} (hsegs : ∀ seg ∈ segs, seg.Sound)
    (hlast : ∀ steps ∈ pathsBelow last.toList, WellFormed steps)
    (h : Surface.steps last descendant segs = .ok found) :
    ∀ steps ∈ pathsBelow found, WellFormed steps := by
  obtain ⟨pss, hpss, hflat⟩ := predicates_of_steps h
  rw [pathsBelow_eq] at hlast ⊢
  rw [hflat, predicatesPaths_append, List.forall_mem_append]
  refine ⟨hlast, ?_⟩
  clear h hflat hlast
  induction hpss with
  | nil =>
    rw [List.flatten_nil, predicatesPaths]
    nofun
  | cons hps _ ih =>
    rw [List.forall_mem_cons] at hsegs
    rw [List.flatten_cons, predicatesPaths_append, List.forall_mem_append]
    exact ⟨predicates_sound hsegs.1.brackets hps, ih hsegs.2⟩

theorem wellFormed_orSelf {segs : List Segment} {found : List Step}
    (hsegs : ∀ seg ∈ segs, seg.Sound) (h : Surface.steps none false segs = .ok found) :
    ∀ steps ∈ pathsWithin (orSelf found), WellFormed steps := by
  rw [pathsWithin, List.forall_mem_cons]
  have hbelow : ∀ steps ∈ pathsBelow found, WellFormed steps := by
    refine steps_sound hsegs ?_ h
    rw [Option.toList_none, pathsBelow]
    nofun
  cases found with
  | nil =>
    refine ⟨wellFormed_self, ?_⟩
    rw [show orSelf [] = [Step.self] from rfl, pathsBelow_self]
    nofun
  | cons s rest =>
    have hnone : ∀ s ∈ (none : Option Step), s.Written := nofun
    obtain ⟨hall, hpairs⟩ := steps_written (fun seg hseg => (hsegs seg hseg).1) hnone h
    exact ⟨wellFormed_of_written hall hpairs (List.cons_ne_nil s rest), hbelow⟩

section

variable {d : Nat} (ih : ∀ cs written rest, condition d cs = some (written, rest) →
  written.Sound)

include ih

theorem segment_sound {descendant : Bool} {cs rest : List Char} {seg : Segment}
    (h : segment (condition d) descendant cs = some (seg, rest)) : seg.Sound := by
  refine ⟨segment_legible h, ?_⟩
  rintro _ _ bs rfl
  refine forall_mem_brackets ?_ h
  intro cs b rest hb
  obtain ⟨_, _, -, -, ⟨_, -, rfl⟩ | ⟨-, written, hwritten, rfl⟩⟩ := bracket_eq_some.mp hb
  · exact True.intro
  · exact ih _ _ _ hwritten

theorem operand_segments_sound {cs rest : List Char} {source : String} {segs : List Segment}
    (h : operand (condition d) cs = some (.path source segs, rest)) :
    ∀ seg ∈ segs, seg.Sound :=
  forall_mem_segments (fun _ _ _ _ => segment_sound ih) (segments_of_operand h)

theorem operand_sound {cs rest : List Char} {x : Operand} {meant : Path.Operand}
    (h : operand (condition d) cs = some (x, rest)) (hx : resolveOperand x = .ok meant) :
    ∀ steps ∈ operandPaths meant, WellFormed steps := by
  have hliteral : ∀ text, ∀ steps ∈ operandPaths (.literal text), WellFormed steps := by
    intro text
    rw [operandPaths]
    nofun
  cases x with
  | path source segs =>
    rw [resolveOperand] at hx
    split at hx
    · obtain ⟨found, hfound, hx⟩ := bind_eq_ok_iff.mp hx
      cases hx
      rw [operandPaths]
      exact wellFormed_orSelf (operand_segments_sound ih h) hfound
    · cases hx
      exact hliteral _
  | quoted =>
    cases hx
    exact hliteral _
  | number =>
    cases hx
    exact hliteral _
  | bare =>
    cases hx
    exact hliteral _

end

theorem condition_sound (d : Nat) : ∀ cs written rest,
    condition d cs = some (written, rest) → written.Sound := by
  induction d with
  | zero => nofun
  | succ d ih =>
    intro cs written rest h source test htest
    obtain ⟨lhs, mid, hlhs, ⟨op, rhs, hcmp, rfl⟩ | ⟨-, -, rfl⟩⟩ := condition_succ_eq_some.mp h
    · obtain ⟨_, -, hrhs⟩ := comparand_eq_some.mp hcmp
      rw [resolveCondition] at htest
      obtain ⟨x, hx, htest⟩ := bind_eq_ok_iff.mp htest
      obtain ⟨y, hy, htest⟩ := bind_eq_ok_iff.mp htest
      cases htest
      rw [conditionPaths, List.forall_mem_append]
      exact ⟨operand_sound ih hlhs hx, operand_sound ih hrhs hy⟩
    · cases lhs with
      | path _ segs =>
        rw [resolveCondition] at htest
        obtain ⟨found, hfound, htest⟩ := bind_eq_ok_iff.mp htest
        cases htest
        rw [conditionPaths]
        exact wellFormed_orSelf (operand_segments_sound ih hlhs) hfound
      | quoted => cases htest
      | number => cases htest
      | bare => cases htest

theorem ofPath?_sound {cs : List Char} {segs : List Segment} (h : ofPath? cs = some segs) :
    ∀ seg ∈ segs, seg.Sound :=
  forall_mem_ofPath? (fun n _ _ _ _ => segment_sound (condition_sound n)) h

theorem ofRelative?_sound {cs : List Char} {segs : List Segment}
    (h : ofRelative? cs = some segs) : ∀ seg ∈ segs, seg.Sound :=
  forall_mem_ofRelative? (fun n _ _ _ _ => segment_sound (condition_sound n)) h

end Surface

theorem wellFormed_of_parse {path : String} {steps : List Step} (h : parse path = .ok steps) :
    ∀ inner ∈ pathsWithin steps, WellFormed inner := by
  obtain ⟨segs, hsegs, hsteps, hne⟩ := parse_eq_ok.mp h
  have hall := wellFormed_orSelf (ofPath?_sound hsegs) hsteps
  rwa [orSelf, if_neg (by simpa using hne)] at hall

/-- All steps that parsing returns are well formed, and so are those of all paths in their
conditions. -/
theorem parsed_wellFormed :
    (∀ path steps, parse path = .ok steps → ∀ inner ∈ pathsWithin steps, WellFormed inner) ∧
      ∀ text path steps, parseRelative text path = .ok steps →
        ∀ inner ∈ pathsWithin steps, WellFormed inner := by
  constructor
  · intro path steps h
    exact wellFormed_of_parse h
  · intro text path steps h
    obtain ⟨segs, found, hsegs, hsteps, rfl⟩ := parseRelative_eq_ok.mp h
    exact wellFormed_orSelf (ofRelative?_sound hsegs) hsteps

/-- A path with a qualified name, a position, and paths and dots alone within its conditions. -/
theorem parsed_wellFormed_nested :
    (∃ steps, parse "/a:b[2][.//*:c[@d:e = ./f]/@g]//text()" = .ok steps ∧
      (pathsWithin steps).map print =
        ["/a:b[2][.//*:c[@d:e = ./f]/@g]//text()", "//*:c[@d:e = ./f]/@g", "/./@d:e", "/f"] ∧
      ∀ inner ∈ pathsWithin steps, WellFormed inner) ∧
    ∃ steps, parseRelative " .//. " "/" = .ok steps ∧ (pathsWithin steps).map print = ["/."] ∧
      ∀ inner ∈ pathsWithin steps, WellFormed inner := by
  have hpath : (parse "/a:b[2][.//*:c[@d:e = ./f]/@g]//text()").toOption.map
      (fun steps => (pathsWithin steps).map print) =
        some ["/a:b[2][.//*:c[@d:e = ./f]/@g]//text()", "//*:c[@d:e = ./f]/@g", "/./@d:e",
          "/f"] := by
    decide +kernel
  have hdots : (parseRelative " .//. " "/").toOption.map
      (fun steps => (pathsWithin steps).map print) = some ["/."] := by
    decide +kernel
  obtain ⟨steps, hsteps, hprint⟩ := Option.map_eq_some_iff.mp hpath
  obtain ⟨steps', hsteps', hprint'⟩ := Option.map_eq_some_iff.mp hdots
  rw [toOption_eq_some_iff] at hsteps hsteps'
  exact ⟨⟨steps, hsteps, hprint, parsed_wellFormed.1 _ _ hsteps⟩,
    ⟨steps', hsteps', hprint', parsed_wellFormed.2 _ _ _ hsteps'⟩⟩

end MarkupTree.Path

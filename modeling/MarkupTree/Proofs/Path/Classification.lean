import MarkupTree.Proofs.Path.Enclosing

/-!
# What operands stand for

An operand without quotation marks stands for a path where its text has one of four forms, and for
its text otherwise. Readers try numbers and paths before a bare text, and look at the form of a path
only, so the form decides alone as long as every text that has one of the forms is a path. A text
that has one and is no path is left to the reader of bare texts, and is a literal.
-/

set_option autoImplicit false

namespace MarkupTree.Path

mutual

/-- The operands of the comparisons in the conditions of some steps, at any depth, from left to
right. -/
def stepsOperands : List Step → List Operand
  | [] => []
  | ⟨_, _, _, predicates⟩ :: rest => predicatesOperands predicates ++ stepsOperands rest

def predicatesOperands : List Predicate → List Operand
  | [] => []
  | .position _ :: rest => predicatesOperands rest
  | .condition _ test :: rest => conditionOperands test ++ predicatesOperands rest

def conditionOperands : Condition → List Operand
  | .compare lhs _ rhs => operandsWithin lhs ++ operandsWithin rhs
  | .present steps => stepsOperands steps

/-- An operand together with the operands in its conditions. -/
def operandsWithin : Operand → List Operand
  | .path steps => .path steps :: stepsOperands steps
  | .literal text => [.literal text]

end

def Operand.literal? : Operand → Option String
  | .path _ => none
  | .literal text => some text

theorem predicatesOperands_append (ps more : List Predicate) :
    predicatesOperands (ps ++ more) = predicatesOperands ps ++ predicatesOperands more := by
  induction ps with
  | nil => rw [List.nil_append, predicatesOperands, List.nil_append]
  | cons p ps ih =>
    cases p with
    | position => rw [List.cons_append, predicatesOperands, predicatesOperands, ih]
    | condition => rw [List.cons_append, predicatesOperands, predicatesOperands, ih, List.append_assoc]

theorem stepsOperands_eq (found : List Step) :
    stepsOperands found = predicatesOperands (found.flatMap Step.predicates) := by
  induction found with
  | nil => rw [stepsOperands, List.flatMap_nil, predicatesOperands]
  | cons s found ih =>
    obtain ⟨descendant, test, reads, predicates⟩ := s
    rw [stepsOperands, ih, List.flatMap_cons, predicatesOperands_append]

namespace Surface

mutual

/-- The operands of the comparisons in the brackets of some segments, at any depth, as they are
written. -/
def segmentsOperands : List Segment → List Operand
  | [] => []
  | .attribute _ _ :: rest => segmentsOperands rest
  | .self _ :: rest => segmentsOperands rest
  | .step _ _ bs :: rest => bracketsOperands bs ++ segmentsOperands rest

def bracketsOperands : List Bracket → List Operand
  | [] => []
  | .position _ :: rest => bracketsOperands rest
  | .condition written :: rest => conditionOperands written ++ bracketsOperands rest

def conditionOperands : Condition → List Operand
  | .single _ operand =>
    match operand with
    | .path _ segs => segmentsOperands segs
    | _ => []
  | .comparison _ lhs _ rhs => operandsWithin lhs ++ operandsWithin rhs

/-- An operand together with the operands in it, unless it is a text for all its brackets. -/
def operandsWithin : Operand → List Operand
  | .quoted source content => [.quoted source content]
  | .number source => [.number source]
  | .bare source => [.bare source]
  | .path source segs =>
    .path source segs :: if isPathText source then segmentsOperands segs else []

end

theorem bracketsOperands_append (bs more : List Bracket) :
    bracketsOperands (bs ++ more) = bracketsOperands bs ++ bracketsOperands more := by
  induction bs with
  | nil => rw [List.nil_append, bracketsOperands, List.nil_append]
  | cons b bs ih =>
    cases b with
    | position => rw [List.cons_append, bracketsOperands, bracketsOperands, ih]
    | condition => rw [List.cons_append, bracketsOperands, bracketsOperands, ih, List.append_assoc]

theorem segmentsOperands_eq (segs : List Segment) :
    segmentsOperands segs = bracketsOperands (segs.flatMap Segment.brackets) := by
  induction segs with
  | nil => rw [segmentsOperands, List.flatMap_nil, bracketsOperands]
  | cons seg segs ih =>
    rw [List.flatMap_cons, bracketsOperands_append, ← ih]
    rcases seg with ⟨_, _⟩ | _ | ⟨_, _, _⟩
    · rw [segmentsOperands, Segment.brackets, bracketsOperands, List.nil_append]
    · rw [segmentsOperands, Segment.brackets, bracketsOperands, List.nil_append]
    · rw [segmentsOperands, Segment.brackets]

/-- Whether the text, without blanks around it, is a dot, starts with a dot and a slash, has an at
sign or ends in the test for texts. -/
def hasPathForm (source : String) : Bool := isPathText (Text.trimmed source)

/-- Whether the text has the form of a path and is one. -/
def isPath (source : String) : Bool :=
  hasPathForm source && (ofRelative? source.toList).isSome

/-- The text of an operand without quotation marks. -/
def Operand.unquoted? : Operand → Option String
  | .quoted _ _ => none
  | .number source | .path source _ | .bare source => some source

/-- A quoted text stands for its content. Another one stands for the path it is, where `asPath` holds
of it, and for itself without blanks around it, where `asPath` does not. -/
inductive Operand.StandsFor (asPath : String → Bool) : Operand → Path.Operand → Prop
  | content {source content : String} :
    StandsFor asPath (.quoted source content) (.literal content)
  | path {x : Operand} {source : String} {steps : List Step} (hx : x.unquoted? = some source)
    (hpath : asPath source = true) (hparse : ∀ path, parseRelative source path = .ok steps) :
    StandsFor asPath x (.path steps)
  | text {x : Operand} {source : String} (hx : x.unquoted? = some source)
    (hpath : asPath source = false) : StandsFor asPath x (.literal (Text.trimmed source))

theorem Operand.StandsFor.exists_path {asPath : String → Bool} {x : Operand} {source : String}
    {meant : Path.Operand} (h : x.StandsFor asPath meant) (hx : x.unquoted? = some source)
    (hpath : asPath source = true) : ∃ steps, meant = .path steps := by
  cases h with
  | content => cases hx
  | path => exact ⟨_, rfl⟩
  | text hx' hself =>
    cases hx.symm.trans hx'
    rw [hpath] at hself
    cases hself

/-- An unquoted text of the form of a path is a path. -/
def Operand.WellFormed (x : Operand) : Prop :=
  ∀ source ∈ x.unquoted?, hasPathForm source = true → (ofRelative? source.toList).isSome = true

/-- If being a path decides what an operand stands for, its form decides it exactly where it is well
formed. -/
theorem Operand.StandsFor.hasPathForm_iff {x : Operand} {meant : Path.Operand}
    (h : x.StandsFor isPath meant) : x.StandsFor hasPathForm meant ↔ x.WellFormed := by
  cases h with
  | content => exact iff_of_true .content nofun
  | @path _ source _ hx hpath hparse =>
    rw [isPath, Bool.and_eq_true] at hpath
    refine iff_of_true (.path hx hpath.1 hparse) ?_
    intro source' hx'
    cases hx.symm.trans hx'
    exact fun _ => hpath.2
  | @text _ source hx hpath =>
    constructor
    · intro hstands source' hx' hform
      obtain ⟨_, hliteral⟩ := hstands.exists_path hx' hform
      cases hliteral
    · intro hwell
      apply StandsFor.text hx
      rw [Bool.eq_false_iff]
      intro hform
      rw [isPath, hform, hwell source hx hform] at hpath
      cases hpath

section Operands

variable {w v : List Char}

theorem breaks_of_endsOperand (h : endsOperand v = true) : Breaks v ∧ v.head? ≠ some '/' := by
  rw [endsOperand, Bool.or_eq_true] at h
  rcases h with h | h
  · exact breaks_of_stops h
  · exact breaks_of_gap (List.dropWhile_eq_nil_iff.mp (List.isEmpty_iff.mp h))

theorem hasPathForm_of_isNameChar (hw : ∀ c ∈ w, isNameChar c = true) (hdot : w ≠ ['.']) :
    hasPathForm (String.ofList w) = false := by
  have hink : ∀ c ∈ w, Text.isBlank c = false := fun c hc => not_isBlank_of_isNameChar (hw c hc)
  have htrim : Text.trim w = w :=
    trim_eq_self (fun c hc => hink c (List.mem_of_head? hc)) (endsInk_of_forall hink)
  rw [hasPathForm, Text.trimmed, String.toList_ofList, htrim, Bool.eq_false_iff]
  intro hform
  simp only [isPathText, String.toList_ofList, Bool.or_eq_true, beq_iff_eq,
    List.isPrefixOf_iff_prefix, List.contains_iff_mem, List.isSuffixOf_iff_suffix] at hform
  rcases hform with ((hform | hform) | hform) | hform
  · exact hdot (String.ofList_injective hform)
  · cases hw '/' (hform.subset (by decide))
  · cases hw '@' hform
  · cases hw '(' (hform.subset (by decide))

theorem hasPathForm_of_number {x : Operand} (hv : EndsName v)
    (h : number (w ++ v) = some (x, v)) :
    x = .number (String.ofList w) ∧ hasPathForm (String.ofList w) = false := by
  refine ⟨?_, hasPathForm_of_isNameChar (isNameChar_of_number ⟨v, h⟩) ?_⟩
  · rw [(number_eq_some h).1, taken_append]
  · rintro rfl
    rw [number_append hv] at h
    cases h

theorem ofRelative?_of_path {d : Nat} {segs : List Segment} (hv : Breaks v)
    (h : segments (condition d) (w ++ v) = some (segs, v)) :
    ofRelative? w = some segs ∧ Text.trimmed (String.ofList w) = String.ofList w := by
  have hc := condition_consumes d
  have hc' := condition_consumes (w.length + 1)
  have hlocal := condition_local d (w.length + 1)
  have hne : w ≠ [] := (segments_consumes hc h).ne_nil_of_append
  constructor
  · have hread := segments_local hc hc' hlocal (Nat.le_succ _) hv breaks_nil nofun h
    rw [List.append_nil] at hread
    rw [ofRelative?, if_neg (by simpa using hne)]
    exact whole_eq_some.mpr hread
  · rw [Text.trimmed, String.toList_ofList, (inked_of_segments hc ⟨v, h⟩).trim_eq]

theorem ofRelative?_of_bare {c : Parser Condition} (hc : Consumes c) (hw : w ≠ [])
    (hmarks : '[' ∉ w) (hends : endsOperand v = true) (h : ending (path c) (w ++ v) = none) :
    ofRelative? w = none := by
  obtain ⟨hbreaks, hslash⟩ := breaks_of_endsOperand hends
  rw [ofRelative?, if_neg (by simpa using hw), Option.eq_none_iff_forall_ne_some]
  intro segs hsegs
  have hread : path (conditionOf w) w = some (.path (taken w []) segs, []) :=
    path_eq_some.mpr ⟨segs, whole_eq_some.mp hsegs, rfl⟩
  have hpath := path_append_of_bracketless hbreaks c _ hc (conditionOf_consumes w) hslash hmarks
  rw [hread] at hpath
  rw [ending, hpath] at h
  simp [followed, hends] at h

end Operands

/-- The written operands, one by one, stand for these ones. -/
def StandFor (xs : List Operand) (meanings : List Path.Operand) : Prop :=
  List.Forall₂ (Operand.StandsFor isPath) xs meanings

theorem StandFor.append {xs more : List Operand} {meanings after : List Path.Operand}
    (h : StandFor xs meanings) (hmore : StandFor more after) :
    StandFor (xs ++ more) (meanings ++ after) :=
  List.rel_append h hmore

/-- Whatever the condition means, its operands stand for those of the meaning. -/
def Condition.Resolves (written : Condition) : Prop :=
  ∀ source test, resolveCondition written = .ok (source, test) →
    StandFor (conditionOperands written) (Path.conditionOperands test)

def Bracket.Resolves : Bracket → Prop
  | .position _ => True
  | .condition written => written.Resolves

theorem standFor_predicates {positioned : Bool} {bs : List Bracket} {ps : List Predicate}
    (hbs : ∀ b ∈ bs, b.Resolves) (h : predicates positioned bs = .ok ps) :
    StandFor (bracketsOperands bs) (predicatesOperands ps) := by
  induction bs generalizing positioned ps with
  | nil =>
    rw [predicates] at h
    cases h
    rw [bracketsOperands, predicatesOperands]
    exact .nil
  | cons b bs ih =>
    rw [List.forall_mem_cons] at hbs
    cases b with
    | position digits =>
      obtain ⟨-, -, more, hmore, rfl⟩ := predicates_position.mp h
      rw [bracketsOperands, predicatesOperands]
      exact ih hbs.2 hmore
    | condition written =>
      rw [predicates] at h
      obtain ⟨⟨source, test⟩, htest, h⟩ := bind_eq_ok_iff.mp h
      obtain ⟨more, hmore, h⟩ := bind_eq_ok_iff.mp h
      cases h
      rw [bracketsOperands, predicatesOperands]
      exact (hbs.1 source test htest).append (ih hbs.2 hmore)

theorem standFor_steps {segs : List Segment} {found : List Step}
    (hsegs : ∀ seg ∈ segs, ∀ b ∈ seg.brackets, b.Resolves)
    (h : steps none false segs = .ok found) :
    StandFor (segmentsOperands segs) (stepsOperands (orSelf found)) := by
  obtain ⟨pss, hpss, hflat⟩ := predicates_of_steps h
  have horSelf : stepsOperands (orSelf found) = stepsOperands found := by
    cases found with
    | nil => simp [orSelf, Step.self, stepsOperands, predicatesOperands]
    | cons s rest => rfl
  rw [Option.toList_none, List.flatMap_nil, List.nil_append] at hflat
  rw [horSelf, stepsOperands_eq, hflat, segmentsOperands_eq]
  clear h hflat horSelf
  induction hpss with
  | nil =>
    rw [List.flatMap_nil, List.flatten_nil, bracketsOperands, predicatesOperands]
    exact .nil
  | cons hps _ ih =>
    rw [List.forall_mem_cons] at hsegs
    rw [List.flatMap_cons, List.flatten_cons, bracketsOperands_append, predicatesOperands_append]
    exact (standFor_predicates hsegs.1 hps).append (ih hsegs.2)

section

variable {d : Nat} (ih : ∀ cs written rest, condition d cs = some (written, rest) →
  endsOperand rest = true → written.Resolves)

include ih

theorem segment_resolves {descendant : Bool} {cs rest : List Char} {seg : Segment}
    (h : segment (condition d) descendant cs = some (seg, rest)) :
    ∀ b ∈ seg.brackets, b.Resolves := by
  refine forall_mem_brackets ?_ h
  intro cs b rest hb
  obtain ⟨inner, mid, -, hmid, ⟨_, -, rfl⟩ | ⟨-, written, hwritten, rfl⟩⟩ := bracket_eq_some.mp hb
  · exact True.intro
  · exact ih _ _ _ hwritten (endsOperand_of_stops (stops_of_closes (closes_of_skipGap hmid)))

theorem path_resolves {w v : List Char} {segs : List Segment} {meant : Path.Operand}
    (h : segments (condition d) (w ++ v) = some (segs, v)) (hv : Breaks v)
    (hx : resolveOperand (.path (String.ofList w) segs) = .ok meant) :
    StandFor (operandsWithin (.path (String.ofList w) segs)) (Path.operandsWithin meant) := by
  obtain ⟨hrelative, htrim⟩ := ofRelative?_of_path hv h
  have hpath : isPath (String.ofList w) = isPathText (String.ofList w) := by
    rw [isPath, hasPathForm, htrim, String.toList_ofList, hrelative, Option.isSome_some,
      Bool.and_true]
  rw [resolveOperand] at hx
  rw [operandsWithin]
  split at hx
  · next hform =>
    obtain ⟨found, hfound, hx⟩ := bind_eq_ok_iff.mp hx
    cases hx
    rw [if_pos hform, Path.operandsWithin]
    have hparse : ∀ path, parseRelative (String.ofList w) path = .ok (orSelf found) := by
      intro path
      apply parseRelative_eq_ok.mpr
      exact ⟨segs, found, by rw [htrim, String.toList_ofList, hrelative], hfound, rfl⟩
    have hsegs := forall_mem_segments (fun _ _ _ _ => segment_resolves ih) h
    exact .cons (.path rfl (hpath.trans hform) hparse) (standFor_steps hsegs hfound)
  · next hform =>
    cases hx
    rw [if_neg hform, Path.operandsWithin]
    exact .cons (.text rfl (hpath.trans (Bool.eq_false_iff.mpr hform))) .nil

theorem operand_resolves {w v : List Char} {x : Operand} {meant : Path.Operand}
    (h : operand (condition d) (w ++ v) = some (x, v)) (hends : endsOperand v = true)
    (hx : resolveOperand x = .ok meant) :
    StandFor (operandsWithin x) (Path.operandsWithin meant) := by
  have hc := condition_consumes d
  obtain ⟨hbreaks, -⟩ := breaks_of_endsOperand hends
  rcases operand_eq_some.mp h with h | ⟨-, h | ⟨-, h | ⟨hpath, h⟩⟩⟩
  · obtain ⟨q, content, -, -, -, rfl⟩ := quoted_eq_some.mp (ending_eq_some.mp h).1
    cases hx
    rw [operandsWithin, Path.operandsWithin]
    exact .cons .content .nil
  · obtain ⟨rfl, hform⟩ := hasPathForm_of_number hbreaks.1 (ending_eq_some.mp h).1
    cases hx
    rw [operandsWithin, Path.operandsWithin]
    exact .cons (.text rfl (by rw [isPath, hform, Bool.false_and])) .nil
  · obtain ⟨segs, hsegs, rfl⟩ := path_eq_some.mp (ending_eq_some.mp h).1
    rw [taken_append] at hx ⊢
    exact path_resolves ih hsegs hbreaks hx
  · obtain ⟨hne, hrun, rfl⟩ := bare_append_eq_some.mp h
    have hmarks : '[' ∉ w := fun hmem => not_mem_of_bareRun hrun '[' hmem List.mem_cons_self
    have hself : isPath (String.ofList w) = false := by
      rw [isPath, String.toList_ofList, ofRelative?_of_bare hc hne hmarks hends hpath,
        Option.isSome_none, Bool.and_false]
    cases hx
    rw [operandsWithin, Path.operandsWithin]
    exact .cons (.text rfl hself) .nil

end

theorem condition_resolves (d : Nat) : ∀ cs written rest,
    condition d cs = some (written, rest) → endsOperand rest = true → written.Resolves := by
  induction d with
  | zero => nofun
  | succ d ih =>
    intro cs written rest h hends source test htest
    have hc := condition_consumes d
    obtain ⟨k, -, rfl⟩ := (condition_consumes _ h).exists_taken
    obtain ⟨lhs, l, m, rfl, -, hlhs, ⟨op, rhs, hcmp, rfl⟩ | ⟨rfl, -, rfl⟩⟩ := text_of_condition h
    · obtain ⟨front, r, rfl, -, -, hrhs⟩ := (comparand_iff hc).mp hcmp
      rw [resolveCondition] at htest
      obtain ⟨left, hleft, htest⟩ := bind_eq_ok_iff.mp htest
      obtain ⟨right, hright, htest⟩ := bind_eq_ok_iff.mp htest
      cases htest
      rw [conditionOperands, Path.conditionOperands]
      have hstops := endsOperand_of_stops (stops_of_comparand hcmp)
      exact (operand_resolves ih hlhs hstops hleft).append (operand_resolves ih hrhs hends hright)
    · cases lhs with
      | path source segs =>
        rw [resolveCondition] at htest
        obtain ⟨found, hfound, htest⟩ := bind_eq_ok_iff.mp htest
        cases htest
        rw [conditionOperands, Path.conditionOperands]
        have hsegs := forall_mem_segments (fun _ _ _ _ => segment_resolves ih)
          (segments_of_operand hlhs)
        exact standFor_steps hsegs hfound
      | quoted | number | bare => cases htest

theorem brackets_resolve (n : Nat) (descendant : Bool) (cs : List Char) (seg : Segment)
    (rest : List Char) (h : segment (condition n) descendant cs = some (seg, rest)) :
    ∀ b ∈ seg.brackets, b.Resolves :=
  segment_resolves (condition_resolves n) h

/-- What operands stand for, and where their forms decide it. -/
structure Resolved (xs : List Operand) (meanings : List Path.Operand) : Prop where
  by_path : List.Forall₂ (Operand.StandsFor isPath) xs meanings
  by_form : List.Forall₂ (Operand.StandsFor hasPathForm) xs meanings ↔ ∀ x ∈ xs, x.WellFormed

theorem StandFor.resolved {xs : List Operand} {meanings : List Path.Operand}
    (h : StandFor xs meanings) : Resolved xs meanings := by
  refine ⟨h, ?_⟩
  induction h with
  | nil => simp
  | cons hx _ ih => rw [List.forall₂_cons, List.forall_mem_cons, ih, hx.hasPathForm_iff]

end Surface

open Surface

/-- Each operand of a comparison stands for what it is written as: a quoted text for its content,
another one for the path it is if it has the form of a path, and for itself otherwise. So the form
of its text decides exactly where all texts of the form of a path are paths. -/
theorem operands_resolved (text path : String) :
    (∀ source test, parseCondition text path = .ok (source, test) →
      ∃ written, ofCondition? text.toList = some written ∧
        Resolved (Surface.conditionOperands written) (conditionOperands test)) ∧
    (∀ steps, parse text = .ok steps →
      ∃ segs, ofPath? text.toList = some segs ∧
        Resolved (segmentsOperands segs) (stepsOperands steps)) ∧
    ∀ steps, parseRelative text path = .ok steps →
      ∃ segs, ofRelative? (Text.trimmed text).toList = some segs ∧
        Resolved (segmentsOperands segs) (stepsOperands steps) := by
  refine ⟨?_, ?_, ?_⟩
  · intro source test h
    obtain ⟨written, hwritten, hresolve⟩ := parseCondition_eq_ok.mp h
    obtain ⟨d, g, k, u, -, -, hu, -, hread⟩ := ofCondition?_eq_some hwritten
    have hends : endsOperand u = true := by
      rw [endsOperand, skipGap_eq_nil hu, List.isEmpty_nil, Bool.or_true]
    exact ⟨written, hwritten, (condition_resolves d _ _ _ hread hends _ _ hresolve).resolved⟩
  · intro steps h
    obtain ⟨segs, hsegs, hsteps, hne⟩ := parse_eq_ok.mp h
    have hall := standFor_steps (forall_mem_ofPath? brackets_resolve hsegs) hsteps
    rw [orSelf, if_neg (by simpa using hne)] at hall
    exact ⟨segs, hsegs, hall.resolved⟩
  · intro steps h
    obtain ⟨segs, found, hsegs, hsteps, rfl⟩ := parseRelative_eq_ok.mp h
    exact ⟨segs, hsegs,
      (standFor_steps (forall_mem_ofRelative? brackets_resolve hsegs) hsteps).resolved⟩

/-- A path with a comparison in it, a quoted path, a number, a bare text and a dot. -/
theorem operands_resolved_nested :
    (∃ written source test, parseCondition "@a = x y" "/" = .ok (source, test) ∧
      ofCondition? "@a = x y".toList = some written ∧
      Resolved (Surface.conditionOperands written) (conditionOperands test)) ∧
    (∃ segs steps, parse "/a[./b[@c > .5]/@d = '@e']" = .ok steps ∧
      ofPath? "/a[./b[@c > .5]/@d = '@e']".toList = some segs ∧
      (segmentsOperands segs).map Surface.Operand.unquoted? =
        [some "./b[@c > .5]/@d", some "@c", some ".5", none] ∧
      (stepsOperands steps).map Operand.literal? = [none, none, some ".5", some "@e"] ∧
      Resolved (segmentsOperands segs) (stepsOperands steps)) ∧
    ∃ segs steps, parseRelative " a[. != b] " "/" = .ok steps ∧
      ofRelative? (Text.trimmed " a[. != b] ").toList = some segs ∧
      Resolved (segmentsOperands segs) (stepsOperands steps) := by
  have hcondition : (parseCondition "@a = x y" "/").toOption.isSome = true := by decide +kernel
  have hpath : (parse "/a[./b[@c > .5]/@d = '@e']").toOption.map
      (fun steps => (stepsOperands steps).map Operand.literal?) =
        some [none, none, some ".5", some "@e"] := by
    decide +kernel
  have hwritten : (ofPath? "/a[./b[@c > .5]/@d = '@e']".toList).map
      (fun segs => (segmentsOperands segs).map Surface.Operand.unquoted?) =
        some [some "./b[@c > .5]/@d", some "@c", some ".5", none] := by
    decide +kernel
  have hrelative : (parseRelative " a[. != b] " "/").toOption.isSome = true := by decide +kernel
  obtain ⟨⟨source, test⟩, hcondition⟩ := Option.isSome_iff_exists.mp hcondition
  obtain ⟨steps, hsteps, hmeant⟩ := Option.map_eq_some_iff.mp hpath
  obtain ⟨steps', hrelative⟩ := Option.isSome_iff_exists.mp hrelative
  rw [toOption_eq_some_iff] at hcondition hsteps hrelative
  obtain ⟨written, hof, hresolved⟩ := (operands_resolved _ _).1 _ _ hcondition
  obtain ⟨segs, hsegs, hresolved'⟩ := (operands_resolved _ "/").2.1 _ hsteps
  obtain ⟨segs', hsegs', hresolved''⟩ := (operands_resolved _ _).2.2 _ hrelative
  rw [hsegs] at hwritten
  exact ⟨⟨written, source, test, hcondition, hof, hresolved⟩,
    ⟨segs, steps, hsteps, hsegs, Option.some.inj hwritten, hmeant, hresolved'⟩,
    ⟨segs', steps', hrelative, hsegs', hresolved''⟩⟩

/-- A dot and a slash alone have the form of a path and are none, and are read as a literal. -/
theorem malformed_operand_is_literal :
    ∃ segs steps, ofPath? "/a[@b=./]".toList = some segs ∧ parse "/a[@b=./]" = .ok steps ∧
      (segmentsOperands segs).map Surface.Operand.unquoted? = [some "@b", some "./"] ∧
      hasPathForm "./" = true ∧
      (stepsOperands steps).map Operand.literal? = [none, some "./"] ∧
      ¬ List.Forall₂ (Surface.Operand.StandsFor hasPathForm) (segmentsOperands segs)
        (stepsOperands steps) := by
  have hwritten : (ofPath? "/a[@b=./]".toList).map
      (fun segs => (segmentsOperands segs).map Surface.Operand.unquoted?) =
        some [some "@b", some "./"] := by
    decide +kernel
  have hread : (parse "/a[@b=./]").toOption.map
      (fun steps => (stepsOperands steps).map Operand.literal?) = some [none, some "./"] := by
    decide +kernel
  have hform : hasPathForm "./" = true := by decide +kernel
  obtain ⟨segs, hsegs, hunquoted⟩ := Option.map_eq_some_iff.mp hwritten
  obtain ⟨steps, hsteps, hliteral⟩ := Option.map_eq_some_iff.mp hread
  rw [toOption_eq_some_iff] at hsteps
  refine ⟨segs, steps, hsegs, hsteps, hunquoted, hform, hliteral, ?_⟩
  intro h
  generalize segmentsOperands segs = xs at hunquoted h
  generalize stepsOperands steps = meanings at hliteral h
  obtain ⟨x, _, rfl, -, hunquoted⟩ := List.map_eq_cons_iff.mp hunquoted
  obtain ⟨y, _, rfl, hy, -⟩ := List.map_eq_cons_iff.mp hunquoted
  obtain ⟨_, _, rfl, -, hliteral⟩ := List.map_eq_cons_iff.mp hliteral
  obtain ⟨meant, _, rfl, hmeant, -⟩ := List.map_eq_cons_iff.mp hliteral
  obtain ⟨-, hstands, -⟩ := List.forall₂_cons.mp h |>.imp_right List.forall₂_cons.mp
  obtain ⟨inner, rfl⟩ := hstands.exists_path hy hform
  cases hmeant

end MarkupTree.Path

import MarkupTree.Proofs.Path.Concatenation
import MarkupTree.Proofs.Query.Selection

/-!
# The steps of paths written one after the other

Segments are folded into steps with some memory: the last step, which an attribute may still join,
and an unused double slash. After a segment that is a step the memory holds nothing but that step.
So the steps of two paths are those of the first and then those of the second, unless the second
only reads an attribute of its context, which then joins the last step of the first.
-/

set_option autoImplicit false

open MarkupTree.Path

namespace MarkupTree.Path

/-- A step and the steps after it; a bare reading of an attribute joins the step. -/
def graft (s : Step) : List Step → List Step
  | [⟨false, .context, some key, []⟩] => [{ s with reads := some key }]
  | rest => s :: rest

theorem graft_of_test {s' : Step} (h : s'.test ≠ .context) (s : Step) (after : List Step) :
    graft s (s' :: after) = s :: s' :: after := by
  unfold graft
  split
  · next heq =>
    cases heq
    exact absurd rfl h
  · rfl

/-- The steps of a path that reads an attribute of its context and nothing else, or that looks below
its context from the start. -/
def StartsBelow (steps : List Step) : Prop :=
  (∃ key, steps = [⟨false, .context, some key, []⟩]) ∨ Walk.startsAtContext steps = false

namespace Surface

/-- No written segment tests for the context. -/
def Segment.Written : Segment → Prop
  | .step _ test _ => test ≠ .context
  | _ => True

/-- A segment that is neither an attribute nor a dot. -/
def Segment.isStep : Segment → Bool
  | .attribute _ _ => false
  | .self _ => false
  | .step _ _ _ => true

theorem Segment.exists_of_isStep {seg : Segment} (h : seg.isStep = true) :
    ∃ d test brackets, seg = .step d test brackets := by
  rcases seg with ⟨d, name⟩ | d | ⟨d, test, brackets⟩
  · cases h
  · cases h
  · exact ⟨d, test, brackets, rfl⟩

theorem segment_written {c : Parser Condition} {d : Bool} {cs rest : List Char} {seg : Segment}
    (h : segment c d cs = some (seg, rest)) : seg.Written := by
  rcases segment_eq_some.mp h with ⟨_, _, -, -, rfl⟩ | ⟨-, -, rfl⟩ | ⟨-, -, h⟩
  · trivial
  · trivial
  · obtain ⟨test, after, htest, rfl, -⟩ := named_eq_some.mp h
    exact nameTest_ne_context htest

theorem ofPath?_written {cs : List Char} {segs : List Segment} (h : ofPath? cs = some segs) :
    ∀ seg ∈ segs, seg.Written :=
  forall_mem_ofPath? (fun _ _ _ _ _ => segment_written) h

section Steps

variable {last : Option Step} {descendant : Bool} {rest : List Segment} {found : List Step}

theorem bind_append (front : List Step) (x : Except Reason (List Step)) :
    (x >>= fun found => .ok (front ++ found)) = x.map (front ++ ·) := by
  cases x <;> rfl

theorem map_append_map (front mid : List Step) (x : Except Reason (List Step)) :
    (x.map (mid ++ ·)).map (front ++ ·) = x.map (front ++ mid ++ ·) := by
  cases x with
  | error => rfl
  | ok found => exact congrArg Except.ok (List.append_assoc _ _ _).symm

theorem steps_nil : steps last descendant [] = .ok last.toList := by
  rw [steps]

theorem steps_after_read {seg : Segment} (h : last.any (·.reads.isSome) = true) :
    steps last descendant (seg :: rest) = .error .attributeNotLast := by
  rw [steps.eq_def]
  simp [h]

theorem steps_self (d : Bool) (h : last.any (·.reads.isSome) = false) :
    steps last descendant (.self d :: rest) = steps last (descendant || d) rest := by
  rw [steps.eq_def]
  simp [h]

theorem steps_attribute_joins {s : Step} {d : Bool} (name : String)
    (h : s.reads = none) (hd : (descendant || d) = false) :
    steps (some s) descendant (.attribute d name :: rest) =
      steps (some { s with reads := some name }) false rest := by
  rw [steps.eq_def]
  simp [h, hd]

theorem steps_attribute_alone {d : Bool} (name : String)
    (h : last.any (·.reads.isSome) = false) (hd : last = none ∨ (descendant || d) = true) :
    steps last descendant (.attribute d name :: rest) =
      (steps (some (attributeStep (descendant || d) name)) false rest).map
        (last.toList ++ ·) := by
  rw [steps.eq_def]
  simp only [h, Bool.false_eq_true, if_false]
  cases last with
  | none => exact bind_append _ _
  | some s =>
    rw [hd.resolve_left nofun]
    exact bind_append _ _

theorem steps_step {d : Bool} (test : NameTest) (brackets : List Bracket)
    (h : last.any (·.reads.isSome) = false) :
    steps last descendant (.step d test brackets :: rest) =
      predicates false brackets >>= fun ps =>
        (steps (some ⟨descendant || d, test, none, ps⟩) false rest).map (last.toList ++ ·) := by
  rw [steps.eq_def]
  simp only [h, Bool.false_eq_true, if_false]
  cases predicates false brackets with
  | error => rfl
  | ok ps => exact bind_append _ _

theorem steps_of_reads {s : Step} (hs : s.reads.isSome)
    (h : steps (some s) descendant rest = .ok found) : rest = [] := by
  cases rest with
  | nil => rfl
  | cons seg rest =>
    rw [steps_after_read (show (some s).any (·.reads.isSome) = true from hs)] at h
    cases h

theorem steps_head {s : Step} (h : steps (some s) descendant rest = .ok found) :
    ∃ s' more, found = s' :: more ∧ s'.test = s.test := by
  induction rest generalizing s descendant with
  | nil =>
    rw [steps_nil] at h
    cases h
    exact ⟨s, [], rfl, rfl⟩
  | cons seg rest ih =>
    cases hreads : (some s).any (·.reads.isSome) with
    | true =>
      rw [steps_after_read hreads] at h
      cases h
    | false =>
      rcases seg with ⟨d, name⟩ | d | ⟨d, test, brackets⟩
      · cases hd : descendant || d with
        | false =>
          rw [steps_attribute_joins name (by simpa using hreads) hd] at h
          obtain ⟨s', more, rfl, htest⟩ := ih h
          exact ⟨s', more, rfl, htest⟩
        | true =>
          rw [steps_attribute_alone name hreads (.inr hd)] at h
          obtain ⟨more, -, rfl⟩ := map_eq_ok_iff.mp h
          exact ⟨s, more, rfl, rfl⟩
      · rw [steps_self d hreads] at h
        exact ih h
      · rw [steps_step test brackets hreads] at h
        obtain ⟨ps, -, h⟩ := bind_eq_ok_iff.mp h
        obtain ⟨more, -, rfl⟩ := map_eq_ok_iff.mp h
        exact ⟨s, more, rfl, rfl⟩

theorem steps_modify_last {f : Step → Step}
    (hf : ∀ s reads, f { s with reads := reads } = { f s with reads := reads }) (s : Step) :
    steps (some (f s)) descendant rest =
      (steps (some s) descendant rest).map (List.modifyHead f) := by
  induction rest generalizing s descendant with
  | nil =>
    rw [steps_nil, steps_nil]
    rfl
  | cons seg rest ih =>
    have hkept : (f s).reads = s.reads := by
      obtain ⟨d, test, reads, ps⟩ := s
      have hsame := hf ⟨d, test, reads, ps⟩ reads
      exact (congrArg Step.reads hsame :)
    have hlead : ∀ x : Except Reason (List Step), x.map ((some (f s)).toList ++ ·) =
        (x.map ((some s).toList ++ ·)).map (List.modifyHead f) := by
      intro x
      cases x <;> rfl
    cases hreads : (some s).any (·.reads.isSome) with
    | true =>
      have hreads' : (some (f s)).any (·.reads.isSome) = true := by simpa [hkept] using hreads
      rw [steps_after_read hreads, steps_after_read hreads']
      rfl
    | false =>
      have hreads' : (some (f s)).any (·.reads.isSome) = false := by simpa [hkept] using hreads
      rcases seg with ⟨d, name⟩ | d | ⟨d, test, brackets⟩
      · cases hd : descendant || d with
        | false =>
          have hs : s.reads = none := by simpa using hreads
          rw [steps_attribute_joins name hs hd, steps_attribute_joins name (hkept.trans hs) hd,
            ← hf]
          exact ih { s with reads := some name }
        | true =>
          rw [steps_attribute_alone name hreads (.inr hd),
            steps_attribute_alone name hreads' (.inr hd)]
          exact hlead _
      · rw [steps_self d hreads, steps_self d hreads']
        exact ih s
      · rw [steps_step test brackets hreads, steps_step test brackets hreads']
        cases predicates false brackets with
        | error => rfl
        | ok ps => exact hlead _

/-- Whether the last of some segments leave a double slash behind that no step has used. -/
def unused (descendant : Bool) : List Segment → Bool
  | [] => descendant
  | .self d :: rest => unused (descendant || d) rest
  | .attribute _ _ :: rest => unused false rest
  | .step _ _ _ :: rest => unused false rest

/-- Segments that are refused are so with anything behind them. After others, what comes next
depends on their last step and on an unused double slash only. -/
theorem steps_prefix (last : Option Step) (descendant : Bool) (segs : List Segment) :
    (∃ reason, ∀ more, steps last descendant (segs ++ more) = .error reason) ∨
      ∃ front last', (last' = none → last = none ∧ front = []) ∧
        ∀ more, steps last descendant (segs ++ more) =
          (steps last' (unused descendant segs) more).map (front ++ ·) := by
  induction segs generalizing last descendant with
  | nil =>
    refine .inr ⟨[], last, fun h => ⟨h, rfl⟩, ?_⟩
    intro more
    rw [List.nil_append, unused]
    cases steps last descendant more <;> rfl
  | cons seg segs ih =>
    -- All steps that come before those of the induction hypothesis come before the others.
    have hlead : ∀ (s : Step) (lead : List Step),
        (∃ reason, ∀ more,
          (steps (some s) false (segs ++ more)).map (lead ++ ·) = .error reason) ∨
        ∃ front last', (last' = none → last = none ∧ front = []) ∧
          ∀ more, (steps (some s) false (segs ++ more)).map (lead ++ ·) =
            (steps last' (unused false segs) more).map (front ++ ·) := by
      intro s lead
      rcases ih (some s) false with ⟨reason, hreason⟩ | ⟨front, last', hlast', hmore⟩
      · refine .inl ⟨reason, ?_⟩
        intro more
        rw [hreason more]
        rfl
      · refine .inr ⟨lead ++ front, last', fun h => absurd (hlast' h).1 (Option.some_ne_none s), ?_⟩
        intro more
        rw [hmore more, map_append_map]
    cases hreads : last.any (·.reads.isSome) with
    | true => exact .inl ⟨.attributeNotLast, fun more => steps_after_read hreads⟩
    | false =>
      rcases seg with ⟨d, name⟩ | d | ⟨d, test, brackets⟩
      · by_cases hd : last = none ∨ (descendant || d) = true
        · simp only [List.cons_append, steps_attribute_alone name hreads hd]
          exact hlead _ _
        · rw [not_or, Bool.not_eq_true] at hd
          obtain ⟨s, rfl⟩ := Option.ne_none_iff_exists'.mp hd.1
          have hs : s.reads = none := by simpa using hreads
          simp only [List.cons_append, steps_attribute_joins name hs hd.2]
          rcases ih (some { s with reads := some name }) false with
            herror | ⟨front, last', hlast', hmore⟩
          · exact .inl herror
          · exact .inr ⟨front, last', fun h => absurd (hlast' h).1 (Option.some_ne_none _), hmore⟩
      · simp only [List.cons_append, steps_self d hreads]
        exact ih last (descendant || d)
      · simp only [List.cons_append, steps_step test brackets hreads]
        cases predicates false brackets with
        | error reason => exact .inl ⟨reason, fun _ => rfl⟩
        | ok ps => exact hlead _ _

theorem steps_append {segs : List Segment} {d : Bool} {test : NameTest} {brackets : List Bracket}
    (h : steps last descendant (segs ++ [.step d test brackets]) = .ok found) :
    ∃ front s, found = front ++ [s] ∧ s.reads = none ∧
      ∀ more, steps last descendant (segs ++ .step d test brackets :: more) =
        (steps (some s) false more).map (front ++ ·) := by
  rcases steps_prefix last descendant segs with ⟨reason, hreason⟩ | ⟨front, last', -, hmore⟩
  · rw [hreason] at h
    cases h
  · cases hreads : last'.any (·.reads.isSome) with
    | true =>
      rw [hmore, steps_after_read hreads] at h
      cases h
    | false =>
      simp only [hmore, steps_step test brackets hreads] at h ⊢
      obtain ⟨_, hsteps, rfl⟩ := map_eq_ok_iff.mp h
      obtain ⟨ps, hps, hsteps⟩ := bind_eq_ok_iff.mp hsteps
      rw [steps_nil] at hsteps
      cases hsteps
      refine ⟨front ++ last'.toList, _, (List.append_assoc _ _ _).symm, rfl, ?_⟩
      intro more
      rw [hps]
      exact map_append_map _ _ _

/-- The step of a segment in the middle: other brackets give it other predicates, and change nothing
else. The steps before it do not depend on what follows. -/
theorem steps_at {segs segs' : List Segment} {d : Bool} {test : NameTest} {brackets : List Bracket}
    (h : steps last descendant (segs ++ .step d test brackets :: segs') = .ok found) :
    ∃ front s after, found = front ++ s :: after ∧ predicates false brackets = .ok s.predicates ∧
      (∀ others, steps last descendant (segs ++ .step d test others :: segs') =
        (predicates false others).map fun ps => front ++ { s with predicates := ps } :: after) ∧
      ∀ others found', steps last descendant (segs ++ [.step d test others]) = .ok found' →
        ∃ s', found' = front ++ [s'] := by
  rcases steps_prefix last descendant segs with ⟨reason, hreason⟩ | ⟨front, last', -, hmore⟩
  · rw [hreason] at h
    cases h
  · cases hreads : last'.any (·.reads.isSome) with
    | true =>
      rw [hmore, steps_after_read hreads] at h
      cases h
    | false =>
      simp only [hmore, steps_step test _ hreads] at h ⊢
      obtain ⟨_, hsteps, rfl⟩ := map_eq_ok_iff.mp h
      obtain ⟨ps, hps, hsteps⟩ := bind_eq_ok_iff.mp hsteps
      obtain ⟨more, hmore', rfl⟩ := map_eq_ok_iff.mp hsteps
      obtain ⟨s, after, rfl⟩ : ∃ s after, more = s :: after := by
        obtain ⟨s, after, hcons, -⟩ := steps_head hmore'
        exact ⟨s, after, hcons⟩
      have hchange : ∀ ps', steps (some ⟨unused descendant segs || d, test, none, ps'⟩) false segs' =
          .ok ({ s with predicates := ps' } :: after) := by
        intro ps'
        have hmodify := @steps_modify_last false segs' (fun s => { s with predicates := ps' })
          (fun _ _ => rfl) ⟨unused descendant segs || d, test, none, ps⟩
        rwa [hmore'] at hmodify
      obtain rfl : ps = s.predicates := by
        have hsame := (hchange ps).symm.trans hmore'
        exact congrArg Step.predicates (List.cons.inj (Except.ok.inj hsame)).1
      refine ⟨front ++ last'.toList, s, after, (List.append_assoc _ _ _).symm, hps, ?_, ?_⟩
      · intro others
        cases predicates false others with
        | error => rfl
        | ok ps' =>
          change Except.map _ (Except.map _ (steps _ _ _)) = _
          rw [hchange, map_append_map]
          rfl
      · intro others found' hfound
        obtain ⟨_, hsteps', rfl⟩ := map_eq_ok_iff.mp hfound
        obtain ⟨ps', -, hsteps'⟩ := bind_eq_ok_iff.mp hsteps'
        rw [steps_nil] at hsteps'
        cases hsteps'
        exact ⟨_, (List.append_assoc _ _ _).symm⟩

theorem steps_graft {s : Step} (hs : s.reads = none) (hwritten : ∀ seg ∈ rest, seg.Written)
    (h : steps none descendant rest = .ok found) :
    steps (some s) descendant rest = .ok (graft s found) ∧ StartsBelow found := by
  have hreads : (some s).any (·.reads.isSome) = false := by simp [hs]
  induction rest generalizing descendant with
  | nil =>
    rw [steps_nil] at h
    cases h
    exact ⟨steps_nil, .inr rfl⟩
  | cons seg rest ih =>
    rw [List.forall_mem_cons] at hwritten
    rcases seg with ⟨d, name⟩ | d | ⟨d, test, brackets⟩
    · rw [steps_attribute_alone name rfl (.inl rfl)] at h
      obtain ⟨more, hmore, rfl⟩ := map_eq_ok_iff.mp h
      obtain rfl := steps_of_reads rfl hmore
      rw [steps_nil] at hmore
      cases hmore
      cases hd : descendant || d with
      | false =>
        rw [steps_attribute_joins name hs hd, steps_nil]
        exact ⟨rfl, .inl ⟨name, rfl⟩⟩
      | true =>
        rw [steps_attribute_alone name hreads (.inr hd), steps_nil, hd]
        exact ⟨rfl, .inr rfl⟩
    · rw [steps_self d rfl] at h
      rw [steps_self d hreads]
      exact ih hwritten.2 h
    · rw [steps_step test brackets rfl] at h
      rw [steps_step test brackets hreads]
      obtain ⟨ps, hps, h⟩ := bind_eq_ok_iff.mp h
      obtain ⟨more, hmore, rfl⟩ := map_eq_ok_iff.mp h
      obtain ⟨s', after, rfl, htest⟩ := steps_head hmore
      have hcontext : s'.test ≠ .context := by
        rw [htest]
        exact hwritten.1
      refine ⟨bind_eq_ok_iff.mpr ⟨ps, hps, map_eq_ok_iff.mpr ⟨_, hmore, ?_⟩⟩, .inr ?_⟩
      · exact (graft_of_test hcontext s after).symm
      · simp [Walk.startsAtContext, hcontext]

theorem predicates_nil {bs : List Bracket} (h : bs = []) : predicates false bs = .ok [] := by
  rw [h, predicates]

theorem predicates_of_steps {segs : List Segment} (h : steps last descendant segs = .ok found) :
    ∃ pss, List.Forall₂ (fun seg ps => predicates false seg.brackets = .ok ps) segs pss ∧
      found.flatMap Step.predicates = last.toList.flatMap Step.predicates ++ pss.flatten := by
  induction segs generalizing last descendant found with
  | nil =>
    rw [steps_nil] at h
    cases h
    exact ⟨[], .nil, by simp⟩
  | cons seg rest ih =>
    cases hreads : last.any (·.reads.isSome) with
    | true =>
      rw [steps_after_read hreads] at h
      cases h
    | false =>
      rcases seg with ⟨d, name⟩ | d | ⟨d, test, brackets⟩
      · by_cases hd : last = none ∨ (descendant || d) = true
        · rw [steps_attribute_alone name hreads hd] at h
          obtain ⟨more, hmore, rfl⟩ := map_eq_ok_iff.mp h
          obtain ⟨pss, hpss, hflat⟩ := ih hmore
          exact ⟨[] :: pss, .cons (predicates_nil rfl) hpss, by simp [hflat, attributeStep]⟩
        · rw [not_or, Bool.not_eq_true] at hd
          obtain ⟨s, rfl⟩ := Option.ne_none_iff_exists'.mp hd.1
          have hs : s.reads = none := by simpa using hreads
          rw [steps_attribute_joins name hs hd.2] at h
          obtain ⟨pss, hpss, hflat⟩ := ih h
          exact ⟨[] :: pss, .cons (predicates_nil rfl) hpss, by simpa using hflat⟩
      · rw [steps_self d hreads] at h
        obtain ⟨pss, hpss, hflat⟩ := ih h
        exact ⟨[] :: pss, .cons (predicates_nil rfl) hpss, by simpa using hflat⟩
      · rw [steps_step test brackets hreads] at h
        obtain ⟨ps, hps, h⟩ := bind_eq_ok_iff.mp h
        obtain ⟨more, hmore, rfl⟩ := map_eq_ok_iff.mp h
        obtain ⟨pss, hpss, hflat⟩ := ih hmore
        exact ⟨ps :: pss, .cons hps hpss, by simp [hflat]⟩

end Steps

end Surface

theorem parse_eq_ok {path : String} {found : List Step} :
    parse path = .ok found ↔
      ∃ segs, Surface.ofPath? path.toList = some segs ∧
        Surface.steps none false segs = .ok found ∧ found ≠ [] := by
  unfold parse
  cases Surface.ofPath? path.toList with
  | none => simp
  | some segs =>
    simp only [Option.some.injEq, exists_eq_left']
    split
    · next h => simp [h]
    · next h => simp [h, eq_comm]
    · next found' hne h =>
      rw [h]
      constructor
      · rintro ⟨⟩
        exact ⟨rfl, hne⟩
      · rintro ⟨⟨⟩, -⟩
        rfl

theorem compile_empty : compile "" = .ok ⟨"", none⟩ := rfl

theorem compile_eq_map {path : String} (hpath : path ≠ "") :
    compile path = (parse path).map fun found => ⟨path, some found⟩ := by
  have hempty : path.isEmpty = false := by simpa using hpath
  simp only [compile, hempty, Bool.false_eq_true, if_false]
  cases parse path <;> rfl

theorem compile_eq_ok {path : String} (hpath : path ≠ "") {p : Compiled} :
    compile path = .ok p ↔ ∃ found, parse path = .ok found ∧ p = ⟨path, some found⟩ := by
  rw [compile_eq_map hpath, map_eq_ok_iff]
  simp only [eq_comm]

theorem startsBelow_of_parse {path : String} {found : List Step} (h : parse path = .ok found) :
    StartsBelow found := by
  obtain ⟨segs, hsegs, hsteps, -⟩ := parse_eq_ok.mp h
  have hself : Step.self.reads = none := rfl
  exact (Surface.steps_graft hself (Surface.ofPath?_written hsegs) hsteps).2

/-- The last segment of a path as it is written. -/
def lastSegment? (path : String) : Option Surface.Segment :=
  (Surface.ofPath? path.toList).bind List.getLast?

theorem lastSegment?_isSome {path : String} (hpath : path ≠ "") {p : Compiled}
    (h : compile path = .ok p) : (lastSegment? path).isSome := by
  obtain ⟨found, hparse, -⟩ := (compile_eq_ok hpath).mp h
  obtain ⟨segs, hsegs, -, -⟩ := parse_eq_ok.mp hparse
  obtain ⟨hne, -⟩ := Surface.ofPath?_eq_some.mp hsegs
  rw [lastSegment?, hsegs, Option.bind_some, List.getLast?_eq_some_getLast hne]
  rfl

theorem compile_append {q r : String} {cq cr : Compiled} (hq : compile q = .ok cq)
    (hr : compile r = .ok cr) (hqne : q ≠ "") (hrne : r ≠ "")
    (hlast : (lastSegment? q).all Surface.Segment.isStep) :
    ∃ front s rest, cq.steps = some (front ++ [s]) ∧ s.reads = none ∧ cr.steps = some rest ∧
      rest ≠ [] ∧ StartsBelow rest ∧
      compile (q ++ r) = .ok ⟨q ++ r, some (front ++ graft s rest)⟩ := by
  obtain ⟨last, hsome⟩ := Option.isSome_iff_exists.mp (lastSegment?_isSome hqne hq)
  rw [hsome, Option.all_some] at hlast
  obtain ⟨d, test, brackets, rfl⟩ := Surface.Segment.exists_of_isStep hlast
  obtain ⟨_, hparse, rfl⟩ := (compile_eq_ok hqne).mp hq
  obtain ⟨rest, hparse', rfl⟩ := (compile_eq_ok hrne).mp hr
  obtain ⟨segs, hsegs, hsteps, -⟩ := parse_eq_ok.mp hparse
  obtain ⟨more, hmore, hrest, hne⟩ := parse_eq_ok.mp hparse'
  rw [lastSegment?, hsegs, Option.bind_some] at hsome
  obtain ⟨segs, rfl⟩ := List.getLast?_eq_some_iff.mp hsome
  obtain ⟨front, s, rfl, hs, happend⟩ := Surface.steps_append hsteps
  obtain ⟨hgraft, hbelow⟩ := Surface.steps_graft hs (Surface.ofPath?_written hmore) hrest
  have hboth := Surface.ofPath?_append hsegs hmore
  refine ⟨front, s, rest, rfl, hs, rfl, hne, hbelow, ?_⟩
  have hqr : q ++ r ≠ "" := by simp [hqne]
  refine (compile_eq_ok hqr).mpr ⟨_, parse_eq_ok.mpr
    ⟨segs ++ [.step d test brackets] ++ more, ?_, ?_, ?_⟩, rfl⟩
  · rw [String.toList_append, hboth]
  · rw [List.append_assoc, List.singleton_append, happend, hgraft]
    rfl
  · unfold graft
    split <;> simp

end MarkupTree.Path

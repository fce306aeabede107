import MarkupTree.Proofs.Path.Folding
import MarkupTree.Proofs.Path.Legible

/-!
# Where one path ends and another begins

The steps of two paths written one after the other are the steps of the one and then those of the
other, if no attribute joins a step across the juncture. One thing passes over it: a double slash
that the first path leaves unused before its last dots is used by the first step of the second.
-/

set_option autoImplicit false

namespace MarkupTree.Path

/-- The step as it is behind a double slash. -/
def Step.descend (s : Step) : Step := { s with descendant := true }

theorem Step.descend_eq_self {s : Step} : s.descend = s ↔ s.descendant = true := by
  obtain ⟨descendant, test, reads, predicates⟩ := s
  simp [descend, eq_comm]

namespace Surface

/-- The segment behind a double slash. -/
def Segment.doubled : Segment → Segment
  | .attribute _ name => .attribute true name
  | .self _ => .self true
  | .step _ test bs => .step true test bs

theorem Segment.doubled_of_isDescendant {seg : Segment} (h : seg.isDescendant = true) :
    seg.doubled = seg := by
  cases seg <;> cases h <;> rfl

theorem Segment.From.doubled {seg : Segment} {w : List Char} (h : seg.From w)
    (hd : seg.isDescendant = false) : seg.doubled.From ('/' :: w) := by
  cases h with
  | ofAttribute d hname =>
    cases hd
    exact .ofAttribute true hname
  | ofSelf d =>
    cases hd
    exact .ofSelf true
  | ofStep d htest hbs =>
    cases hd
    exact .ofStep true htest hbs

theorem Segment.From.exists_single {seg : Segment} {w : List Char} (h : seg.From ('/' :: w))
    (hd : seg.isDescendant = true) :
    ∃ seg' : Segment, seg'.From w ∧ seg'.isDescendant = false ∧ seg = seg'.doubled := by
  cases h with
  | ofAttribute d hname =>
    cases hd
    exact ⟨_, .ofAttribute false hname, rfl, rfl⟩
  | ofSelf d =>
    cases hd
    exact ⟨_, .ofSelf false, rfl, rfl⟩
  | ofStep d htest hbs =>
    cases hd
    exact ⟨_, .ofStep false htest hbs, rfl, rfl⟩

variable {last : Option Step} {descendant : Bool} {segs : List Segment} {found : List Step}

theorem steps_doubled (seg : Segment) (segs : List Segment) :
    steps last descendant (seg.doubled :: segs) = steps last true (seg :: segs) := by
  cases hreads : last.any (·.reads.isSome) with
  | true => rw [steps_after_read hreads, steps_after_read hreads]
  | false =>
    rcases seg with ⟨d, name⟩ | d | ⟨d, test, brackets⟩
    · have hboth : (descendant || true) = true := Bool.or_true descendant
      rw [Segment.doubled, steps_attribute_alone name hreads (.inr hboth),
        steps_attribute_alone name hreads (.inr (Bool.true_or d)), hboth, Bool.true_or]
    · rw [Segment.doubled, steps_self true hreads, steps_self d hreads, Bool.or_true, Bool.true_or]
    · rw [Segment.doubled, steps_step test brackets hreads, steps_step test brackets hreads,
        Bool.or_true, Bool.true_or]

theorem steps_descend (h : steps none descendant segs = .ok found)
    (hfirst : ∀ s ∈ found.head?, s.test ≠ .context) :
    steps none true segs = .ok (found.modifyHead Step.descend) := by
  induction segs generalizing descendant with
  | nil =>
    rw [steps_nil] at h ⊢
    cases h
    rfl
  | cons seg segs ih =>
    rcases seg with ⟨d, name⟩ | d | ⟨d, test, brackets⟩
    · rw [steps_attribute_alone name rfl (.inl rfl)] at h ⊢
      obtain ⟨more, hmore, rfl⟩ := map_eq_ok_iff.mp h
      obtain rfl := steps_of_reads rfl hmore
      rw [steps_nil] at hmore
      cases hmore
      cases hd : descendant || d with
      | false =>
        rw [hd] at hfirst
        exact absurd rfl (hfirst _ rfl)
      | true =>
        rw [Bool.true_or, steps_nil]
        rfl
    · rw [steps_self d rfl] at h ⊢
      rw [Bool.true_or]
      exact ih h
    · rw [steps_step test brackets rfl] at h ⊢
      obtain ⟨ps, hps, h⟩ := bind_eq_ok_iff.mp h
      obtain ⟨more, hmore, rfl⟩ := map_eq_ok_iff.mp h
      have hdescend := @steps_modify_last false segs Step.descend (fun _ _ => rfl)
        ⟨descendant || d, test, none, ps⟩
      rw [hmore] at hdescend
      rw [Bool.true_or]
      exact bind_eq_ok_iff.mpr ⟨ps, hps, map_eq_ok_iff.mpr ⟨_, hdescend, rfl⟩⟩

theorem steps_behind {s : Step} (hs : s.reads = none) (hwritten : ∀ seg ∈ segs, seg.Written)
    (h : steps none false segs = .ok found) (hfirst : ∀ s ∈ found.head?, s.test ≠ .context)
    (unused : Bool) :
    steps (some s) unused segs =
      .ok (s :: if unused then found.modifyHead Step.descend else found) := by
  have hgraft : ∀ {after : List Step}, (∀ s ∈ after.head?, s.test ≠ .context) →
      graft s after = s :: after := by
    intro after hafter
    cases after with
    | nil => rfl
    | cons s' after => exact graft_of_test (hafter s' rfl) s after
  cases unused with
  | false =>
    rw [(steps_graft hs hwritten h).1, hgraft hfirst]
    rfl
  | true =>
    have hfirst' : ∀ s ∈ (found.modifyHead Step.descend).head?, s.test ≠ .context := by
      cases found with
      | nil => nofun
      | cons s' found =>
        rintro _ ⟨⟩
        exact hfirst s' rfl
    rw [(steps_graft hs hwritten (steps_descend h hfirst)).1, hgraft hfirst']
    rfl

end Surface

/-- Whether a path ends in dots behind a double slash that none of its steps has used. -/
def endsOpen (path : String) : Bool :=
  (Surface.ofPath? path.toList).any (Surface.unused false)

/-- The steps of two paths written one after the other, where the first does not end in an attribute
and the second does not start at its context: those of both, except that a double slash at the end
of the first makes the first step of the second a descendant step. -/
theorem parse_append_at_step {p q : String} {found more : List Step} (hp : parse p = .ok found)
    (hq : parse q = .ok more) (hlast : ∀ s ∈ found.getLast?, s.reads = none)
    (hfirst : ∀ s ∈ more.head?, s.test ≠ .context) :
    parse (p ++ q) =
        .ok (found ++ if endsOpen p then more.modifyHead Step.descend else more) ∧
      (parse (p ++ q) = .ok (found ++ more) ↔
        (endsOpen p = true → ∀ s ∈ more.head?, s.descendant = true)) := by
  obtain ⟨segs, hsegs, hsteps, hne⟩ := parse_eq_ok.mp hp
  obtain ⟨segs', hsegs', hsteps', hne'⟩ := parse_eq_ok.mp hq
  have hopen : endsOpen p = Surface.unused false segs := by rw [endsOpen, hsegs, Option.any_some]
  have happend : parse (p ++ q) =
      .ok (found ++ if endsOpen p then more.modifyHead Step.descend else more) := by
    refine parse_eq_ok.mpr ⟨segs ++ segs', ?_, ?_, by simp [hne]⟩
    · rw [String.toList_append]
      exact Surface.ofPath?_append hsegs hsegs'
    · rcases Surface.steps_prefix none false segs with
        ⟨reason, hreason⟩ | ⟨front, last, hnone, hmore⟩
      · have herror := hreason []
        rw [List.append_nil, hsteps] at herror
        cases herror
      · have hfound := hmore []
        rw [List.append_nil, hsteps, Surface.steps_nil] at hfound
        obtain rfl := Except.ok.inj hfound
        cases last with
        | none =>
          obtain rfl := (hnone rfl).2
          exact absurd rfl hne
        | some s =>
          have hs : s.reads = none := hlast s (by simp)
          rw [hmore, hopen,
            Surface.steps_behind hs (Surface.ofPath?_written hsegs') hsteps' hfirst]
          simp [Except.map]
  refine ⟨happend, ?_⟩
  obtain ⟨s, rest, rfl⟩ := List.exists_cons_of_ne_nil hne'
  rw [happend, Except.ok.injEq, List.append_cancel_left_eq]
  cases endsOpen p with
  | false => simp
  | true => simp [Step.descend_eq_self]

/-- An unused double slash before a path that starts with one of its own. -/
theorem parse_append_at_step_open :
    ∃ found more, parse "/a//./." = .ok found ∧ parse "/.//b/@k" = .ok more ∧
      (∀ s ∈ found.getLast?, s.reads = none) ∧ (∀ s ∈ more.head?, s.test ≠ .context) ∧
      endsOpen "/a//./." = true ∧ parse ("/a//./." ++ "/.//b/@k") = .ok (found ++ more) := by
  have hp : parse "/a//./." = .ok [⟨false, .name "a", none, []⟩] := rfl
  have hq : parse "/.//b/@k" = .ok [⟨true, .name "b", some "k", []⟩] := rfl
  have hlast : ∀ s ∈ [(⟨false, .name "a", none, []⟩ : Step)].getLast?, s.reads = none := by simp
  have hfirst : ∀ s ∈ [(⟨true, .name "b", some "k", []⟩ : Step)].head?, s.test ≠ .context := by simp
  refine ⟨_, _, hp, hq, hlast, hfirst, rfl, ?_⟩
  exact (parse_append_at_step hp hq hlast hfirst).2.mpr fun _ => by simp

/-- A double slash that only a dot follows is used by the first step of the path behind it. -/
theorem open_end_reaches_the_next_path :
    ∃ found more, parse "/a//." = .ok found ∧ parse "/b" = .ok more ∧
      (∀ s ∈ found.getLast?, s.reads = none) ∧ (∀ s ∈ more.head?, s.test ≠ .context) ∧
      parse ("/a//." ++ "/b") ≠ .ok (found ++ more) := by
  have hp : parse "/a//." = .ok [⟨false, .name "a", none, []⟩] := rfl
  have hq : parse "/b" = .ok [⟨false, .name "b", none, []⟩] := rfl
  have hboth : parse ("/a//." ++ "/b") =
      .ok [⟨false, .name "a", none, []⟩, ⟨true, .name "b", none, []⟩] := rfl
  refine ⟨_, _, hp, hq, by simp, by simp, ?_⟩
  rw [hboth]
  nofun

end MarkupTree.Path

import MarkupTree.Proofs.Query.DocumentOrder
import MarkupTree.Proofs.Query.Simulation

/-!
# Why a query fails

A path that has been parsed can fail on a tree only because of what the caller declares: at some
element, whose namespace has no name, the path tests for a name. No tree makes a query fail whose
declarations all have qualifiers, among them every qualifier that the path uses.
-/

set_option autoImplicit false

open MarkupTree.Path

namespace MarkupTree

/-- The declarations give the namespace no name: the first declaration of its URI has no qualifier,
or there is none and the name tested for has a qualifier that is not declared either. -/
def UnresolvedName.Misdeclared (e : UnresolvedName) (declared : List Declaration) : Prop :=
  (∃ d, Declaration.forUri? declared e.uri = some d ∧ d.qualifier = none) ∨
    ((∀ d ∈ declared, d.uri ≠ e.uri) ∧
      ∃ q, Name.qualifier? e.name = some q ∧ ∀ d ∈ declared, d.qualifier ≠ some q)

theorem Scope.named_eq_error {s : Scope} {declared : List Declaration} {element name : String}
    {e : UnresolvedName} (h : s.named declared element name = .error e) :
    s.resolve? element = some e.uri ∧ e.name = name ∧ e.Misdeclared declared := by
  unfold named at h
  split at h
  case h_1 => cases h
  case h_2 uri hr =>
    split at h
    case h_1 => cases h
    case h_2 d hd =>
      cases h
      exact ⟨hr, rfl, .inl ⟨_, hd, rfl⟩⟩
    case h_3 hd =>
      have huri : ∀ d ∈ declared, d.uri ≠ uri := by simpa [Declaration.forUri?] using hd
      split at h
      case h_1 => cases h
      case h_2 q hq =>
        split at h
        case isFalse => cases h
        case isTrue hnone =>
          have hqualifier : ∀ d ∈ declared, d.qualifier ≠ some q := by
            simpa [Declaration.forQualifier?] using hnone
          cases h
          exact ⟨hr, rfl, .inr ⟨huri, q, hq, hqualifier⟩⟩

/-- The namespace is that of an element of the tree, and the declarations give it no name. -/
def Tree.Unnamed (t : Tree) (declared : List Declaration) (e : UnresolvedName) : Prop :=
  (∃ n ∈ t.nodes, ∃ element, n.fragment.name? = some element ∧
    n.scope.resolve? element = some e.uri) ∧ e.Misdeclared declared

theorem Tree.children_mem_nodes {t : Tree} {n c : Node} (hn : n ∈ t.nodes) (hc : c ∈ n.children) :
    c ∈ t.nodes := by
  obtain ⟨root⟩ := t
  cases root with
  | none => cases hn
  | some root => exact Node.mem_subtree_trans hn (Node.mem_subtree_of_mem_children hc)

namespace Walk

theorem passes_eq_error {declared : List Declaration} {test : NameTest} {n : Node}
    {e : UnresolvedName} (h : passes declared test n = .error e) :
    ∃ element, test = .name e.name ∧ n.fragment.name? = some element ∧
      n.scope.resolve? element = some e.uri ∧ e.Misdeclared declared := by
  unfold passes at h
  split at h
  case h_5 name element _ _ hf =>
    obtain ⟨hr, rfl, hmis⟩ := Scope.named_eq_error h
    exact ⟨element, rfl, by rw [hf]; rfl, hr, hmis⟩
  all_goals cases h

theorem nodes_simulation (t : Tree) (declared : List Declaration) (p : Compiled) :
    Simulation declared declared (· ∈ p.within)
      (fun e _ => e.name ∈ p.namesTested ∧ t.Unnamed declared e) (fun n m => n = m ∧ n ∈ t.nodes) where
  passes := by
    rintro s n _ hs ⟨rfl, hn⟩
    apply corresponds_self
    intro e he
    obtain ⟨element, htest, hname, hr, hmis⟩ := passes_eq_error he
    exact ⟨Compiled.mem_namesTested.mpr ⟨s, hs, htest⟩, ⟨n, hn, element, hname, hr⟩, hmis⟩
  reads := by
    rintro s n _ key - - ⟨rfl, -⟩
    rfl
  stringValue := by
    rintro n _ ⟨rfl, -⟩
    rfl
  children := by
    rintro n _ ⟨rfl, hn⟩
    apply List.forall₂_same.mpr
    intro c hc
    exact ⟨rfl, t.children_mem_nodes hn hc⟩

end Walk

namespace Path.Compiled

/-- Every declaration has a qualifier, and every qualifier of a name that the path tests for is
declared. -/
def Covered (p : Compiled) (declared : List Declaration) : Prop :=
  (∀ d ∈ declared, d.qualifier.isSome) ∧
    ∀ name ∈ p.namesTested, ∀ q ∈ Name.qualifier? name, ∃ d ∈ declared, d.qualifier = some q

theorem Covered.not_misdeclared {p : Compiled} {declared : List Declaration} {e : UnresolvedName}
    (h : p.Covered declared) (hname : e.name ∈ p.namesTested) : ¬ e.Misdeclared declared := by
  intro hmis
  rcases hmis with ⟨d, hfirst, hnone⟩ | ⟨-, q, hq, hmissing⟩
  · have hd := h.1 d (List.mem_of_find?_eq_some hfirst)
    rw [hnone] at hd
    cases hd
  · obtain ⟨d, hd, hdq⟩ := h.2 e.name hname q hq
    exact hmissing d hd hdq

theorem evaluate_eq_error {p : Compiled} {t : Tree} {declared : List Declaration}
    {e : UnresolvedName} (h : p.evaluate t declared = .error e) :
    e.name ∈ p.namesTested ∧ t.Unnamed declared e := by
  rw [evaluate_eq] at h
  obtain ⟨root⟩ := t
  cases root with
  | none => cases h
  | some root =>
    have hroot : Node.ofRoot root ∈ Tree.nodes ⟨some root⟩ := Node.mem_subtree_self _
    have hfound := (Walk.nodes_simulation ⟨some root⟩ declared p).found (fun _ hs => hs)
      ⟨rfl, hroot⟩
    rcases corresponds_iff.mp hfound with ⟨e', _, hf, -, he'⟩ | ⟨found, _, hf, -, -⟩
    · rw [Tree.ofRoot] at hf
      rw [hf] at h
      cases h
      exact he'
    · rw [Tree.ofRoot] at hf
      rw [hf] at h
      cases h

/-- A query whose declarations cover it succeeds on every tree. Any other query that fails tells a
name that the path tests for and the namespace of an element which the declarations do not name. -/
theorem evaluate_fails_only_undeclared (p : Compiled) (t : Tree) (declared : List Declaration) :
    (p.Covered declared → ∃ results, p.evaluate t declared = .ok results) ∧
      ∀ e, p.evaluate t declared = .error e →
        e.name ∈ p.namesTested ∧
        (∃ n ∈ t.nodes, ∃ element, n.fragment.name? = some element ∧
          n.scope.resolve? element = some e.uri) ∧
        e.Misdeclared declared := by
  constructor
  · intro hcovered
    cases h : p.evaluate t declared with
    | ok results => exact ⟨results, rfl⟩
    | error e =>
      obtain ⟨hname, -, hmis⟩ := evaluate_eq_error h
      exact absurd hmis (hcovered.not_misdeclared hname)
  · intro e h
    exact evaluate_eq_error h

/-- One path fails where a nested condition tests for a name without a declared qualifier, and
where the namespace is declared as the default; with both qualifiers declared it succeeds. -/
theorem evaluate_fails_only_undeclared_nested :
    let element (name : String) (entries : List (String × String)) :=
      Fragment.element name (Dictionary.ofList entries)
    let t := Tree.ofRoot (element "r" [("xmlns", "urn:p")]
      [element "a" [] [element "q:b" [("xmlns:q", "urn:q")] []], element "a" [] []])
    ∃ p : Compiled, compile "//n:a[./m:b]" = .ok p ∧ p.namesTested = ["n:a", "m:b"] ∧
      (∃ results, p.evaluate t [⟨some "n", "urn:p"⟩, ⟨some "m", "urn:q"⟩] = .ok results) ∧
      (UnresolvedName.mk "urn:q" "m:b").Misdeclared [⟨some "n", "urn:p"⟩] ∧
      (UnresolvedName.mk "urn:p" "n:a").Misdeclared [⟨none, "urn:p"⟩] := by
  intro element t
  have hanswer : ((compile "//n:a[./m:b]").toOption.map fun p => (p.namesTested,
      p.evaluate t [⟨some "n", "urn:p"⟩], p.evaluate t [⟨none, "urn:p"⟩])) =
      some (["n:a", "m:b"], .error ⟨"urn:q", "m:b"⟩, .error ⟨"urn:p", "n:a"⟩) := by
    decide +kernel
  obtain ⟨p, hp, hanswer⟩ := Option.map_eq_some_iff.mp hanswer
  rw [Prod.mk.injEq, Prod.mk.injEq] at hanswer
  obtain ⟨hnames, hundeclared, hdefault⟩ := hanswer
  have hcovered : p.Covered [⟨some "n", "urn:p"⟩, ⟨some "m", "urn:q"⟩] := by
    rw [Covered, hnames]
    decide
  exact ⟨p, toOption_eq_some_iff.mp hp, hnames,
    (evaluate_fails_only_undeclared p t _).1 hcovered,
    ((evaluate_fails_only_undeclared p t _).2 _ hundeclared).2.2,
    ((evaluate_fails_only_undeclared p t _).2 _ hdefault).2.2⟩

end Path.Compiled

end MarkupTree

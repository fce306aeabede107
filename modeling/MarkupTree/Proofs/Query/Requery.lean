import MarkupTree.Proofs.Namespace.Extension
import MarkupTree.Proofs.Path.Folding
import MarkupTree.Proofs.Query.Relocation

/-!
# Querying results again

A path written behind another finds what it finds on the results of the other, each result a tree of
its own. Three things make it so: the two paths are folded into steps one after the other, a result
declares all that was in scope at its place, and a walk does not see where a tree stands. Only
texts among the results are lost, since they are no trees; the empty path, which finds what it is
given, keeps them.
-/

set_option autoImplicit false

open MarkupTree.Path

namespace MarkupTree

namespace Walk

variable {declared : List Declaration}

theorem walk_no_nodes (steps : List Step) : walk declared steps [] = .ok [] := by
  cases steps with
  | nil => rw [walk]
  | cons s rest =>
    have hselected : selected declared s [] = .ok [] := by
      unfold selected candidates
      cases s.descendant <;> cases s.position? with
      | none => rfl
      | some n => cases n <;> rfl
    rw [walk_cons_eq_collect, hselected]
    rfl

theorem walk_last {s : Step} (nodes : List Node) :
    walk declared [s] nodes =
      (selected declared s nodes).map (List.filterMap (yields s.reads)) := by
  rw [walk_cons]
  cases selected declared s nodes <;> rfl

theorem walk_last_nodes {s : Step} (hs : s.reads = none) (nodes : List Node) :
    walk declared [s] nodes = (selected declared s nodes).map (List.map .node) := by
  have hyields : yields none = some ∘ Match.node := rfl
  rw [walk_last, hs, hyields, List.filterMap_eq_map]

theorem walkFrom_context (reads : Option String) (n : Node) :
    walkFrom declared [⟨false, .context, reads, []⟩] n = .ok (yields reads n).toList := by
  have hadmits : admits declared ⟨false, .context, reads, []⟩ n = .ok true := by
    unfold admits
    rw [holdAll]
    rfl
  have hselected : selected declared ⟨false, .context, reads, []⟩ [n] = .ok [n] := by
    simp only [selected, candidates, Bool.false_eq_true, if_false, keep, hadmits]
    rfl
  change walk declared [⟨false, .context, reads, []⟩] [n] = _
  rw [walk_last, hselected]
  cases h : yields reads n <;> simp [Except.map, h]

theorem walk_graft {s : Step} (hs : s.reads = none) {rest : List Step} (hne : rest ≠ [])
    (hbelow : StartsBelow rest) (front : List Step) (nodes : List Node) :
    (walk declared (front ++ graft s rest) nodes).toOption =
      (walk declared (front ++ [s]) nodes >>=
        collect fun m => walkFrom declared rest m.origin).toOption := by
  induction front generalizing nodes with
  | nil =>
    rw [List.nil_append, List.nil_append, walk_last_nodes hs]
    rcases hbelow with ⟨key, rfl⟩ | hbelow
    · change (walk declared [{ s with reads := some key }] nodes).toOption = _
      rw [walk_last]
      change ((selected declared s nodes).map _).toOption = _
      cases selected declared s nodes with
      | error e => rfl
      | ok picked =>
        have hcollect : collect (fun m => walkFrom declared [⟨false, .context, some key, []⟩]
            (Match.origin m)) (picked.map .node) = .ok (picked.filterMap (yields (some key))) := by
          rw [collect_map]
          simp only [walkFrom_context]
          exact collect_yields _ _
        exact congrArg Except.toOption hcollect.symm
    · have hgraft : graft s rest = s :: rest := by
        unfold graft
        split
        · cases hbelow
        · rfl
      have hempty : rest.isEmpty = false := by simpa using hne
      rw [hgraft, walk_cons]
      cases selected declared s nodes with
      | error e => rfl
      | ok picked =>
        change (if rest.isEmpty then _ else _ : Except UnresolvedName _).toOption =
          (collect _ (picked.map Match.node)).toOption
        rw [hempty, if_neg (by decide), collect_map]
        simp [walkFrom, start, hbelow, Match.origin]
  | cons s' front ih =>
    have hgraft : graft s rest ≠ [] := by
      unfold graft
      split <;> exact List.cons_ne_nil _ _
    rw [List.cons_append, List.cons_append, walk_cons_eq_collect, walk_cons_eq_collect,
      onward_of_ne_nil declared s' (List.append_ne_nil_of_right_ne_nil front hgraft),
      onward_of_ne_nil declared s'
        (List.append_ne_nil_of_right_ne_nil front (List.cons_ne_nil _ _))]
    cases selected declared s' nodes with
    | error e => rfl
    | ok picked =>
      change (collect _ picked).toOption = (collect _ picked >>= _).toOption
      rw [collect_bind]
      exact collect_congr_toOption fun n _ => ih n.children

theorem eq_node_of_mem_walk {s : Step} (hs : s.reads = none) {front : List Step}
    {nodes : List Node} {found : List Match} {m : Match}
    (h : walk declared (front ++ [s]) nodes = .ok found) (hm : m ∈ found) :
    m = .node m.origin := by
  induction front generalizing nodes found with
  | nil =>
    rw [List.nil_append, walk_last_nodes hs] at h
    obtain ⟨picked, -, rfl⟩ := map_eq_ok_iff.mp h
    obtain ⟨n, -, rfl⟩ := List.mem_map.mp hm
    rfl
  | cons s' front ih =>
    have hne := List.append_ne_nil_of_right_ne_nil front (List.cons_ne_nil s [])
    rw [List.cons_append, walk_cons_eq_collect, onward_of_ne_nil declared s' hne] at h
    obtain ⟨picked, -, h⟩ := bind_eq_ok_iff.mp h
    obtain ⟨hall, rfl⟩ := collect_eq_ok h
    obtain ⟨n, hn, hmn⟩ := List.mem_flatMap.mp hm
    exact ih (hall n hn) hmn

end Walk

namespace Node

/-- A node whose scope is what its fragment makes of a scope around it. -/
def Standing (n : Node) : Prop := ∃ outer : Scope, outer.Proper ∧ n.scope = outer.enter n.fragment

theorem standing_of_mem_subtree_ofRoot {root : Fragment} {n : Node}
    (h : n ∈ (ofRoot root).subtree) : n.Standing := by
  refine downward (P := Standing) ?_ ⟨Scope.empty, Scope.proper_empty, rfl⟩ h
  rintro n ⟨outer, houter, hscope⟩ c hc
  obtain ⟨i, f, -, rfl⟩ := mem_children_iff.mp hc
  refine ⟨n.scope, ?_, rfl⟩
  rw [hscope]
  exact houter.extend _

theorem ofRoot_declareAll {n : Node} (hn : n.Standing) {name : String} {attributes : Attributes}
    {children : List Fragment} (hf : n.fragment = .element name attributes children) :
    ofRoot (Result.declareAll n.scope (.element name attributes children)) =
      ⟨[], Result.declareAll n.scope (.element name attributes children), n.scope⟩ := by
  obtain ⟨outer, houter, hscope⟩ := hn
  have henter : Scope.empty.enter (Result.declareAll n.scope (.element name attributes children)) =
      n.scope := by
    rw [hscope, hf]
    exact Scope.empty_extend_insertAllNew houter attributes
  unfold ofRoot
  rw [henter]

theorem children_eq_under_declareAll {n : Node} {name : String} {attributes : Attributes}
    {children : List Fragment} (hf : n.fragment = .element name attributes children) :
    n.children = (Node.children ⟨[], Result.declareAll n.scope
      (.element name attributes children), n.scope⟩).map (under n.address) := by
  rw [Node.children, Node.children, hf, ← siblings_under, List.append_nil]
  rfl

/-- A walk from the children of an element finds what it finds from them in the element taken out, at
addresses in there. -/
theorem walk_children_of_takenOut {declared : List Declaration} {n : Node} (hn : n.Standing)
    {name : String} {attributes : Attributes} {children : List Fragment}
    (hf : n.fragment = .element name attributes children) (steps : List Step) :
    Walk.walk declared steps n.children =
      (Walk.walk declared steps (ofRoot (Result.declareAll n.scope
        (.element name attributes children))).children).map (List.map (Match.under n.address)) := by
  rw [children_eq_under_declareAll hf, Walk.walk_under, ofRoot_declareAll hn hf]

end Node

namespace Path.Compiled

/-- What a path finds on a result. A text is no tree, and only the empty path finds it. -/
def requery (p : Compiled) (declared : List Declaration) :
    Result → Except UnresolvedName (List Result)
  | .tree t => p.evaluate t declared
  | .text value => .ok (if p.steps.isNone then [.text value] else [])

/-- The attribute that a path reads from its context, if that is what it starts with. -/
def readsContext? (p : Compiled) : Option String :=
  match p.steps with
  | some (⟨false, .context, reads, _⟩ :: _) => reads
  | _ => none

variable {declared : List Declaration}

/-- A path finds the same from a node in its tree and on the result that the node becomes. -/
theorem requery_ofMatch {p : Compiled} {rest : List Step} (hp : p.steps = some rest)
    (hbelow : StartsBelow rest)
    (hkey : ∀ key, p.readsContext? = some key → Declaration.isKey key = false) {n : Node}
    (hn : n.Standing) :
    p.requery declared (Result.ofMatch (.node n)) =
      (Walk.walkFrom declared rest n).map (List.map Result.ofMatch) := by
  cases hf : n.fragment with
  | text content =>
    have hempty : Walk.walkFrom declared rest n = .ok [] := by
      rcases hbelow with ⟨key, rfl⟩ | hbelow
      · rw [Walk.walkFrom_context]
        simp [Walk.yields, hf, Fragment.attributes]
      · have hchildren : n.children = [] := by
          rw [Node.children, hf]
          rfl
        simp [Walk.walkFrom, Walk.start, hbelow, hchildren, Walk.walk_no_nodes]
    simp [Result.ofMatch, hf, requery, hp, hempty, Except.map]
  | element name attributes children =>
    have hevaluate : p.requery declared (Result.ofMatch (.node n)) =
        (Walk.walkFrom declared rest (Node.ofRoot
          (Result.declareAll n.scope (.element name attributes children)))).map
            (List.map Result.ofMatch) := by
      simp only [Result.ofMatch, hf, requery, evaluate, Tree.ofRoot, hp]
      cases Walk.walkFrom declared rest _ <;> rfl
    rw [hevaluate]
    rcases hbelow with ⟨key, rfl⟩ | hbelow
    · have hfree := hkey key (by simp [readsContext?, hp])
      have hentries := Scope.attributeEntries_lookup_of_not_isKey n.scope hfree
      rw [Walk.walkFrom_context, Walk.walkFrom_context]
      simp only [Walk.yields, hf, Node.ofRoot, Fragment.attributes, Result.declareAll,
        Dictionary.get?_insertAllNew, hentries, Option.or_none]
      cases attributes.get? key <;> rfl
    · simp only [Walk.walkFrom, Walk.start, hbelow, Bool.false_eq_true, if_false]
      rw [Node.walk_children_of_takenOut hn hf]
      cases Walk.walk declared rest _ with
      | error e => rfl
      | ok found =>
        apply congrArg Except.ok
        rw [List.map_map]
        exact List.map_congr_left fun m _ => (Result.ofMatch_under n.address m).symm

theorem evaluate_graft {q p c : Compiled} {front rest : List Step} {s : Step}
    (hq : q.steps = some (front ++ [s])) (hs : s.reads = none) (hp : p.steps = some rest)
    (hne : rest ≠ []) (hbelow : StartsBelow rest) (hc : c.steps = some (front ++ graft s rest))
    (hkey : ∀ key, p.readsContext? = some key → Declaration.isKey key = false) (t : Tree) :
    (c.evaluate t declared).toOption =
      (q.evaluate t declared >>= Walk.collect (p.requery declared)).toOption := by
  obtain ⟨root⟩ := t
  cases root with
  | none =>
    simp only [evaluate]
    rfl
  | some root =>
    have hstart : Walk.start (front ++ graft s rest) (Node.ofRoot root) =
        Walk.start (front ++ [s]) (Node.ofRoot root) := by
      cases front with
      | cons => rfl
      | nil =>
        unfold graft
        split <;> rfl
    have hwalk : (Walk.walkFrom declared (front ++ graft s rest) (Node.ofRoot root)).toOption =
        (Walk.walkFrom declared (front ++ [s]) (Node.ofRoot root) >>=
          Walk.collect fun m => Walk.walkFrom declared rest m.origin).toOption := by
      unfold Walk.walkFrom
      rw [hstart]
      exact Walk.walk_graft hs hne hbelow front _
    simp only [evaluate, hq, hc, toOption_bind, toOption_ok] at hwalk ⊢
    rw [hwalk]
    cases hfound : Walk.walkFrom declared (front ++ [s]) (Node.ofRoot root) with
    | error e => rfl
    | ok found =>
      have hresult : ∀ m ∈ found, p.requery declared (Result.ofMatch m) =
          (Walk.walkFrom declared rest m.origin).map (List.map Result.ofMatch) := by
        intro m hm
        have hstanding :=
          Node.standing_of_mem_subtree_ofRoot (Walk.mem_subtree_of_mem_walkFrom hfound hm)
        rw [← requery_ofMatch hp hbelow hkey hstanding, ← Walk.eq_node_of_mem_walk hs hfound hm]
      have hcollect : Walk.collect (p.requery declared) (found.map Result.ofMatch) =
          (Walk.collect (fun m => Walk.walkFrom declared rest m.origin) found).map
            (List.map Result.ofMatch) := by
        rw [Walk.collect_map, ← Walk.collect_map_result]
        exact Walk.collect_congr hresult
      simp only [toOption_ok, Option.bind_some, hcollect]
      cases Walk.collect (fun m => Walk.walkFrom declared rest m.origin) found <;> rfl

theorem collect_requery_of_isNone {p : Compiled} (hp : p.steps = none) {found : List Result}
    (hroot : ∀ t, .tree t ∈ found → t.root.isSome) :
    Walk.collect (p.requery declared) found = .ok found := by
  induction found with
  | nil => rfl
  | cons x found ih =>
    rw [Walk.collect, ih fun t ht => hroot t (List.mem_cons_of_mem _ ht)]
    cases x with
    | text value =>
      simp only [requery, hp]
      rfl
    | tree t =>
      obtain ⟨root, hsome⟩ := Option.isSome_iff_exists.mp (hroot t List.mem_cons_self)
      simp only [requery, evaluate, hp, hsome]
      rfl

theorem root_isSome_of_mem_evaluate {p : Compiled} {t : Tree} {found : List Result}
    (h : p.evaluate t declared = .ok found) {u : Tree} (hu : .tree u ∈ found) : u.root.isSome := by
  obtain ⟨root⟩ := t
  obtain ⟨source, steps⟩ := p
  cases root with
  | none =>
    cases h
    cases hu
  | some root =>
    cases steps with
    | none =>
      cases h
      cases List.mem_singleton.mp hu
      rfl
    | some steps =>
      obtain ⟨matches', -, h⟩ := bind_eq_ok_iff.mp h
      cases h
      obtain ⟨m, -, hm⟩ := List.mem_map.mp hu
      unfold Result.ofMatch at hm
      split at hm
      · cases hm
      · split at hm
        · cases hm
        · cases hm
          rfl

end Path.Compiled

section Append

variable {q r : String} {p p' : Path.Compiled} (hp : Path.compile q = .ok p)
variable (hp' : Path.compile r = .ok p')
variable (hlast : (Path.lastSegment? q).all Path.Surface.Segment.isStep)
variable (hkey : ∀ key, p'.readsContext? = some key → Declaration.isKey key = false)

include hp hp' hlast hkey in
theorem evaluate_append : ∃ c, Path.compile (q ++ r) = .ok c ∧
    ∀ (t : Tree) (declared : List Declaration), (c.evaluate t declared).toOption =
      (p.evaluate t declared >>= Walk.collect (p'.requery declared)).toOption := by
  by_cases hq : q = ""
  · subst hq
    cases hp
    refine ⟨p', by rwa [String.empty_append], ?_⟩
    intro t declared
    obtain ⟨root⟩ := t
    cases root with
    | none => rfl
    | some root =>
      change _ = (Walk.collect (p'.requery declared) [.tree ⟨some root⟩]).toOption
      simp only [Walk.collect, Path.Compiled.requery]
      cases h : p'.evaluate ⟨some root⟩ declared <;> simp
  · by_cases hr : r = ""
    · subst hr
      cases hp'
      refine ⟨p, by rwa [String.append_empty], ?_⟩
      intro t declared
      cases h : p.evaluate t declared with
      | error e => rfl
      | ok found =>
        have hcollect : Walk.collect (Path.Compiled.requery ⟨"", none⟩ declared) found =
            .ok found :=
          Path.Compiled.collect_requery_of_isNone rfl fun u hu =>
            Path.Compiled.root_isSome_of_mem_evaluate h hu
        exact congrArg Except.toOption hcollect.symm
    · obtain ⟨front, s, rest, hsteps, hs, hrest, hne, hbelow, hc⟩ :=
        Path.compile_append hp hp' hq hr hlast
      exact ⟨_, hc, fun t declared =>
        Path.Compiled.evaluate_graft hsteps hs hrest hne hbelow rfl hkey t⟩

/-- A path written behind another finds on a tree, one after the other, what it finds on every
result of the other. -/
theorem evaluate_append_iff (hp : Path.compile q = .ok p) (hp' : Path.compile r = .ok p')
    (hlast : (Path.lastSegment? q).all Path.Surface.Segment.isStep)
    (hkey : ∀ key, p'.readsContext? = some key → Declaration.isKey key = false) :
    ∃ c, Path.compile (q ++ r) = .ok c ∧
      ∀ (t : Tree) (declared : List Declaration) (results : List Result),
        c.evaluate t declared = .ok results ↔
          ∃ found parts, p.evaluate t declared = .ok found ∧
            List.Forall₂ (fun x part => p'.requery declared x = .ok part) found parts ∧
            results = parts.flatten := by
  obtain ⟨c, hc, hevaluate⟩ := evaluate_append hp hp' hlast hkey
  refine ⟨c, hc, ?_⟩
  intro t declared results
  rw [toOption_eq_iff.mp (hevaluate t declared) results, bind_eq_ok_iff]
  simp only [Walk.collect_eq_ok_iff]
  constructor
  · rintro ⟨found, hfound, parts, hparts, rfl⟩
    exact ⟨found, parts, hfound, hparts, rfl⟩
  · rintro ⟨found, parts, hfound, hparts, rfl⟩
    exact ⟨found, hfound, parts, hparts, rfl⟩

end Append

/-- `/n:a` and then `/n:b/@id`. The qualifier of the tree is declared outside of what the first
path finds, and one element declares it anew. -/
theorem evaluate_append_iff_inherited :
    let a (entries : List (String × String)) (id : String) :=
      Fragment.element "p:a" (Dictionary.ofList entries)
        [.element "p:b" (Dictionary.ofList [("id", id)]) [], .text "x"]
    let t := Tree.ofRoot (.element "r" (Dictionary.ofList [("xmlns:p", "urn:p")])
      [a [] "1", a [("xmlns:p", "urn:q")] "2", a [] "3"])
    let declared : List Declaration := [⟨some "n", "urn:p"⟩]
    ∃ p p' found parts, Path.compile "/n:a" = .ok p ∧ Path.compile "/n:b/@id" = .ok p' ∧
      p.evaluate t declared = .ok found ∧
      List.Forall₂ (fun x part => p'.requery declared x = .ok part) found parts ∧
      [.text "1", .text "3"] = parts.flatten := by
  intro a t declared
  have hsome : (Path.compile "/n:a").toOption.isSome := by decide +kernel
  obtain ⟨p, hp⟩ := Option.isSome_iff_exists.mp hsome
  have hreads : (Path.compile "/n:b/@id").toOption.map (·.readsContext?) = some none := by
    decide +kernel
  obtain ⟨p', hp', hreads⟩ := Option.map_eq_some_iff.mp hreads
  have hlast : (Path.lastSegment? "/n:a").all Path.Surface.Segment.isStep := by decide +kernel
  have hboth : ((Path.compile ("/n:a" ++ "/n:b/@id")).toOption.bind fun c =>
      (c.evaluate t declared).toOption) = some [.text "1", .text "3"] := by decide +kernel
  rw [toOption_eq_some_iff] at hp hp'
  have hkey : ∀ key, p'.readsContext? = some key → Declaration.isKey key = false := by
    intro key h
    rw [hreads] at h
    cases h
  obtain ⟨c, hc, hiff⟩ := evaluate_append_iff hp hp' hlast hkey
  rw [hc, toOption_ok, Option.bind_some, toOption_eq_some_iff] at hboth
  obtain ⟨found, parts, hfound, hparts, hflatten⟩ := (hiff t declared _).mp hboth
  exact ⟨p, p', found, parts, hp, hp', hfound, hparts, hflatten⟩

/-- A text that a path finds is no tree to be queried again, but the empty path behind that path
does not take it away. -/
theorem empty_path_keeps_texts :
    let t := Tree.ofRoot (.element "r" Dictionary.empty [.text "x"])
    ∃ p p', Path.compile "/text()" = .ok p ∧ Path.compile "" = .ok p' ∧
      Path.compile ("/text()" ++ "") = .ok p ∧ p.evaluate t [] = .ok [.text "x"] ∧
      ¬ ∃ parts, List.Forall₂ (fun u part => p'.evaluate u [] = .ok part)
          ([Result.text "x"].filterMap Result.tree?) parts ∧
        [Result.text "x"] = parts.flatten := by
  intro t
  have h : ((Path.compile "/text()").toOption.bind fun p => (p.evaluate t []).toOption) =
      some [.text "x"] := by decide +kernel
  obtain ⟨p, hp, hresults⟩ := Option.bind_eq_some_iff.mp h
  rw [toOption_eq_some_iff] at hp hresults
  refine ⟨p, _, hp, Path.compile_empty, by rwa [String.append_empty], hresults, ?_⟩
  rintro ⟨parts, hparts, hflatten⟩
  cases hparts
  cases hflatten

end MarkupTree

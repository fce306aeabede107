import MarkupTree.Proofs.Query.DocumentOrder
import MarkupTree.Proofs.Query.Requery

/-!
# Elements taken out of their tree

A matched element becomes the root of a tree of its own. What its tree declared above it, the new
root declares itself, so all names at and below it mean what they meant; and nothing else of it
changes.
-/

set_option autoImplicit false

open MarkupTree.Path

namespace MarkupTree

/-- The fragments on the way from a fragment to the place at an address below it, both included. -/
def Fragment.lineage (f : Fragment) : List Nat → List Fragment
  | [] => [f]
  | i :: address =>
    match f.children[i]? with
    | some child => f :: child.lineage address
    | none => [f]

def Tree.lineage (t : Tree) (address : List Nat) : List Fragment :=
  match t.root with
  | some root => root.lineage address
  | none => []

/-- The URI that the name of an element resolves to at its place. -/
def Node.uri? (n : Node) : Option String := n.fragment.name?.bind n.scope.resolve?

theorem Node.scope_of_mem_subtree {n m : Node} {outer : Scope}
    (hn : n.scope = outer.enter n.fragment)
    (hm : m ∈ n.subtree) :
    ∃ below, m.address = n.address ++ below ∧
      m.scope = ((n.fragment.lineage below).map Fragment.attributes).foldl Scope.extend outer := by
  induction n using upward generalizing outer with
  | h n ih =>
    rcases mem_subtree_iff.mp hm with rfl | ⟨c, hc, hm⟩
    · exact ⟨[], (List.append_nil _).symm, hn⟩
    · obtain ⟨i, f, hf, rfl⟩ := mem_children_iff.mp hc
      obtain ⟨below, haddress, hscope⟩ := ih _ hc rfl hm
      refine ⟨i :: below, ?_, ?_⟩
      · rw [haddress, List.append_assoc, List.singleton_append]
      · rw [hscope, Fragment.lineage, hf, hn]
        rfl

theorem Tree.scope_of_mem_nodes {t : Tree} {n : Node} (h : n ∈ t.nodes) :
    n.scope = ((t.lineage n.address).map Fragment.attributes).foldl Scope.extend Scope.empty := by
  obtain ⟨root⟩ := t
  cases root with
  | none => cases h
  | some root =>
    obtain ⟨below, haddress, hscope⟩ := Node.scope_of_mem_subtree rfl h
    rw [haddress]
    exact hscope

theorem Node.subtree_under (base : List Nat) (n : Node) :
    (n.under base).subtree = n.subtree.map (under base) :=
  forall₂_map_iff.mp ((Walk.under_simulation base []).subtree rfl)

/-- The element at a node of a tree is the root of another one, with nothing added but declarations
that it does not make itself, and names mean there what they mean at the node. -/
structure Node.TakenOut (t : Tree) (n : Node) (u : Tree) : Prop where
  element : ∃ name own all children, n.fragment = .element name own children ∧
    u = Tree.ofRoot (.element name all children) ∧
    (∀ key value, own.get? key = some value → all.get? key = some value) ∧
    ∀ key, own.get? key = none → all.get? key ≠ none → Declaration.isKey key = true
  scope : ∀ root ∈ u.root, Scope.empty.enter root =
    ((t.lineage n.address).map Fragment.attributes).foldl Scope.extend Scope.empty
  names : ∀ x ∈ u.nodes, ∃ y ∈ t.nodes, y.address = n.address ++ x.address ∧
    y.fragment.name? = x.fragment.name? ∧ y.scope = x.scope ∧ y.uri? = x.uri?

theorem Result.get?_declareAll_of_get? (attributes : Attributes) (s : Scope) {key value : String}
    (h : attributes.get? key = some value) :
    (attributes.insertAllNew s.attributeEntries).get? key = some value := by
  rw [Dictionary.get?_insertAllNew, h, Option.some_or]

theorem Result.isKey_of_get?_declareAll {attributes : Attributes} {s : Scope} {key : String}
    (hown : attributes.get? key = none)
    (hall : (attributes.insertAllNew s.attributeEntries).get? key ≠ none) :
    Declaration.isKey key = true := by
  rw [Dictionary.get?_insertAllNew, hown, Option.none_or] at hall
  cases hkey : Declaration.isKey key with
  | true => rfl
  | false => exact absurd (s.attributeEntries_lookup_of_not_isKey hkey) hall

theorem Node.takenOut_declareAll {t : Tree} {n : Node} (hn : n ∈ t.nodes) {name : String}
    {attributes : Attributes} {children : List Fragment}
    (hf : n.fragment = .element name attributes children) :
    TakenOut t n (Tree.ofRoot (Result.declareAll n.scope (.element name attributes children))) := by
  obtain ⟨root⟩ := t
  cases root with
  | none => cases hn
  | some root =>
    have hroot := ofRoot_declareAll (standing_of_mem_subtree_ofRoot hn) hf
    refine ⟨⟨name, attributes, _, children, hf, rfl, ?_, ?_⟩, ?_, ?_⟩
    · intro key value h
      exact Result.get?_declareAll_of_get? attributes n.scope h
    · intro key hown hall
      exact Result.isKey_of_get?_declareAll hown hall
    · rintro _ ⟨⟩
      rw [← Tree.scope_of_mem_nodes hn]
      exact congrArg Node.scope hroot
    · intro x hx
      change x ∈ (ofRoot _).subtree at hx
      rw [hroot] at hx
      rcases mem_subtree_iff.mp hx with rfl | ⟨c, hc, hx⟩
      · have hname : n.fragment.name? = some name := by
          rw [hf]
          rfl
        refine ⟨n, hn, (List.append_nil _).symm, hname, rfl, ?_⟩
        rw [uri?, uri?, hname]
        rfl
      · have hunder : c.under n.address ∈ n.children := by
          rw [children_eq_under_declareAll hf]
          exact List.mem_map_of_mem hc
        have hmem : x.under n.address ∈ n.subtree := by
          refine mem_subtree_iff.mpr (.inr ⟨_, hunder, ?_⟩)
          rw [subtree_under]
          exact List.mem_map_of_mem hx
        exact ⟨x.under n.address, mem_subtree_trans hn hmem, rfl, rfl, rfl, rfl⟩

namespace Path.Compiled

variable {p : Compiled} {t : Tree} {declared : List Declaration}

theorem mem_nodes_of_found {found : List Match} (h : p.found t declared = .ok found) {m : Match}
    (hm : m ∈ found) : m.origin ∈ t.nodes := by
  obtain ⟨source, steps⟩ := p
  obtain ⟨root⟩ := t
  cases root with
  | none =>
    cases h
    cases hm
  | some root =>
    cases steps with
    | none =>
      cases h
      cases List.mem_singleton.mp hm
      exact Node.mem_subtree_self _
    | some steps => exact Walk.mem_subtree_of_mem_walkFrom h hm

/-- Every tree among the results of a path is a matched element taken out of the tree that was
queried: it has the scope that the attributes from the root down to the element make. -/
theorem evaluate_takes_out (hp : p.steps.isSome) {results : List Result}
    (h : p.evaluate t declared = .ok results) :
    ∃ found, p.found t declared = .ok found ∧ results = found.map Result.ofMatch ∧
      ∀ m ∈ found, ∀ u, Result.ofMatch m = .tree u → m = .node m.origin ∧
        m.origin ∈ t.nodes ∧ m.origin.TakenOut t u := by
  rw [evaluate_eq] at h
  obtain ⟨found, hfound, rfl⟩ := map_eq_ok_iff.mp h
  have hpresent : p.present t = Result.ofMatch := by
    funext m
    obtain ⟨steps, hsteps⟩ := Option.isSome_iff_exists.mp hp
    rw [present, hsteps]
    rfl
  rw [hpresent]
  refine ⟨found, hfound, rfl, ?_⟩
  intro m hm u hu
  have hnode := mem_nodes_of_found hfound hm
  rcases m with n | ⟨n, value⟩
  · refine ⟨rfl, hnode, ?_⟩
    cases hf : n.fragment with
    | text content =>
      rw [Result.ofMatch, hf] at hu
      cases hu
    | element name attributes children =>
      rw [Result.ofMatch, hf] at hu
      cases hu
      exact Node.takenOut_declareAll hnode hf
  · cases hu

/-- `//*:b` on a tree whose root declares a default namespace, a qualifier and the empty qualifier;
further down the default is taken away and the qualifier is bound anew. -/
theorem evaluate_takes_out_shadowed :
    let element (name : String) (entries : List (String × String)) :=
      Fragment.element name (Dictionary.ofList entries)
    let t := Tree.ofRoot (element "r"
      [("xmlns", "urn:d"), ("xmlns:", "urn:e"), ("xmlns:p", "urn:p")]
      [element "a" [("xmlns", "")] [element "p:b" [("id", "1"), ("xmlns:p", "urn:q")]
        [element "p:c" [] [], element "d" [] []]]])
    let u := Tree.ofRoot (element "p:b" [("id", "1"), ("xmlns:", "urn:e"), ("xmlns:p", "urn:q")]
      [element "p:c" [] [], element "d" [] []])
    ∃ (p : Compiled) (m : Match), compile "//*:b" = .ok p ∧ p.steps.isSome ∧
      p.evaluate t [] = .ok [.tree u] ∧ p.found t [] = .ok [m] ∧ m.origin.TakenOut t u ∧
      (t.lineage m.origin.address).map Fragment.name? = [some "r", some "a", some "p:b"] ∧
      u.nodes.map Node.uri? = [some "urn:q", some "urn:q", none] := by
  intro element t u
  have hp : ((compile "//*:b").toOption.map fun p => ((p.steps.isSome, (p.evaluate t []).toOption),
      (p.found t []).toOption.map fun found => found.map fun m =>
        (t.lineage m.origin.address).map Fragment.name?)) =
      some ((true, some [.tree u]), some [[some "r", some "a", some "p:b"]]) := by
    decide +kernel
  have huri : u.nodes.map Node.uri? = [some "urn:q", some "urn:q", none] := by decide +kernel
  obtain ⟨p, hp, hanswer⟩ := Option.map_eq_some_iff.mp hp
  rw [Prod.mk.injEq, Prod.mk.injEq, toOption_eq_some_iff] at hanswer
  obtain ⟨⟨hsteps, hresults⟩, hlineage⟩ := hanswer
  obtain ⟨found, hfound, heq, htaken⟩ := evaluate_takes_out hsteps hresults
  rw [hfound, toOption_ok, Option.map_some, Option.some.injEq] at hlineage
  obtain ⟨m, rfl⟩ : ∃ m, found = [m] := by
    apply List.length_eq_one_iff.mp
    rw [← List.length_map (f := Result.ofMatch), ← heq]
    rfl
  have hresult : Result.ofMatch m = .tree u := (List.cons.inj heq).1.symm
  obtain ⟨-, -, htaken⟩ := htaken m List.mem_cons_self u hresult
  exact ⟨p, m, toOption_eq_some_iff.mp hp, hsteps, hresults, hfound, htaken,
    (List.cons.inj hlineage).1, huri⟩

end Path.Compiled

end MarkupTree

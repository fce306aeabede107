import MarkupTree.Proofs.Path.Bracketed
import MarkupTree.Proofs.Path.WellFormed
import MarkupTree.Proofs.Query.Filtering
import MarkupTree.Proofs.Query.Nameless

/-!
# Selecting children by an attribute

A path may be put together from data: a name, the key of an attribute, and a text in quotation
marks. It is read as just these, whatever stands between the marks, and on a tree without
declarations it selects the children of the root that have the name and the value.
-/

set_option autoImplicit false

open MarkupTree.Path

namespace MarkupTree

namespace Path

variable {q k v : String} {mark : Char}

namespace Surface

variable {u : List Char}

/-- What a key behind an at sign is read as. -/
def attributeText (k : String) : Operand :=
  .path (String.ofList ('@' :: k.toList)) [.attribute false k]

theorem operand_attribute {c : Parser Condition} (hk : IsName k) (hu : stops u = true) :
    operand c ('@' :: (k.toList ++ u)) = some (attributeText k, u) := by
  obtain ⟨hbreaks, hslash⟩ := breaks_of_stops hu
  have hname : qualifiedName (k.toList ++ u) = some (k, u) := by
    rw [qualifiedName_append hbreaks.1, show qualifiedName k.toList = some (k, []) from hk]
    rfl
  have hfirst : segment c false ('@' :: (k.toList ++ u)) = some (.attribute false k, u) :=
    segment_eq_some.mpr (.inl ⟨_, k, rfl, hname, rfl⟩)
  have hsegs : segments c ('@' :: (k.toList ++ u)) = some ([.attribute false k], u) := by
    have hstuck : separated c u = none := separated_eq_none hslash
    refine segments_eq_some.mpr ⟨_, u, hfirst, ?_, ?_⟩
    · rw [repeated_of_none hstuck]
    · rw [repeated_of_none hstuck]
  have htaken := taken_append ('@' :: k.toList) u
  rw [List.cons_append] at htaken
  apply operand_eq_some.mpr
  refine .inr ⟨rfl, .inr ⟨rfl, .inl (ending_eq_some.mpr ⟨?_, ?_⟩)⟩⟩
  · exact path_eq_some.mpr ⟨_, hsegs, by rw [htaken, attributeText]⟩
  · rw [endsOperand, hu]
    rfl

theorem resolveOperand_attribute (k : String) :
    resolveOperand (attributeText k) = .ok (.path [attributeStep false k]) := by
  have hpath : isPathText (String.ofList ('@' :: k.toList)) = true := by simp [isPathText]
  rw [attributeText, resolveOperand, if_pos hpath, steps_attribute_alone _ rfl (.inl rfl),
    steps_nil]
  rfl

/-- An attribute, an equals sign and a text in quotation marks, without blanks. -/
def attributeEquals (mark : Char) (k v : String) : List Char :=
  '@' :: (k.toList ++ '=' :: mark :: (v.toList ++ [mark]))

def attributeCondition (mark : Char) (k v : String) : Condition :=
  .comparison (String.ofList (attributeEquals mark k v)) (attributeText k) .equal
    (.quoted (String.ofList (mark :: (v.toList ++ [mark]))) v)

theorem condition_attributeEquals {n : Nat} (hk : IsName k) (hmark : mark = '"' ∨ mark = '\'')
    (hv : mark ∉ v.toList) (hu : Closes u) :
    condition (n + 1) (attributeEquals mark k v ++ u) =
      some (attributeCondition mark k v, u) := by
  have hgap : isGap mark = false := by rcases hmark with rfl | rfl <;> rfl
  have hquotation : operand (condition n) (mark :: (v.toList ++ [mark] ++ u)) =
      some (.quoted (String.ofList (mark :: (v.toList ++ [mark]))) v, u) := by
    rw [operand_quotation hmark hv (stops_of_closes hu), String.ofList_toList]
  have hcmp : comparand (condition n) ('=' :: mark :: (v.toList ++ [mark] ++ u)) =
      some ((.equal, .quoted (String.ofList (mark :: (v.toList ++ [mark]))) v), u) := by
    refine comparand_eq_some.mpr ⟨mark :: (v.toList ++ [mark] ++ u), rfl, ?_⟩
    rw [skipGap_cons hgap]
    exact hquotation
  have hcs : attributeEquals mark k v ++ u =
      '@' :: (k.toList ++ '=' :: mark :: (v.toList ++ [mark] ++ u)) := by
    simp [attributeEquals]
  apply condition_succ_eq_some.mpr
  refine ⟨attributeText k, '=' :: mark :: (v.toList ++ [mark] ++ u), ?_, .inl ⟨_, _, hcmp, ?_⟩⟩
  · rw [hcs]
    exact operand_attribute hk rfl
  · rw [taken_append, attributeCondition]

end Surface

open Surface

/-- The children with a name on which an attribute has a value. -/
def byAttribute (q k v : String) (mark : Char) : String :=
  "/" ++ q ++ "[@" ++ k ++ "=" ++ String.singleton mark ++ v ++ String.singleton mark ++ "]"

/-- The test that an attribute has a value. -/
def attributeTest (k v : String) : Condition :=
  .compare (.path [attributeStep false k]) .equal (.literal v)

theorem compile_byAttribute (hq : IsName q) (hdot : q.toList.head? ≠ some '.') (hk : IsName k)
    (hmark : mark = '"' ∨ mark = '\'') (hv : mark ∉ v.toList) :
    ∃ source, compile (byAttribute q k v mark) =
      .ok ⟨byAttribute q k v mark,
        some [⟨false, .name q, none, [.condition source (attributeTest k v)]⟩]⟩ := by
  let content := String.ofList (attributeEquals mark k v)
  have hpath : (byAttribute q k v mark).toList =
      '/' :: ((if false then ['/'] else []) ++
        ((NameTest.name q).display.toList ++ enclosed content)) := by
    simp [byAttribute, enclosed, NameTest.display, content, attributeEquals]
  have hmeaning : resolveCondition (attributeCondition mark k v) =
      .ok (content, attributeTest k v) := by
    rw [attributeCondition, resolveCondition, resolveOperand_attribute, resolveOperand]
    rfl
  have hne : byAttribute q k v mark ≠ "" := by simp [byAttribute]
  refine ⟨_, (compile_eq_ok hne).mpr ⟨_, parse_enclosed (hq.legible hdot) hpath ?_ hmeaning, rfl⟩⟩
  intro n u hn
  obtain ⟨n, rfl⟩ : ∃ m, n = m + 1 := ⟨n - 1, by omega⟩
  have hread := condition_attributeEquals (n := n) (u := ']' :: u) hk hmark hv rfl
  apply bracket_eq_some.mpr
  refine ⟨attributeEquals mark k v ++ ']' :: u, ']' :: u, ?_, rfl, .inr ⟨rfl, _, hread, rfl⟩⟩
  simp [enclosed, content]

end Path

theorem Fragment.eq_nil_of_stripped {f : Fragment} (h : f.stripped = f) :
    Declaration.ofAttributes f.attributes = [] := by
  cases f with
  | text => rfl
  | element name attributes children =>
    rw [stripped, Fragment.element.injEq, Dictionary.ext_iff] at h
    obtain ⟨-, hothers, -⟩ := h
    apply List.filterMap_eq_nil_iff.mpr
    intro e he
    have hothers : Declaration.others attributes = attributes.entries := hothers
    rw [Fragment.attributes, ← hothers] at he
    simpa [Declaration.isKey_eq_isSome, Declaration.ofAttribute?] using (List.mem_filter.mp he).2

theorem Node.siblings_of_stripped (address : List Nat) (index : Nat) {fs : List Fragment}
    (h : Fragment.strippedAll fs = fs) :
    (siblings address Scope.empty index fs).map fragment = fs ∧
      ∀ n ∈ siblings address Scope.empty index fs, n.scope = Scope.empty := by
  induction fs generalizing index with
  | nil => exact ⟨rfl, nofun⟩
  | cons f fs ih =>
    rw [Fragment.strippedAll, List.cons.injEq] at h
    obtain ⟨hmap, hscope⟩ := ih (index + 1) h.2
    have henter : Scope.empty.enter f = Scope.empty := by
      rw [Scope.enter, Scope.extend_eq_bindAll, Fragment.eq_nil_of_stripped h.1, Scope.bindAll_nil]
    refine ⟨?_, ?_⟩
    · rw [siblings, List.map_cons, hmap]
    · rw [siblings, List.forall_mem_cons]
      exact ⟨henter, hscope⟩

theorem Node.children_of_stripped {root : Fragment} (h : root.stripped = root) :
    (ofRoot root).children.map fragment = root.children ∧
      ∀ n ∈ (ofRoot root).children, n.scope = Scope.empty := by
  have hchildren : Fragment.strippedAll root.children = root.children := by
    rw [← Fragment.children_stripped, h]
  have hscope : (ofRoot root).scope = Scope.empty := by
    rw [ofRoot, Scope.enter, Scope.extend_eq_bindAll, Fragment.eq_nil_of_stripped h, Scope.bindAll_nil]
  rw [children, hscope]
  exact siblings_of_stripped [] 0 hchildren

theorem Node.asTree_of_empty {n : Node} (h : n.scope = Scope.empty) :
    n.asTree = Tree.ofRoot n.fragment := by
  rw [asTree, h]
  cases n.fragment <;> rfl

def Tree.rootAttribute? (t : Tree) (key : String) : Option String :=
  t.root.bind fun root => root.attributes.get? key

namespace Walk

theorem passes_name_of_resolve {n : Node}
    (h : ∀ name ∈ n.fragment.name?, n.scope.resolve? name = none)
    (declared : List Declaration) (q : String) :
    passes declared (.name q) n = .ok (decide (n.fragment.name? = some q)) := by
  obtain ⟨address, f, scope⟩ := n
  cases f with
  | text => simp [passes, Fragment.name?]
  | element name attributes children =>
    have hresolve : scope.resolve? name = none := h name rfl
    simp [passes, Scope.named, hresolve, Fragment.name?]

theorem passes_name_of_empty {n : Node} (h : n.scope = Scope.empty)
    (declared : List Declaration) (q : String) :
    passes declared (.name q) n = .ok (decide (n.fragment.name? = some q)) := by
  apply passes_name_of_resolve
  intro name _
  rw [h]
  unfold Scope.resolve?
  cases Name.qualifier? name <;> rfl

theorem holds_attribute (declared : List Declaration) (k : String) (op : Comparison) (v : String)
    (n : Node) :
    holds declared (.compare (.path [Surface.attributeStep false k]) op (.literal v)) n =
      .ok (op.holds ((n.fragment.attributes.get? k).getD "") v) := by
  have hwalk : walkFrom declared _ n = _ := walkFrom_context (some k) n
  have hvalue : value declared (.path [Surface.attributeStep false k]) n =
      .ok ((n.fragment.attributes.get? k).getD "") := by
    rw [walkFrom] at hwalk
    rw [Surface.attributeStep, if_neg Bool.false_ne_true, value, hwalk]
    cases hget : n.fragment.attributes.get? k <;>
      simp [yields, hget, bind, Except.bind, Match.stringValue]
  rw [holds, hvalue, value]
  rfl

theorem holds_attributeTest (declared : List Declaration) (k v : String) (n : Node) :
    holds declared (attributeTest k v) n =
      .ok (decide ((n.fragment.attributes.get? k).getD "" = v)) :=
  holds_attribute declared k .equal v n

theorem admits_byAttribute {n : Node} (h : n.scope = Scope.empty) (declared : List Declaration)
    (q k v source : String) :
    admits declared ⟨false, .name q, none, [.condition source (attributeTest k v)]⟩ n =
      .ok (decide (n.fragment.name? = some q ∧ (n.fragment.attributes.get? k).getD "" = v)) := by
  rw [admits, holdAll_singleton, holds_attributeTest, passes_name_of_empty h]
  by_cases hname : n.fragment.name? = some q <;> simp [hname, bind, Except.bind]

end Walk

theorem evaluate_children {p : Path.Compiled} {q : String} {ps : List Predicate}
    (hp : p.steps = some [⟨false, .name q, none, ps⟩])
    (hps : ps.findSome? Predicate.position? = none) {t : Tree} (ht : t.stripped = t)
    {declared : List Declaration} {answer : Tree → Bool}
    (hanswer : ∀ n : Node, n.scope = Scope.empty →
      Walk.admits declared ⟨false, .name q, none, ps⟩ n = .ok (answer (Tree.ofRoot n.fragment)))
    (helement : ∀ f, answer (Tree.ofRoot f) = true → f.isElement = true) :
    p.evaluate t declared = .ok ((t.childTrees.filter answer).map .tree) := by
  obtain ⟨root⟩ := t
  cases root with
  | none => rfl
  | some root =>
    have hroot : root.stripped = root := Option.some.inj (congrArg Tree.root ht)
    obtain ⟨hfragments, hscopes⟩ := Node.children_of_stripped hroot
    generalize hnodes : (Node.ofRoot root).children = nodes at hfragments hscopes
    have hposition : Step.position? ⟨false, .name q, none, ps⟩ = none := hps
    have hselected : Walk.selected declared ⟨false, .name q, none, ps⟩ nodes =
        .ok (nodes.filter fun n => answer (Tree.ofRoot n.fragment)) :=
      (Walk.selected_eq_ok_iff hposition).mpr ⟨_, fun n hn => hanswer n (hscopes n hn), rfl⟩
    have hwalk : Walk.walkFrom declared [⟨false, .name q, none, ps⟩] (Node.ofRoot root) =
        .ok ((nodes.filter fun n => answer (Tree.ofRoot n.fragment)).map .node) := by
      change Walk.walk declared [⟨false, .name q, none, ps⟩] (Node.ofRoot root).children = _
      rw [hnodes, Walk.walk_last_nodes rfl, hselected]
      rfl
    have hpresent : ((nodes.filter fun n => answer (Tree.ofRoot n.fragment)).map Match.node).map
        Result.ofMatch =
          (nodes.filter fun n => answer (Tree.ofRoot n.fragment)).map fun n =>
            .tree (Tree.ofRoot n.fragment) := by
      rw [List.map_map]
      apply List.map_congr_left
      intro n hn
      obtain ⟨hn, hkept⟩ := List.mem_filter.mp hn
      rw [Function.comp_apply, Result.ofMatch_of_isElement (helement _ hkept),
        Node.asTree_of_empty (hscopes n hn)]
    have htrees : Tree.childTrees ⟨some root⟩ = nodes.map fun n => Tree.ofRoot n.fragment := by
      change root.children.map Tree.ofRoot = _
      rw [← hfragments, List.map_map]
      rfl
    simp only [Path.Compiled.evaluate, hp, hwalk]
    change Except.ok _ = _
    rw [hpresent, htrees, List.filter_map, List.map_map]
    rfl

/-- A path from a name, a key and a value in quotation marks selects, on a tree without
declarations, the children of the root that have the name and the value. A child without the
attribute has the empty value. -/
theorem evaluate_byAttribute {q k v : String} {mark : Char} (hq : QualifiedName q)
    (hdot : q.toList.head? ≠ some '.') (hk : QualifiedName k)
    (hmark : mark = '"' ∨ mark = '\'') (hv : mark ∉ v.toList) {t : Tree} (ht : t.stripped = t)
    (declared : List Declaration) :
    ∃ p, compile (byAttribute q k v mark) = .ok p ∧
      p.evaluate t declared = .ok ((t.childTrees.filter fun u =>
        u.rootName? = some q ∧ (u.rootAttribute? k).getD "" = v).map .tree) := by
  obtain ⟨source, hcompile⟩ := compile_byAttribute hq.isName hdot hk.isName hmark hv
  refine ⟨_, hcompile, evaluate_children rfl rfl ht ?_ ?_⟩
  · intro n hn
    rw [Walk.admits_byAttribute hn]
    rfl
  · intro f hf
    have hname : f.name? = some q := (of_decide_eq_true hf).1
    rw [Fragment.isElement, hname]
    rfl

/-- A value with the other quotation mark, a bracket, a slash, an operator and a line break. -/
theorem evaluate_byAttribute_odd :
    let element (name : String) (entries : List (String × String)) :=
      Fragment.element name (Dictionary.ofList entries)
    let v := "\"]/p:b[1] <= [\n"
    let found := [element "p:b" [("k", v)] [], element "p:b" [("j", ""), ("k", v)] [.text "x"]]
    let t := Tree.ofRoot (element "r" []
      ([element "b" [("k", v)] [], element "p:b" [] []] ++ found ++ [.text "y"]))
    QualifiedName "p:b" ∧ "p:b".toList.head? ≠ some '.' ∧ QualifiedName "k" ∧ '\'' ∉ v.toList ∧
      t.stripped = t ∧ ∃ p, Path.compile (byAttribute "p:b" "k" v '\'') = .ok p ∧
        p.evaluate t [⟨some "p", "urn:p"⟩] = .ok (found.map fun f => .tree (Tree.ofRoot f)) := by
  intro element v found t
  have hq : QualifiedName "p:b" := qualifiedName_of_isName rfl
  have hk : QualifiedName "k" := qualifiedName_of_isName rfl
  have hdot : "p:b".toList.head? ≠ some '.' := by decide
  have hv : '\'' ∉ v.toList := by decide
  have ht : t.stripped = t := by decide +kernel
  obtain ⟨p, hp, hfound⟩ := evaluate_byAttribute hq hdot hk (.inr rfl) hv ht [⟨some "p", "urn:p"⟩]
  have hkept : (t.childTrees.filter fun u =>
      u.rootName? = some "p:b" ∧ (u.rootAttribute? "k").getD "" = v) = found.map Tree.ofRoot := by
    decide +kernel
  rw [hkept, List.map_map] at hfound
  exact ⟨hq, hdot, hk, hv, ht, p, hp, hfound⟩

end MarkupTree

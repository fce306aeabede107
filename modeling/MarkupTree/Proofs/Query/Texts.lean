import MarkupTree.Proofs.Query.Requery

/-!
# The texts of a tree

The texts at and below a fragment, in document order. Its string value is these texts written one
after the other, and the path `//text()` finds them one by one below an element.
-/

set_option autoImplicit false

open MarkupTree.Path

namespace MarkupTree

namespace Fragment

mutual

def texts : Fragment → List String
  | .element _ _ children => textsOf children
  | .text content => [content]

def textsOf : List Fragment → List String
  | [] => []
  | f :: rest => texts f ++ textsOf rest

end

mutual

theorem stringValue_eq_join : (f : Fragment) → f.stringValue = String.join f.texts
  | .element _ _ children => by
    rw [stringValue, texts]
    exact stringValues_eq_join children
  | .text content => by
    rw [stringValue, texts, String.join_cons, String.join_nil, String.append_empty]

theorem stringValues_eq_join : (fs : List Fragment) → stringValues fs = String.join (textsOf fs)
  | [] => rfl
  | f :: rest => by
    rw [stringValues, textsOf, String.join_append, stringValue_eq_join f, stringValues_eq_join rest]

end

end Fragment

namespace Node

mutual

theorem filterMap_text?_preorder (address : List Nat) (scope : Scope) : (f : Fragment) →
    (preorder address scope f).filterMap (·.fragment.text?) = f.texts
  | .element _ _ children => by
    rw [preorder, Fragment.texts]
    exact filterMap_text?_preorders address scope 0 children
  | .text _ => by
    rw [preorder, Fragment.texts]
    rfl

theorem filterMap_text?_preorders (address : List Nat) (outer : Scope) (index : Nat) :
    (fs : List Fragment) →
      (preorders address outer index fs).filterMap (·.fragment.text?) = Fragment.textsOf fs
  | [] => by
    rw [preorders, Fragment.textsOf]
    rfl
  | f :: rest => by
    rw [preorders, Fragment.textsOf, List.filterMap_append,
      filterMap_text?_preorder (address ++ [index]) (outer.enter f) f,
      filterMap_text?_preorders address outer (index + 1) rest]

end

end Node

namespace Walk

variable {declared : List Declaration}

theorem passes_text (n : Node) : passes declared .text n = .ok n.fragment.text?.isSome := by
  unfold passes
  cases n.fragment <;> rfl

theorem admits_text (n : Node) :
    admits declared ⟨true, .text, none, []⟩ n = .ok n.fragment.text?.isSome := by
  unfold admits
  rw [holdAll]
  change (passes declared .text n >>= fun b => if b = true then .ok true else .ok false) = _
  rw [passes_text]
  cases n.fragment.text?.isSome <;> rfl

theorem walk_text (nodes : List Node) :
    walk declared [⟨true, .text, none, []⟩] nodes =
      .ok (((nodes.flatMap Node.subtree).filter (·.fragment.text?.isSome)).map .node) := by
  have hselected : selected declared ⟨true, .text, none, []⟩ nodes =
      .ok ((nodes.flatMap Node.subtree).filter (·.fragment.text?.isSome)) :=
    (selected_eq_ok_iff rfl).mpr ⟨_, fun n _ => admits_text n, rfl⟩
  rw [walk_last_nodes rfl, hselected]
  rfl

end Walk

theorem Result.ofMatch_text_nodes (nodes : List Node) :
    ((nodes.filter (·.fragment.text?.isSome)).map .node).map ofMatch =
      (nodes.filterMap (·.fragment.text?)).map .text := by
  induction nodes with
  | nil => rfl
  | cons n rest ih =>
    obtain ⟨address, f, scope⟩ := n
    cases f with
    | element => exact ih
    | text content => exact congrArg (Result.text content :: ·) ih

/-- Below an element, `//text()` finds every text once and in document order. -/
theorem evaluate_texts {root : Fragment} (h : root.isElement = true) :
    ∃ p, Path.compile "//text()" = .ok p ∧ ∀ declared,
      p.evaluate (Tree.ofRoot root) declared = .ok (root.texts.map .text) := by
  refine ⟨⟨"//text()", some [⟨true, .text, none, []⟩]⟩, rfl, ?_⟩
  intro declared
  cases root with
  | text => cases h
  | element name attributes children =>
    change (Walk.walk declared [⟨true, .text, none, []⟩] (Node.ofRoot _).children >>= _) = _
    rw [Walk.walk_text]
    change Except.ok (List.map Result.ofMatch _) = _
    rw [Result.ofMatch_text_nodes, Node.children, ← Node.preorders_eq_flatMap,
      Node.filterMap_text?_preorders, Fragment.texts]
    rfl

end MarkupTree

import MarkupTree.Proofs.Comparison
import MarkupTree.Proofs.Number.Whole
import MarkupTree.Proofs.Path.Enclosing
import MarkupTree.Proofs.Query.ByAttribute

/-!
# Comparing integers

The decimal text of an integer is a number to a comparison, and behind an operator in a path too. So
texts of integers are ordered as their doubles are, and up to 2 ^ 53, where every integer is a double,
a comparison in brackets keeps the elements whose integers compare so.
-/

set_option autoImplicit false

open MarkupTree.Path

namespace MarkupTree

namespace Path.Surface

theorem number_toString (v : Int) :
    number (toString v).toList = some (.number (toString v), []) := by
  have hsign : (if v < 0 then ['-'] else []) = [] ∨ (if v < 0 then ['-'] else []) = ['-'] := by
    split
    · exact .inr rfl
    · exact .inl rfl
  have hread := number_of_digits hsign (Decimal.repr_ne_nil v.natAbs)
    fun c => Decimal.isDigit_of_mem_repr
  rwa [← Decimal.toList_toString_int, String.ofList_toList] at hread

theorem inked_toString (v : Int) : Inked (toString v).toList := by
  have hread := number_toString v
  have hnames : ∀ c ∈ (toString v).toList, isNameChar c = true := by
    apply isNameChar_of_number (x := .number (toString v))
    exact ⟨[], by rwa [List.append_nil]⟩
  refine inked_of_forall ?_ fun c hc => not_isBlank_of_isNameChar (hnames c hc)
  intro hnil
  rw [hnil] at hread
  cases hread

end Path.Surface

namespace Comparison

def onIntegers (op : Comparison) (a b : Int) : Bool :=
  match op with
  | .equal => a = b
  | .unequal => a ≠ b
  | .less => a < b
  | .lessOrEqual => a ≤ b
  | .greater => b < a
  | .greaterOrEqual => b ≤ a

theorem number?_toString (v : Int) : number? (toString v) = Double.ofInt? v := by
  rw [number?, (Path.Surface.inked_toString v).trim_eq, Double.ofText?_toString]

/-- As far as doubles are finite, rounding may make integers equal but never swaps them. -/
theorem order_toString_ne_gt {a b : Int} (h : a ≤ b) (ha : (number? (toString a)).isSome)
    (hb : (number? (toString b)).isSome) : order (toString a) (toString b) ≠ .gt := by
  obtain ⟨x, hx⟩ := Option.isSome_iff_exists.mp ha
  obtain ⟨y, hy⟩ := Option.isSome_iff_exists.mp hb
  rw [order_of_number? hx hy]
  rw [number?_toString] at hx hy
  exact compare_le_iff_le.mpr (Double.toInt_mono h hx hy)

section Exact

variable {a b : Int} (ha : a.natAbs ≤ 2 ^ 53) (hb : b.natAbs ≤ 2 ^ 53)
include ha hb

theorem order_toString : order (toString a) (toString b) = compare a b := by
  obtain ⟨x, hx, hxa⟩ := Double.exists_ofInt?_of_le ha
  obtain ⟨y, hy, hyb⟩ := Double.exists_ofInt?_of_le hb
  rw [← number?_toString] at hx hy
  have hone : (0 : Int) < Double.one := by exact_mod_cast Double.one_pos
  rw [order_of_number? hx hy, hxa, hyb]
  rcases Int.lt_trichotomy a b with h | rfl | h
  · rw [compare_lt_iff_lt.mpr h, compare_lt_iff_lt.mpr (Int.mul_lt_mul_of_pos_right h hone)]
  · rw [compare_eq_iff_eq.mpr rfl, compare_eq_iff_eq.mpr rfl]
  · rw [compare_gt_iff_gt.mpr h, compare_gt_iff_gt.mpr (Int.mul_lt_mul_of_pos_right h hone)]

theorem toString_inj : toString a = toString b ↔ a = b := by
  constructor
  · intro h
    rw [← compare_eq_iff_eq, ← order_toString ha hb, h, order_toString hb hb, compare_eq_iff_eq]
  · exact congrArg toString

theorem holds_toString (op : Comparison) :
    op.holds (toString a) (toString b) = op.onIntegers a b := by
  have htexts := toString_inj ha hb
  cases op with
  | equal => simp only [holds, onIntegers, htexts]
  | unequal => simp only [holds, onIntegers, ne_eq, htexts]
  | less => simp only [holds, onIntegers, order_toString ha hb, compare_lt_iff_lt]
  | lessOrEqual => simp only [holds, onIntegers, order_toString ha hb, compare_le_iff_le]
  | greater => simp only [holds, onIntegers, order_toString ha hb, compare_gt_iff_gt]
  | greaterOrEqual => simp only [holds, onIntegers, order_toString ha hb, compare_ge_iff_ge]

end Exact

end Comparison

namespace Path

namespace Surface

/-- An attribute, an operator between blanks and an integer. -/
def attributeAgainst (k : String) (op : Comparison) (v : Int) : List Char :=
  '@' :: (k.toList ++ (spaced op ++ (toString v).toList))

def againstCondition (k : String) (op : Comparison) (v : Int) : Condition :=
  .comparison (String.ofList (attributeAgainst k op v)) (attributeText k) op (.number (toString v))

theorem condition_attributeAgainst {k : String} {u : List Char} {n : Nat} (hk : IsName k)
    (op : Comparison) (v : Int) (hu : Closes u) :
    condition (n + 1) (attributeAgainst k op v ++ u) = some (againstCondition k op v, u) := by
  have hink := inked_toString v
  have hgap : ∀ y ∈ ((toString v).toList ++ u).head?, isGap y = false := by
    rw [List.head?_append_of_ne_nil _ hink.1]
    exact fun y hy => not_isGap_of_not_isBlank (hink.2.1 y hy)
  have hcmp : comparand (condition n) (spaced op ++ ((toString v).toList ++ u)) =
      some ((op, .number (toString v)), u) :=
    comparand_spaced op hgap (operand_of_number (number_toString v) (stops_of_closes hu))
  have hcs : attributeAgainst k op v ++ u =
      '@' :: (k.toList ++ (spaced op ++ ((toString v).toList ++ u))) := by
    simp [attributeAgainst]
  apply condition_succ_eq_some.mpr
  refine ⟨attributeText k, _, ?_, .inl ⟨_, _, hcmp, ?_⟩⟩
  · rw [hcs]
    exact operand_attribute hk (stops_of_comparand hcmp)
  · rw [taken_append, againstCondition]

theorem resolveCondition_against (k : String) (op : Comparison) (v : Int) :
    resolveCondition (againstCondition k op v) =
      .ok (String.ofList (attributeAgainst k op v),
        .compare (.path [attributeStep false k]) op (.literal (toString v))) := by
  rw [againstCondition, resolveCondition, resolveOperand_attribute, resolveOperand, Text.trimmed,
    (inked_toString v).trim_eq, String.ofList_toList]
  rfl

end Surface

open Surface

/-- The attribute `n` of the items on which it compares so with an integer. -/
def itemStep (source : String) (op : Comparison) (pivot : Int) : Step :=
  ⟨false, .name "item", some "n", [.condition source
    (.compare (.path [attributeStep false "n"]) op (.literal (toString pivot)))]⟩

theorem compile_items (op : Comparison) (pivot : Int) :
    ∃ source, compile ("/item[@n " ++ op.symbol ++ " " ++ toString pivot ++ "]/@n") =
      .ok ⟨"/item[@n " ++ op.symbol ++ " " ++ toString pivot ++ "]/@n",
        some [itemStep source op pivot]⟩ := by
  let content := String.ofList (attributeAgainst "n" op pivot)
  let front := "/item[@n " ++ op.symbol ++ " " ++ toString pivot ++ "]"
  have hpath : front.toList = '/' :: ((if false then ['/'] else []) ++
      ((NameTest.name "item").display.toList ++ enclosed content)) := by
    simp [front, enclosed, NameTest.display, content, attributeAgainst, spaced]
  have hread : ∀ n u, content.toList.length < n →
      bracket (condition n) (enclosed content ++ u) =
        some (.condition (againstCondition "n" op pivot), u) := by
    intro n u hn
    obtain ⟨n, rfl⟩ : ∃ m, n = m + 1 := ⟨n - 1, by omega⟩
    have hread := condition_attributeAgainst (n := n) (u := ']' :: u) (rfl : IsName "n") op pivot rfl
    apply bracket_eq_some.mpr
    refine ⟨attributeAgainst "n" op pivot ++ ']' :: u, ']' :: u, ?_, rfl, .inr ⟨rfl, _, hread, rfl⟩⟩
    simp [enclosed, content]
  have hitem : (NameTest.name "item").Legible := IsName.legible (rfl : IsName "item") (by decide)
  have hne : front ≠ "" := by simp [front]
  have hsegs := ofPath?_enclosed hitem hpath hread
  have hparse := parse_enclosed hitem hpath hread (resolveCondition_against "n" op pivot)
  have hlast : (lastSegment? front).all Segment.isStep := by
    rw [lastSegment?, hsegs]
    rfl
  have hreads : compile "/@n" = .ok ⟨"/@n", some [attributeStep false "n"]⟩ := rfl
  have hitems := (compile_eq_ok hne).mpr ⟨_, hparse, rfl⟩
  obtain ⟨before, s, rest, hsteps, -, hrest, -, -, hboth⟩ :=
    compile_append hitems hreads hne (by decide) hlast
  obtain rfl := Option.some.inj hrest
  have hfront : [] ++ [_] = before ++ [s] := Option.some.inj hsteps
  obtain ⟨rfl, hs⟩ := List.append_inj' hfront rfl
  rw [← List.singleton_inj.mp hs] at hboth
  have hsplit : "/item[@n " ++ op.symbol ++ " " ++ toString pivot ++ "]/@n" = front ++ "/@n" := by
    apply String.toList_injective
    simp [front]
  rw [hsplit]
  exact ⟨_, hboth⟩

end Path

/-- An element `item` outside of all namespaces that has an integer for its attribute `n`. -/
structure Node.IsItem (n : Node) (v : Int) : Prop where
  name : n.fragment.name? = some "item"
  defaultUri : n.scope.defaultUri = none
  value : n.fragment.attributes.get? "n" = some (toString v)

/-- The children of the root are items, one for each integer, in their order. -/
def Tree.Lists (t : Tree) (vs : List Int) : Prop :=
  ∃ root, t.root = some root ∧ List.Forall₂ Node.IsItem (Node.ofRoot root).children vs

/-- A root with nothing but such items. -/
def Tree.listing (name : String) (vs : List Int) : Tree :=
  Tree.ofRoot (.element name Dictionary.empty
    (vs.map fun v => .element "item" (Dictionary.ofList [("n", toString v)]) []))

theorem Tree.lists_listing (name : String) (vs : List Int) : (listing name vs).Lists vs := by
  refine ⟨_, rfl, ?_⟩
  have henter : ∀ v : Int, Scope.empty.enter
      (.element "item" (Dictionary.ofList [("n", toString v)]) []) = Scope.empty := by
    intro v
    have hnone : Declaration.anyAmong (Dictionary.ofList [("n", toString v)]) = false := by
      change ["n"].any Declaration.isKey = false
      decide
    rw [Scope.enter, Scope.extend, Fragment.attributes, hnone, if_neg Bool.false_ne_true]
  have hitems : ∀ (ws : List Int) (index : Nat), List.Forall₂ Node.IsItem
      (Node.siblings [] Scope.empty index
        (ws.map fun v => .element "item" (Dictionary.ofList [("n", toString v)]) [])) ws := by
    intro ws
    induction ws with
    | nil => exact fun _ => .nil
    | cons v ws ih =>
      exact fun index => .cons ⟨rfl, congrArg Scope.defaultUri (henter v), rfl⟩ (ih (index + 1))
  exact hitems vs 0

namespace Walk

variable (declared : List Declaration) (op : Comparison) {pivot : Int}
variable (hpivot : pivot.natAbs ≤ 2 ^ 53) (source : String)

include hpivot

theorem admits_item {n : Node} {v : Int} (hn : n.IsItem v) (hv : v.natAbs ≤ 2 ^ 53) :
    admits declared (itemStep source op pivot) n = .ok (op.onIntegers v pivot) := by
  have hresolve : ∀ name ∈ n.fragment.name?, n.scope.resolve? name = none := by
    intro name hname
    rw [hn.name] at hname
    cases hname
    exact hn.defaultUri
  have hholds := holds_attribute declared "n" op (toString pivot) n
  rw [hn.value, Option.getD_some, Comparison.holds_toString hv hpivot] at hholds
  rw [admits, itemStep, holdAll_singleton, hholds, passes_name_of_resolve hresolve,
    decide_eq_true hn.name]
  rfl

variable {nodes : List Node} {vs : List Int} (h : List.Forall₂ Node.IsItem nodes vs)
variable (hvs : ∀ v ∈ vs, v.natAbs ≤ 2 ^ 53)

include h hvs

theorem keep_items :
    ∃ kept, keep (admits declared (itemStep source op pivot)) nodes = .ok kept ∧
      List.Forall₂ Node.IsItem kept (vs.filter (op.onIntegers · pivot)) := by
  induction h with
  | nil => exact ⟨[], rfl, .nil⟩
  | @cons n v nodes vs hn _ ih =>
    rw [List.forall_mem_cons] at hvs
    obtain ⟨kept, hkept, hitems⟩ := ih hvs.2
    rw [keep, admits_item declared op hpivot source hn hvs.1, hkept, List.filter_cons]
    cases op.onIntegers v pivot with
    | false => exact ⟨kept, rfl, hitems⟩
    | true => exact ⟨n :: kept, rfl, .cons hn hitems⟩

omit hpivot hvs in
theorem texts_of_items :
    (nodes.filterMap (yields (some "n"))).map Result.ofMatch =
      vs.map fun v => .text (toString v) := by
  induction h with
  | nil => rfl
  | @cons n v nodes vs hn _ ih =>
    have hyields : yields (some "n") n = some (.attribute n (toString v)) := by
      rw [yields, hn.value]
      rfl
    rw [List.filterMap_cons_some hyields, List.map_cons, ih]
    rfl

theorem walk_items :
    (walk declared [itemStep source op pivot] nodes).map (List.map Result.ofMatch) =
      .ok ((vs.filter (op.onIntegers · pivot)).map fun v => .text (toString v)) := by
  obtain ⟨kept, hkept, hitems⟩ := keep_items declared op hpivot source h hvs
  have hselected : selected declared (itemStep source op pivot) nodes = .ok kept := by
    have hnone : (itemStep source op pivot).position? = none := rfl
    rw [selected, candidates, itemStep, if_neg Bool.false_ne_true, ← itemStep, hkept, hnone]
    rfl
  rw [walk_last, hselected, ← texts_of_items hitems]
  rfl

end Walk

/-- Comparisons in brackets filter integers up to 2 ^ 53 as integers. Beyond that, as far as their
doubles are finite, the texts of integers are still in the order of the integers. -/
theorem integers_filter :
    (∀ (op : Comparison) (pivot : Int), pivot.natAbs ≤ 2 ^ 53 →
      ∃ p, Path.compile ("/item[@n " ++ op.symbol ++ " " ++ toString pivot ++ "]/@n") = .ok p ∧
        ∀ (t : Tree) (vs : List Int) (declared : List Declaration),
          t.Lists vs → (∀ v ∈ vs, v.natAbs ≤ 2 ^ 53) →
            p.evaluate t declared =
              .ok ((vs.filter (op.onIntegers · pivot)).map fun v => .text (toString v))) ∧
    (∀ v : Int, (Comparison.number? (toString v)).isSome ↔ v.natAbs < Double.wholeBound) ∧
    ∀ a b : Int, a ≤ b → (Comparison.number? (toString a)).isSome →
      (Comparison.number? (toString b)).isSome →
        Comparison.lessOrEqual.holds (toString a) (toString b) = true ∧
          Comparison.greater.holds (toString a) (toString b) = false := by
  refine ⟨?_, ?_, ?_⟩
  · intro op pivot hpivot
    obtain ⟨source, hcompile⟩ := compile_items op pivot
    refine ⟨_, hcompile, ?_⟩
    rintro ⟨_⟩ vs declared ⟨root, rfl, hitems⟩ hvs
    exact Walk.walk_items declared op hpivot source hitems hvs
  · intro v
    rw [Comparison.number?_toString, Double.isSome_ofInt?_iff]
  · intro a b h ha hb
    have horder := Comparison.order_toString_ne_gt h ha hb
    simp only [Comparison.holds, decide_eq_true_eq, decide_eq_false_iff_not]
    exact ⟨horder, horder⟩

/-- Numbers with different counts of digits and both signs, and the greatest and the least that are
covered; and 2 ^ 53 with its successor, which have one double. -/
theorem integers_filter_signed :
    let vs : List Int := [-9007199254740992, 10, -7, 9, -10, 0, 9007199254740992]
    let t := Tree.listing "list" vs
    t.Lists vs ∧ (∀ v ∈ vs, v.natAbs ≤ 2 ^ 53) ∧ (-7 : Int).natAbs ≤ 2 ^ 53 ∧
      (∃ p, Path.compile "/item[@n <= -7]/@n" = .ok p ∧
        p.evaluate t [] = .ok [.text "-9007199254740992", .text "-7", .text "-10"]) ∧
      (Comparison.number? (toString (9007199254740992 : Int))).isSome ∧
      (Comparison.number? (toString (9007199254740993 : Int))).isSome ∧
      Comparison.lessOrEqual.holds "9007199254740992" "9007199254740993" = true ∧
      Comparison.greater.holds "9007199254740992" "9007199254740993" = false := by
  intro vs t
  have hlists : t.Lists vs := Tree.lists_listing "list" vs
  have hvs : ∀ v ∈ vs, v.natAbs ≤ 2 ^ 53 := by decide
  obtain ⟨hfilter, hfinite, horder⟩ := integers_filter
  obtain ⟨p, hp, hfound⟩ := hfilter .lessOrEqual (-7) (by decide)
  have hlow := (hfinite 9007199254740992).mpr (by decide +kernel)
  have hhigh := (hfinite 9007199254740993).mpr (by decide +kernel)
  have hboth := horder _ _ (by decide) hlow hhigh
  have htexts : toString (9007199254740992 : Int) = "9007199254740992" ∧
      toString (9007199254740993 : Int) = "9007199254740993" := ⟨rfl, rfl⟩
  rw [htexts.1, htexts.2] at hboth
  exact ⟨hlists, hvs, by decide, ⟨p, hp, hfound t vs [] hlists hvs⟩, hlow, hhigh, hboth⟩

end MarkupTree

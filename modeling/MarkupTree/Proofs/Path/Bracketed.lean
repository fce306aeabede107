import MarkupTree.Proofs.Path.Folding
import MarkupTree.Proofs.Path.Legible

/-!
# Paths inside brackets

Behind a dot, every path may stand in brackets, alone or compared with a quoted text. There it has
the steps that it has on its own, and the empty path has the step that selects the context.
-/

set_option autoImplicit false

namespace MarkupTree.Path

namespace Surface

variable {p u : List Char} {segs : List Segment}

/-- What a dot and a path behind it are read as. -/
def dotted (p : List Char) (segs : List Segment) : Operand :=
  .path (String.ofList ('.' :: p)) (.self false :: segs)

/-- What a text in quotation marks is read as. -/
def quotedText (v : List Char) : Operand :=
  .quoted (String.ofList ('"' :: (v ++ ['"']))) (String.ofList v)

theorem operand_dot {n : Nat} (hp : (p = [] ∧ segs = []) ∨ ofPath? p = some segs)
    (hn : p.length ≤ n) (hu : stops u = true) :
    operand (condition n) ('.' :: (p ++ u)) =
      some (dotted p segs, u) := by
  obtain ⟨hbreaks, hslash⟩ := breaks_of_stops hu
  have hquoted : ending quoted ('.' :: (p ++ u)) = none := by
    rw [ending, quoted_eq_none (by decide)]
    rfl
  have hdigit : (p ++ u).head?.any Decimal.isDigit = false := by
    rw [anyDigit_append hbreaks.1]
    rcases hp with ⟨rfl, -⟩ | hp
    · rfl
    · rw [head_of_ofPath? hp]
      rfl
  have hnumber : number ('.' :: (p ++ u)) = none := by
    have hmantissa : skipMantissa? ('.' :: (p ++ u)) = none := by
      simp only [skipMantissa?, hdigit]
      rfl
    change (skipMantissa? ('.' :: (p ++ u))).bind _ = none
    rw [hmantissa]
    rfl
  have hread : path (condition n) ('.' :: (p ++ u)) =
      some (dotted p segs, u) := by
    have htaken := taken_append ('.' :: p) u
    rw [List.cons_append] at htaken
    exact path_eq_some.mpr ⟨_, segments_dot hp hbreaks hslash hn, by rw [htaken, dotted]⟩
  apply operand_eq_some.mpr
  refine .inr ⟨hquoted, .inr ⟨?_, .inl (ending_eq_some.mpr ⟨hread, ?_⟩)⟩⟩
  · rw [ending, hnumber]
    rfl
  · rw [endsOperand, hu]
    rfl

theorem condition_dot {n : Nat} (hp : (p = [] ∧ segs = []) ∨ ofPath? p = some segs)
    (hn : p.length ≤ n) (hu : Closes u) :
    condition (n + 1) ('.' :: (p ++ u)) =
      some (.single (String.ofList ('.' :: p)) (dotted p segs), u) := by
  have htaken := taken_append ('.' :: p) u
  rw [List.cons_append] at htaken
  apply condition_succ_eq_some.mpr
  refine ⟨_, u, operand_dot hp hn (stops_of_closes hu), .inr ⟨?_, rfl, by rw [htaken]⟩⟩
  simp [comparand, hu.comparison_eq_none]

theorem operand_quotation {c : Parser Condition} {mark : Char} (hmark : mark = '"' ∨ mark = '\'')
    {v : List Char} (hv : mark ∉ v) (hu : stops u = true) :
    operand c (mark :: (v ++ [mark] ++ u)) =
      some (.quoted (String.ofList (mark :: (v ++ [mark]))) (String.ofList v), u) := by
  rw [operand_quote hmark]
  apply ending_eq_some.mpr
  refine ⟨quoted_eq_some.mpr ⟨mark, v, hmark, hv, rfl, rfl⟩, ?_⟩
  rw [endsOperand, hu]
  rfl

def spaced (op : Comparison) : List Char := ' ' :: (op.symbol.toList ++ [' '])

theorem comparand_spaced {c : Parser Condition} (op : Comparison) {cs : List Char} {x : Operand}
    (hgap : ∀ y ∈ cs.head?, isGap y = false) (h : operand c cs = some (x, u)) :
    comparand c (spaced op ++ cs) = some ((op, x), u) := by
  have hskip : skipGap (spaced op ++ cs) = op.symbol.toList ++ ' ' :: cs := by
    cases op <;> simp [spaced, skipGap, isGap, Comparison.symbol]
  have hop : comparison (op.symbol.toList ++ ' ' :: cs) = some (op, ' ' :: cs) :=
    comparison_eq_some.mpr ⟨rfl, fun _ => by simp⟩
  have hbehind : skipGap (' ' :: cs) = cs := by
    cases cs with
    | nil => rfl
    | cons y cs => exact skipGap_cons (hgap y rfl) cs
  apply comparand_eq_some.mpr
  refine ⟨' ' :: cs, by rw [hskip, hop], ?_⟩
  rw [hbehind]
  exact h

/-- A blank, an operator, a blank and a quoted text. -/
def comparedWith (op : Comparison) (v : List Char) : List Char :=
  ' ' :: (op.symbol.toList ++ ' ' :: '"' :: (v ++ ['"']))

theorem comparand_comparedWith {c : Parser Condition} (op : Comparison) {v : List Char}
    (hv : '"' ∉ v) (hu : Closes u) :
    comparand c (comparedWith op v ++ u) =
      some ((op, quotedText v), u) := by
  have htext : comparedWith op v ++ u = spaced op ++ '"' :: (v ++ ['"'] ++ u) := by
    simp [comparedWith, spaced]
  rw [htext]
  apply comparand_spaced op (by rintro _ ⟨⟩; rfl)
  exact operand_quotation (.inl rfl) hv (stops_of_closes hu)

theorem condition_dot_comparedWith {n : Nat}
    (hp : (p = [] ∧ segs = []) ∨ ofPath? p = some segs) (hn : p.length ≤ n) (op : Comparison)
    {v : List Char} (hv : '"' ∉ v) (hu : Closes u) :
    condition (n + 1) ('.' :: (p ++ (comparedWith op v ++ u))) =
      some (.comparison (String.ofList ('.' :: p ++ comparedWith op v)) (dotted p segs) op
        (quotedText v), u) := by
  have hcmp : comparand (condition n) (comparedWith op v ++ u) = _ :=
    comparand_comparedWith op hv hu
  have htaken := taken_append ('.' :: p ++ comparedWith op v) u
  rw [List.append_assoc, List.cons_append] at htaken
  apply condition_succ_eq_some.mpr
  exact ⟨_, _, operand_dot hp hn (stops_of_comparand hcmp),
    .inl ⟨_, _, hcmp, by rw [htaken]⟩⟩

end Surface

/-- The steps that a path has as an operand of a condition. -/
def Compiled.innerSteps (c : Compiled) : List Step := c.steps.getD [Step.self]

theorem segments_of_compile {p : String} {c : Compiled} (h : compile p = .ok c) :
    ∃ segs more, ((p.toList = [] ∧ segs = []) ∨ Surface.ofPath? p.toList = some segs) ∧
      Surface.steps none false segs = .ok more ∧ orSelf more = c.innerSteps := by
  by_cases hp : p = ""
  · subst hp
    cases h
    exact ⟨[], [], .inl ⟨rfl, rfl⟩, Surface.steps_nil, rfl⟩
  · obtain ⟨found, hparse, rfl⟩ := (compile_eq_ok hp).mp h
    obtain ⟨segs, hsegs, hsteps, hne⟩ := parse_eq_ok.mp hparse
    refine ⟨segs, found, .inr hsegs, hsteps, ?_⟩
    rw [orSelf, if_neg (by simpa using hne)]
    rfl

open Surface

section Enclosed

variable {d : Bool} {test : NameTest} (htest : test.Legible) {path content : String}
variable {written : Surface.Condition} {source : String} {meaning : Condition}
variable (hpath : path.toList =
  '/' :: ((if d then ['/'] else []) ++ (test.display.toList ++ enclosed content)))
variable (h : ∀ n v, content.toList.length < n →
  bracket (condition n) (enclosed content ++ v) = some (.condition written, v))
include htest hpath h

theorem ofPath?_enclosed : ofPath? path.toList = some [.step d test [.condition written]] := by
  have hwritten : (Predicate.condition content (.present [])).WrittenAs (.condition written) := h
  have hread := ofPath?_step (d := d) htest (.cons hwritten .nil)
  rw [List.flatMap_cons, List.flatMap_nil, List.append_nil] at hread
  rw [hpath]
  exact hread

theorem parse_enclosed (hmeaning : resolveCondition written = .ok (source, meaning)) :
    parse path = .ok [⟨d, test, none, [.condition source meaning]⟩] := by
  have hpredicates : predicates false [.condition written] = .ok [.condition source meaning] := by
    rw [predicates, hmeaning, predicates]
    rfl
  have hsteps : steps none false [.step d test [.condition written]] =
      .ok [⟨d, test, none, [.condition source meaning]⟩] := by
    rw [steps_step test _ rfl, hpredicates, bind_eq_ok_iff]
    exact ⟨_, rfl, map_eq_ok_iff.mpr ⟨_, steps_nil, rfl⟩⟩
  exact parse_eq_ok.mpr ⟨_, ofPath?_enclosed htest hpath h, hsteps, List.cons_ne_nil _ _⟩

end Enclosed

theorem compile_every {content : String} {written : Surface.Condition} {source : String}
    {test : Condition} (hdot : content.toList.head? = some '.')
    (h : ∀ n v, content.toList.length ≤ n → Closes v →
      condition (n + 1) (content.toList ++ v) = some (written, v))
    (htest : resolveCondition written = .ok (source, test)) :
    compile ("//*[" ++ content ++ "]") =
      .ok ⟨"//*[" ++ content ++ "]", some [⟨true, .any, none, [.condition source test]⟩]⟩ := by
  obtain ⟨after, hafter⟩ := List.head?_eq_some_iff.mp hdot
  have hpath : ("//*[" ++ content ++ "]").toList =
      '/' :: ((if true then ['/'] else []) ++ (NameTest.any.display.toList ++ enclosed content)) := by
    simp [enclosed, NameTest.display]
  apply (compile_eq_ok (by simp)).mpr
  refine ⟨_, parse_enclosed legible_any hpath ?_ htest, rfl⟩
  intro n v hn
  obtain ⟨n, rfl⟩ : ∃ m, n = m + 1 := ⟨n - 1, by omega⟩
  have hread := h n (']' :: v) (by omega) rfl
  rw [hafter] at hread
  apply bracket_eq_some.mpr
  refine ⟨'.' :: (after ++ ']' :: v), ']' :: v, ?_, rfl, .inr ⟨rfl, written, hread, rfl⟩⟩
  simp [enclosed, hafter]

theorem isPathText_dot {p : List Char} {segs : List Segment}
    (hp : (p = [] ∧ segs = []) ∨ ofPath? p = some segs) :
    isPathText (String.ofList ('.' :: p)) = true := by
  rcases hp with ⟨rfl, -⟩ | hp
  · rfl
  · obtain ⟨after, rfl⟩ := List.head?_eq_some_iff.mp (head_of_ofPath? hp)
    simp [isPathText]

theorem resolveOperand_dotted {p : List Char} {segs : List Segment} {more : List Step}
    (hp : (p = [] ∧ segs = []) ∨ ofPath? p = some segs) (h : steps none false segs = .ok more) :
    resolveOperand (dotted p segs) = .ok (.path (orSelf more)) := by
  rw [dotted, resolveOperand, if_pos (isPathText_dot hp), steps_self false rfl, Bool.or_false, h]
  rfl

theorem compile_present {p : String} {c : Compiled} (h : compile p = .ok c) :
    ∃ path source, compile ("//*[." ++ p ++ "]") =
      .ok ⟨path, some [⟨true, .any, none, [.condition source (.present c.innerSteps)]⟩]⟩ := by
  obtain ⟨segs, more, hp, hsteps, hinner⟩ := segments_of_compile h
  have hcontent : "//*[." ++ p ++ "]" = "//*[" ++ String.ofList ('.' :: p.toList) ++ "]" := by
    apply String.toList_injective
    simp
  have htest : resolveCondition (.single (String.ofList ('.' :: p.toList)) (dotted p.toList segs)) =
      .ok (String.ofList ('.' :: p.toList), .present c.innerSteps) := by
    rw [dotted, resolveCondition, steps_self false rfl, Bool.or_false, hsteps, ← hinner]
    rfl
  rw [hcontent]
  refine ⟨_, _, compile_every (by simp) ?_ htest⟩
  intro n v hn hv
  rw [String.toList_ofList] at hn ⊢
  exact condition_dot hp (Nat.le_trans (Nat.le_succ _) hn) hv

theorem compile_compare {p : String} {c : Compiled} (h : compile p = .ok c) (op : Comparison)
    {v : String} (hv : '"' ∉ v.toList) :
    ∃ path source, compile ("//*[." ++ p ++ " " ++ op.symbol ++ " \"" ++ v ++ "\"]") =
      .ok ⟨path, some [⟨true, .any, none,
        [.condition source (.compare (.path c.innerSteps) op (.literal v))]⟩]⟩ := by
  obtain ⟨segs, more, hp, hsteps, hinner⟩ := segments_of_compile h
  have hcontent : "//*[." ++ p ++ " " ++ op.symbol ++ " \"" ++ v ++ "\"]" =
      "//*[" ++ String.ofList ('.' :: p.toList ++ comparedWith op v.toList) ++ "]" := by
    apply String.toList_injective
    simp [comparedWith]
  have htest : resolveCondition
      (.comparison (String.ofList ('.' :: p.toList ++ comparedWith op v.toList))
        (dotted p.toList segs) op (quotedText v.toList)) =
          .ok (String.ofList ('.' :: p.toList ++ comparedWith op v.toList),
            .compare (.path c.innerSteps) op (.literal v)) := by
    rw [resolveCondition, resolveOperand_dotted hp hsteps, hinner, quotedText, resolveOperand,
      String.ofList_toList]
    rfl
  rw [hcontent]
  refine ⟨_, _, compile_every (by simp) ?_ htest⟩
  intro n v' hn hv'
  rw [String.toList_ofList] at hn ⊢
  have hlen : p.toList.length ≤ n := by
    simp only [List.cons_append, List.length_cons, List.length_append] at hn
    omega
  rw [List.append_assoc]
  exact condition_dot_comparedWith hp hlen op hv hv'

end MarkupTree.Path

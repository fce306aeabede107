import MarkupTree.Path.Error

/-!
# From written paths to steps

Segments are folded into steps from left to right: a dot disappears, an attribute joins the step
before it, and a double slash lasts until a step uses it up. What the form of a path does not show
is checked here, and the first offence counts.
-/

namespace MarkupTree.Path

def maxPosition : Nat := Nat.pow 2 64 - 1

/-- Whether the text of an unquoted operand makes it a path rather than a literal. -/
def isPathText (text : String) : Bool :=
  let cs := text.toList
  text == "." || "./".toList.isPrefixOf cs || cs.contains '@' || "text()".toList.isSuffixOf cs

/-- A path without steps selects the context. -/
def orSelf (steps : List Step) : List Step := if steps.isEmpty then [Step.self] else steps

namespace Surface

def Segment.isDescendant : Segment → Bool
  | .attribute descendant _ => descendant
  | .self descendant => descendant
  | .step descendant _ _ => descendant

def Operand.source : Operand → String
  | .quoted source _ => source
  | .number source => source
  | .path source _ => source
  | .bare source => source

/-- The step of an attribute that no step before it takes. -/
def attributeStep (descendant : Bool) (name : String) : Step :=
  ⟨descendant, if descendant then .any else .context, some name, []⟩

mutual

/-- The steps of some segments after a last step `last`, which is not yet among them, and after a
double slash if `descendant` holds. -/
def steps (last : Option Step) (descendant : Bool) : List Segment → Except Reason (List Step)
  | [] => .ok last.toList
  | s :: rest =>
    if last.any (·.reads.isSome) then .error .attributeNotLast
    else
      match s with
      | .self d => steps last (descendant || d) rest
      | .attribute d name =>
        match last, descendant || d with
        | some step, false => steps (some { step with reads := some name }) false rest
        | last, descendant => do
          .ok (last.toList ++ (← steps (some (attributeStep descendant name)) false rest))
      | .step d test brackets => do
        let step := ⟨descendant || d, test, none, ← predicates false brackets⟩
        .ok (last.toList ++ (← steps (some step) false rest))

/-- The predicates of a step, of which one that comes before may have been a position. -/
def predicates (positioned : Bool) : List Bracket → Except Reason (List Predicate)
  | [] => .ok []
  | .position digits :: rest => do
    let n := Decimal.ofDigits digits.toList
    if maxPosition < n then .error (.positionOutOfRange digits)
    else if positioned then .error .secondPosition
    else .ok (.position n :: (← predicates true rest))
  | .condition written :: rest => do
    let (source, test) ← resolveCondition written
    .ok (.condition source test :: (← predicates positioned rest))

def resolveCondition : Condition → Except Reason (String × Path.Condition)
  | .single source operand =>
    match operand with
    | .path _ segments => do
      .ok (source, .present (orSelf (← steps none false segments)))
    | operand => .error (.notACondition operand.source)
  | .comparison source lhs op rhs => do
    .ok (source, .compare (← resolveOperand lhs) op (← resolveOperand rhs))

def resolveOperand : Operand → Except Reason Path.Operand
  | .quoted _ content => .ok (.literal content)
  | .number source => .ok (.literal (Text.trimmed source))
  | .bare source => .ok (.literal (Text.trimmed source))
  | .path source segments =>
    if isPathText source then do .ok (.path (orSelf (← steps none false segments)))
    else .ok (.literal (Text.trimmed source))

end

end Surface

end MarkupTree.Path

import MarkupTree.Path.Diagnosis
import MarkupTree.Text.Quoted

/-!
# Refused paths

Why a text is no path: it does not have the form of one, or it breaks a rule that the form alone
does not show.
-/

namespace MarkupTree.Path

inductive Reason
  | malformed (form : Rule) (text : String)
  | noStep
  | attributeNotLast
  | secondPosition
  | positionOutOfRange (digits : String)
  | notACondition (operand : String)
deriving DecidableEq, Repr

/-- The form that a text fails to have. -/
def Reason.isForm : Reason → Bool
  | .malformed _ _ => true
  | _ => false

def Reason.text : Reason → String
  | .malformed form text => Diagnosis.explain form text
  | .noStep => "the path selects no step"
  | .attributeNotLast => "an attribute step must be the last step"
  | .secondPosition => "a step takes at most one positional predicate"
  | .positionOutOfRange digits => "position " ++ digits ++ " out of range"
  | .notACondition operand =>
    Text.quoted operand ++ " is neither a comparison nor a relative path"

/-- The path that is refused, which may only contain the text at fault. -/
structure Error where
  path : String
  reason : Reason
deriving DecidableEq, Repr

def Error.message (e : Error) : String :=
  Text.quoted e.path ++ " is not a valid path: " ++ e.reason.text

end MarkupTree.Path

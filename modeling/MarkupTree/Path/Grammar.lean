import MarkupTree.Path.Surface

/-!
# The grammar of paths as data

The rules that `Path.Surface` reads by, written as expressions of a grammar with ordered choice and
greedy repetition. It serves to say what was expected where a text is refused: the rules here are
those that a message can name, all other pieces are expanded in place.
-/

namespace MarkupTree.Path

/-- The named rules, in the order in which a message lists them. -/
inductive Rule
  | endOfInput
  | path
  | relative
  | wholeCondition
  | descendant
  | child
  | attributeStep
  | selfStep
  | step
  | textTest
  | anyNamespace
  | anyElement
  | qualifiedName
  | localName
  | predicate
  | position
  | condition
  | comparison
  | pathOperand
  | number
  | bareLiteral
  | stringLiteral
  | doubleQuoted
  | singleQuoted
deriving DecidableEq, Repr

inductive Grammar
  | one (p : Char → Bool)
  | literal (text : String)
  | nothingLeft
  | both (a b : Grammar)
  | either (a b : Grammar)
  | many (a : Grammar)
  | perhaps (a : Grammar)
  | unless (a : Grammar)
  | ahead (a : Grammar)
  | rule (r : Rule)

namespace Rule

def all : List Rule :=
  [.endOfInput, .path, .relative, .wholeCondition, .descendant, .child, .attributeStep, .selfStep,
    .step, .textTest, .anyNamespace, .anyElement, .qualifiedName, .localName, .predicate,
    .position, .condition, .comparison, .pathOperand, .number, .bareLiteral, .stringLiteral,
    .doubleQuoted, .singleQuoted]

/-- What a message calls a rule. -/
def title : Rule → String
  | .endOfInput => "end of input"
  | .path => "path"
  | .relative => "relative"
  | .wholeCondition => "condition_expr"
  | .descendant => "'/'"
  | .child => "'/'"
  | .attributeStep => "attribute"
  | .selfStep => "'.'"
  | .step => "name"
  | .textTest => "text()"
  | .anyNamespace => "wildcard"
  | .anyElement => "wildcard"
  | .qualifiedName => "name"
  | .localName => "name"
  | .predicate => "'['"
  | .position => "position"
  | .condition => "operand"
  | .comparison => "comparison operator"
  | .pathOperand => "operand"
  | .number => "operand"
  | .bareLiteral => "operand"
  | .stringLiteral => "operand"
  | .doubleQuoted => "dq_inner"
  | .singleQuoted => "sq_inner"

/-- The rules whose inner attempts are not told. -/
def isAtomic : Rule → Bool
  | .qualifiedName => true
  | .localName => true
  | .position => true
  | .number => true
  | .bareLiteral => true
  | .doubleQuoted => true
  | .singleQuoted => true
  | _ => false

end Rule

namespace Grammar

/-- One piece after the other. -/
def chain : List Grammar → Grammar
  | [] => .literal ""
  | [a] => a
  | a :: rest => .both a (chain rest)

/-- The first piece that fits. -/
def choice : List Grammar → Grammar
  | [] => .unless (.literal "")
  | [a] => a
  | a :: rest => .either a (choice rest)

def atLeastOnce (a : Grammar) : Grammar := .both a (.many a)

def anyChar : Grammar := .one fun _ => true

def digit : Grammar := .one Decimal.isDigit

def nameChar : Grammar := .one Surface.isNameChar

def gap : Grammar := .many (.one Surface.isGap)

def separator : Grammar := .either (.rule .descendant) (.rule .child)

def segment : Grammar := choice [.rule .attributeStep, .rule .selfStep, .rule .step]

def steps : Grammar := .both segment (.many (.both separator segment))

def nameTest : Grammar :=
  choice [.rule .textTest, .rule .anyNamespace, .rule .anyElement, .rule .qualifiedName]

def operandEnd : Grammar :=
  .both gap (choice [.rule .comparison, .literal "]", .rule .endOfInput])

def operand : Grammar :=
  choice [
    .both (.rule .stringLiteral) (.ahead operandEnd),
    .both (.rule .number) (.ahead operandEnd),
    .both (.rule .pathOperand) (.ahead operandEnd),
    .rule .bareLiteral]

def quotation : Grammar := choice [.literal "[", .literal "\"", .literal "'"]

end Grammar

open Grammar in
/-- The right-hand sides. -/
def Rule.body : Rule → Grammar
  | .endOfInput => .nothingLeft
  | .path => chain [separator, segment, .many (.both separator segment), .rule .endOfInput]
  | .relative => .both (.perhaps steps) (.rule .endOfInput)
  | .wholeCondition => chain [gap, .rule .condition, gap, .rule .endOfInput]
  | .descendant => .literal "//"
  | .child => .literal "/"
  | .attributeStep => .both (.literal "@") (.rule .qualifiedName)
  | .selfStep => .both (.literal ".") (.unless nameChar)
  | .step => .both nameTest (.many (.rule .predicate))
  | .textTest => .literal "text()"
  | .anyNamespace => .both (.literal "*:") (.rule .localName)
  | .anyElement => .literal "*"
  | .qualifiedName =>
    .both (.rule .localName) (.many (.both (.literal ":") (.rule .localName)))
  | .localName => atLeastOnce nameChar
  | .predicate =>
    chain [.literal "[", gap, .either (.rule .position) (.rule .condition), gap, .literal "]"]
  | .position => .both (atLeastOnce digit) (.ahead (.both gap (.literal "]")))
  | .condition => .both operand (.perhaps (chain [gap, .rule .comparison, gap, operand]))
  | .comparison =>
    choice [.literal "!=", .literal "<=", .literal ">=", .literal "=", .literal "<", .literal ">"]
  | .pathOperand => steps
  | .number =>
    chain [
      .perhaps (.literal "-"),
      .either
        (.both (atLeastOnce digit) (.perhaps (.both (.literal ".") (.many digit))))
        (.both (.literal ".") (atLeastOnce digit)),
      .perhaps (chain [
        .one fun c => c == 'e' || c == 'E',
        .perhaps (.either (.literal "+") (.literal "-")),
        atLeastOnce digit])]
  | .bareLiteral =>
    atLeastOnce (chain [
      .unless (.both gap (.either (.rule .comparison) (.literal "]"))),
      .unless quotation,
      anyChar])
  | .stringLiteral =>
    .either
      (chain [.literal "\"", .rule .doubleQuoted, .literal "\""])
      (chain [.literal "'", .rule .singleQuoted, .literal "'"])
  | .doubleQuoted => .many (.both (.unless (.literal "\"")) anyChar)
  | .singleQuoted => .many (.both (.unless (.literal "'")) anyChar)

end MarkupTree.Path

import MarkupTree.Path.Step
import MarkupTree.Text.Blank

/-!
# Written paths

A path as it is written: segments with the separators before them, predicates and operands with
their texts, before any of it is made sense of. The readers work on lists of characters; each takes
a longest piece off the front and never gives back what a repetition inside it has taken.

Conditions nest inside brackets, so the reader of what stands in brackets is an argument of every
reader here, and `Surface.condition` ties the knot at a nesting depth.
-/

namespace MarkupTree.Path.Surface

mutual

/-- A segment, and whether the separator before it is the double slash. -/
inductive Segment
  | attribute (descendant : Bool) (name : String)
  | self (descendant : Bool)
  | step (descendant : Bool) (test : NameTest) (predicates : List Bracket)

inductive Bracket
  | position (digits : String)
  | condition (written : Condition)

inductive Condition
  | single (source : String) (operand : Operand)
  | comparison (source : String) (lhs : Operand) (op : Comparison) (rhs : Operand)

inductive Operand
  | quoted (source content : String)
  | number (source : String)
  | path (source : String) (segments : List Segment)
  | bare (source : String)

end

abbrev Parser (α : Type) := List Char → Option (α × List Char)

/-- What a reader took off the front. -/
def taken (cs rest : List Char) : String := String.ofList (cs.take (cs.length - rest.length))

/-- Reads as many items as there are; at most `fuel`, and every item takes a character. -/
def repeated {α : Type} (item : Parser α) : (fuel : Nat) → List Char → List α × List Char
  | 0, cs => ([], cs)
  | fuel + 1, cs =>
    match item cs with
    | none => ([], cs)
    | some (x, rest) =>
      let (xs, left) := repeated item fuel rest
      (x :: xs, left)

/-- The blanks that may stand around what is in brackets. -/
def isGap (c : Char) : Bool := c == ' ' || c == '\t' || c == '\r' || c == '\n'

def skipGap (cs : List Char) : List Char := cs.dropWhile isGap

/-- The characters with a meaning of their own. -/
def reserved : List Char := "/[]()@\"'=<>!*:".toList

def isNameChar (c : Char) : Bool := !reserved.contains c && !Text.isBlank c

def startsName (cs : List Char) : Bool := cs.head?.any isNameChar

def localName : Parser String := fun cs =>
  if startsName cs then some (String.ofList (cs.takeWhile isNameChar), cs.dropWhile isNameChar)
  else none

/-- The longest run of name characters and of single colons before name characters. -/
def nameRun : List Char → List Char × List Char
  | [] => ([], [])
  | c :: cs =>
    if isNameChar c || (c == ':' && startsName cs) then
      let (run, rest) := nameRun cs
      (c :: run, rest)
    else ([], c :: cs)

/-- One or more local names with single colons between them. -/
def qualifiedName : Parser String := fun cs =>
  if startsName cs then
    let (run, rest) := nameRun cs
    some (String.ofList run, rest)
  else none

def nameTest : Parser NameTest := fun cs =>
  match "text()".toList.isPrefixOf? cs with
  | some rest => some (.text, rest)
  | none =>
    match cs with
    | '*' :: ':' :: rest =>
      match localName rest with
      | some (name, rest) => some (.anyNamespace name, rest)
      | none => some (.any, ':' :: rest)
    | '*' :: rest => some (.any, rest)
    | cs => (qualifiedName cs).map fun (name, rest) => (.name name, rest)

def separator : Parser Bool
  | '/' :: '/' :: rest => some (true, rest)
  | '/' :: rest => some (false, rest)
  | _ => none

/-- Digits that fill their brackets. -/
def position : Parser String := fun cs =>
  let digits := cs.takeWhile Decimal.isDigit
  let rest := cs.dropWhile Decimal.isDigit
  if !digits.isEmpty && (skipGap rest).head? == some ']' then some (String.ofList digits, rest)
  else none

def bracket (condition : Parser Condition) : Parser Bracket
  | '[' :: cs => do
    let (content, rest) ←
      match position (skipGap cs) with
      | some (digits, rest) => some (Bracket.position digits, rest)
      | none => (condition (skipGap cs)).map fun (c, rest) => (Bracket.condition c, rest)
    match skipGap rest with
    | ']' :: rest => some (content, rest)
    | _ => none
  | _ => none

def brackets (condition : Parser Condition) (cs : List Char) : List Bracket × List Char :=
  repeated (bracket condition) cs.length cs

/-- A dot that no name character follows stands for the context. -/
def segment (condition : Parser Condition) (descendant : Bool) : Parser Segment := fun cs =>
  match cs with
  | '@' :: rest => (qualifiedName rest).map fun (name, rest) => (.attribute descendant name, rest)
  | '.' :: rest =>
    if startsName rest then named cs else some (.self descendant, rest)
  | _ => named cs
where
  named (cs : List Char) : Option (Segment × List Char) := do
    let (test, rest) ← nameTest cs
    let (predicates, rest) := brackets condition rest
    some (.step descendant test predicates, rest)

def separated (condition : Parser Condition) : Parser Segment := fun cs => do
  let (descendant, rest) ← separator cs
  segment condition descendant rest

def segments (condition : Parser Condition) : Parser (List Segment) := fun cs => do
  let (first, rest) ← segment condition false cs
  let (more, rest) := repeated (separated condition) rest.length rest
  some (first :: more, rest)

def comparison : Parser Comparison
  | '!' :: '=' :: rest => some (.unequal, rest)
  | '<' :: '=' :: rest => some (.lessOrEqual, rest)
  | '>' :: '=' :: rest => some (.greaterOrEqual, rest)
  | '=' :: rest => some (.equal, rest)
  | '<' :: rest => some (.less, rest)
  | '>' :: rest => some (.greater, rest)
  | _ => none

/-- Whether an operator or the closing bracket comes next, after blanks. -/
def stops (cs : List Char) : Bool :=
  let rest := skipGap cs
  (comparison rest).isSome || rest.head? == some ']'

def endsOperand (cs : List Char) : Bool := stops cs || (skipGap cs).isEmpty

def quoted : Parser Operand := fun cs =>
  match cs with
  | q :: rest =>
    if q == '"' || q == '\'' then
      match rest.dropWhile (· != q) with
      | [] => none
      | _ :: after =>
        some (.quoted (taken cs after) (String.ofList (rest.takeWhile (· != q))), after)
    else none
  | [] => none

/-- The exponent part of a number; nothing is taken where none is complete. -/
def skipExponent (cs : List Char) : List Char :=
  match cs with
  | c :: rest =>
    if c == 'e' || c == 'E' then
      let digits := (Decimal.sign rest).2
      if digits.head?.any Decimal.isDigit then digits.dropWhile Decimal.isDigit else cs
    else cs
  | [] => []

def skipMantissa? (cs : List Char) : Option (List Char) :=
  if cs.head?.any Decimal.isDigit then
    match cs.dropWhile Decimal.isDigit with
    | '.' :: rest => some (rest.dropWhile Decimal.isDigit)
    | rest => some rest
  else
    match cs with
    | '.' :: rest =>
      if rest.head?.any Decimal.isDigit then some (rest.dropWhile Decimal.isDigit) else none
    | _ => none

def number : Parser Operand := fun cs => do
  let unsigned := match cs with
    | '-' :: rest => rest
    | _ => cs
  let rest := skipExponent (← skipMantissa? unsigned)
  some (.number (taken cs rest), rest)

def path (condition : Parser Condition) : Parser Operand := fun cs => do
  let (segments, rest) ← segments condition cs
  some (.path (taken cs rest) segments, rest)

/-- The longest run of characters up to an operator, a quotation mark or a bracket. -/
def bareRun : List Char → List Char × List Char
  | [] => ([], [])
  | c :: cs =>
    if stops (c :: cs) || c == '[' || c == '"' || c == '\'' then ([], c :: cs)
    else
      let (run, rest) := bareRun cs
      (c :: run, rest)

def bare : Parser Operand := fun cs =>
  match bareRun cs with
  | ([], _) => none
  | (run, rest) => some (.bare (String.ofList run), rest)

/-- What a reader reads, where an operand may end after it. -/
def ending (p : Parser Operand) : Parser Operand := fun cs =>
  (p cs).filter fun (_, rest) => endsOperand rest

/-- The first of the four kinds that reads up to the end of an operand; a bare text always does. -/
def operand (condition : Parser Condition) : Parser Operand := fun cs =>
  (ending quoted cs).or ((ending number cs).or ((ending (path condition) cs).or (bare cs)))

def comparand (condition : Parser Condition) : Parser (Comparison × Operand) := fun cs => do
  let (op, rest) ← comparison (skipGap cs)
  let (rhs, rest) ← operand condition (skipGap rest)
  some ((op, rhs), rest)

/-- A condition in which brackets nest less than `depth` deep. -/
def condition : (depth : Nat) → Parser Condition
  | 0 => fun _ => none
  | depth + 1 => fun cs => do
    let (lhs, rest) ← operand (condition depth) cs
    match comparand (condition depth) rest with
    | some ((op, rhs), rest) => some (.comparison (taken cs rest) lhs op rhs, rest)
    | none => some (.single (taken cs rest) lhs, rest)

def whole {α : Type} (p : Parser α) (cs : List Char) : Option α :=
  match p cs with
  | some (x, []) => some x
  | _ => none

/-- A condition that may nest as deep as a text is long. -/
def conditionOf (cs : List Char) : Parser Condition := condition (cs.length + 1)

/-- The segments of a path that starts with a separator. -/
def ofPath? (cs : List Char) : Option (List Segment) :=
  whole (fun cs => do
    let (first, rest) ← separated (conditionOf cs) cs
    let (more, rest) := repeated (separated (conditionOf cs)) rest.length rest
    some (first :: more, rest)) cs

/-- The segments of a path that starts at a context; there may be none. -/
def ofRelative? (cs : List Char) : Option (List Segment) :=
  if cs.isEmpty then some [] else whole (segments (conditionOf cs)) cs

def ofCondition? (cs : List Char) : Option Condition :=
  match conditionOf cs (skipGap cs) with
  | some (c, rest) => if (skipGap rest).isEmpty then some c else none
  | none => none

end MarkupTree.Path.Surface

import MarkupTree.Json.Basic
import MarkupTree.Number.Decimal

/-!
# Reading JSON

Readers over lists of characters. A reader takes a value off the front of a text and gives what is
left, or the first fault it meets from left to right. Arrays and objects may nest up to a depth
that the caller gives; what lies deeper is a fault.

A value that nobody needs is skimmed: its shape is checked, but not the range of its numbers or the
pairing of its surrogates.
-/

namespace MarkupTree.Json

/-- Why a text is refused: it is no JSON, it ends too early, or it is JSON of the wrong shape. -/
inductive Fault
  | malformed
  | truncated
  | mismatched
deriving DecidableEq, Repr

abbrev Reader (α : Type) := List Char → Except Fault (α × List Char)

/-- How carefully a value is read. -/
inductive Care
  | full
  | skim
deriving DecidableEq

namespace Reader

def isSpace (c : Char) : Bool := c == ' ' || c == '\t' || c == '\n' || c == '\r'

def skipSpace (cs : List Char) : List Char := cs.dropWhile isSpace

def word : List Char → Reader Unit
  | [], cs => .ok ((), cs)
  | _ :: _, [] => .error .truncated
  | w :: ws, c :: cs => if w = c then word ws cs else .error .malformed

def hexValue? (c : Char) : Option Nat :=
  if '0' ≤ c ∧ c ≤ '9' then some (c.toNat - '0'.toNat)
  else if 'a' ≤ c ∧ c ≤ 'f' then some (c.toNat - 'a'.toNat + 10)
  else if 'A' ≤ c ∧ c ≤ 'F' then some (c.toNat - 'A'.toNat + 10)
  else none

/-- Four hexadecimal digits. Whether the text ends too early is decided by its length in bytes. -/
def fourHex (cs : List Char) : Except Fault Nat :=
  match cs.take 4 with
  | [a, b, c, d] =>
    match hexValue? a, hexValue? b, hexValue? c, hexValue? d with
    | some a, some b, some c, some d => .ok (a * 4096 + b * 256 + c * 16 + d)
    | _, _, _, _ => .error .malformed
  | short => if (String.ofList short).utf8ByteSize < 4 then .error .truncated else .error .malformed

def isHighSurrogate (n : Nat) : Bool := 0xD800 ≤ n && n ≤ 0xDBFF

def isLowSurrogate (n : Nat) : Bool := 0xDC00 ≤ n && n ≤ 0xDFFF

/-- The second half of a surrogate pair, written as another escape: the whole character. -/
def lowSurrogate (high : Nat) : List Char → Except Fault Char
  | [] => .error .truncated
  | ['\\'] => .error .truncated
  | '\\' :: 'u' :: rest => do
    let low ← fourHex rest
    if isLowSurrogate low then
      .ok (Char.ofNat ((high - 0xD800) * 0x400 + (low - 0xDC00) + 0x10000))
    else .error .malformed
  | _ => .error .malformed

/-- The character an escape of four digits stands for, and how many characters of the text after
the letter u it takes. -/
def unicodeEscape (care : Care) (cs : List Char) : Except Fault (Char × Nat) := do
  let n ← fourHex cs
  match care with
  | .skim => .ok (Char.ofNat n, 4)
  | .full =>
    if isLowSurrogate n then .error .malformed
    else if isHighSurrogate n then
      let c ← lowSurrogate n (cs.drop 4)
      .ok (c, 10)
    else .ok (Char.ofNat n, 4)

def simpleEscape? (c : Char) : Option Char :=
  match c with
  | '"' => some '"'
  | '\\' => some '\\'
  | '/' => some '/'
  | 'b' => some (Char.ofNat 8)
  | 'f' => some (Char.ofNat 12)
  | 'n' => some '\n'
  | 'r' => some '\r'
  | 't' => some '\t'
  | _ => none

/-- The rest of a string after its opening quotation mark. The characters read so far come
reversed, and the first `skip` characters belong to an escape that is read already. -/
def stringBody (care : Care) (read : List Char) : (skip : Nat) → Reader String
  | _, [] => .error .truncated
  | skip + 1, _ :: rest => stringBody care read skip rest
  | 0, c :: rest =>
    if c = '"' then .ok (String.ofList read.reverse, rest)
    else if c = '\\' then
      match rest with
      | [] => .error .truncated
      | e :: after =>
        if e = 'u' then
          match unicodeEscape care after with
          | .error f => .error f
          | .ok (x, taken) => stringBody care (x :: read) (taken + 1) rest
        else
          match simpleEscape? e with
          | some x => stringBody care (x :: read) 1 rest
          | none => .error .malformed
    else if c.toNat < 32 then .error .malformed
    else stringBody care (c :: read) 0 rest

/-- The parts of a written number: its digits before the point, after it, and its exponent. -/
structure Numeral where
  negative : Bool
  whole : List Char
  part : Option (List Char)
  exponent : Option Int

def someDigits (care : Care) (cs : List Char) : Except Fault (List Char × List Char) :=
  match cs with
  | [] => .error (if care = .full then .truncated else .malformed)
  | c :: _ =>
    if Decimal.isDigit c then .ok (cs.takeWhile Decimal.isDigit, cs.dropWhile Decimal.isDigit)
    else .error .malformed

/-- The digits before the point: no zero stands before another digit. -/
def wholeDigits (care : Care) (cs : List Char) : Except Fault (List Char × List Char) := do
  let (ds, rest) ← someDigits care cs
  if ds.head? = some '0' ∧ 1 < ds.length then .error .malformed else .ok (ds, rest)

def numeral (care : Care) : Reader Numeral := fun cs => do
  let negative := cs.head? = some '-'
  let (whole, rest) ← wholeDigits care (if negative then cs.drop 1 else cs)
  let (part, rest) ←
    match rest with
    | '.' :: rest => (someDigits care rest).map fun (ds, rest) => (some ds, rest)
    | _ => .ok (none, rest)
  let (exponent, rest) ←
    match rest with
    | c :: after =>
      if c = 'e' ∨ c = 'E' then
        let (minus, ds) := Decimal.sign after
        (someDigits care ds).map fun (ds, rest) =>
          (some (if minus then -(Decimal.ofDigits ds : Int) else Decimal.ofDigits ds), rest)
      else .ok (none, rest)
    | [] => .ok (none, rest)
  .ok (⟨negative, whole, part, exponent⟩, rest)

def maxSignificand : Nat := Nat.pow 2 64 - 1

/-- Appends digits to a significand while it stays in range, and gives the digits left over. -/
def appendDigits (significand : Nat) : List Char → Nat × List Char
  | [] => (significand, [])
  | d :: ds =>
    let next := significand * 10 + Decimal.digitValue d
    if maxSignificand < next then (significand, d :: ds) else appendDigits next ds

/-- A magnitude times a power of ten, by one rounded multiplication or division, or by two
divisions for exponents below the table of powers. -/
def scale? (units : Nat) (exponent : Int) : Option Nat :=
  if units = 0 then some 0
  else if 308 < exponent then none
  else if 0 ≤ exponent then
    let product := Double.times units (Double.tenTo exponent.toNat)
    if product < Double.bound then some product else none
  else
    let places := (-exponent).toNat
    if places ≤ 308 then some (Double.divided units (Double.tenTo places))
    else
      let once := Double.divided units (Double.tenTo 308)
      some (Double.divided once (Double.tenTo (min 308 (places - 308))))

/-- The number a numeral denotes, if it is finite. Whole numbers of 64 bits are exact, all others
are doubles: the significand is cut to 64 bits and rounded, and so is its product with the power of
ten, so the last digit may differ from the nearest double. -/
def Numeral.number? (n : Numeral) : Option Number :=
  let (significand, left) := appendDigits 0 n.whole
  match n.part, n.exponent, left with
  | none, none, [] =>
    if !n.negative then some (.whole significand)
    else if significand = 0 ∨ Nat.pow 2 63 < significand then
      some (.double ⟨true, Double.roundUnits (significand * Double.one) 1⟩)
    else some (.whole (-significand))
  | part, exponent, left =>
    let part := part.getD []
    let (significand, unread) := appendDigits significand part
    let places := part.length - unread.length
    let units := Double.roundUnits (significand * Double.one) 1
    (scale? units (exponent.getD 0 + left.length - places)).map fun u => .double ⟨n.negative, u⟩

def number (care : Care) : Reader Number := fun cs => do
  let (n, rest) ← numeral care cs
  match care, n.number? with
  | _, some x => .ok (x, rest)
  | .skim, none => .ok (.whole 0, rest)
  | .full, none => .error .malformed

/-- A value that is neither an array nor an object, at the front of a text that is not empty. -/
def scalar (care : Care) : Reader Json
  | [] => .error .truncated
  | c :: cs =>
    if c = 'n' then do let (_, rest) ← word ['u', 'l', 'l'] cs; .ok (.null, rest)
    else if c = 't' then do let (_, rest) ← word ['r', 'u', 'e'] cs; .ok (.bool true, rest)
    else if c = 'f' then do let (_, rest) ← word ['a', 'l', 's', 'e'] cs; .ok (.bool false, rest)
    else if c = '"' then do let (s, rest) ← stringBody care [] 0 cs; .ok (.text s, rest)
    else if c = '-' ∨ Decimal.isDigit c then do
      let (n, rest) ← number care (c :: cs)
      .ok (.number n, rest)
    else .error .malformed

/-- The end of a list with the given closing bracket, or the text at its next item. -/
inductive Next
  | done (rest : List Char)
  | more (rest : List Char)

/-- What follows the opening bracket of a list. -/
def firstItem (close : Char) (cs : List Char) : Except Fault Next :=
  match skipSpace cs with
  | [] => .error .truncated
  | c :: rest => .ok (if c = close then .done rest else .more (c :: rest))

/-- What follows an item of a list: its end, or a comma and another item. -/
def nextItem (close : Char) (cs : List Char) : Except Fault Next :=
  match skipSpace cs with
  | [] => .error .truncated
  | c :: rest =>
    if c = close then .ok (.done rest)
    else if c = ',' then
      match skipSpace rest with
      | [] => .error .truncated
      | d :: rest => if d = close then .error .malformed else .ok (.more (d :: rest))
    else .error .malformed

/-- The items from a place where one or the end stands; at most `fuel` of them, and no list has
more items than its text has characters. -/
def itemsFrom {α : Type} (close : Char) (item : Reader α) :
    (fuel : Nat) → Next → Except Fault (List α × List Char)
  | _, .done rest => .ok ([], rest)
  | 0, .more _ => .error .truncated
  | fuel + 1, .more cs => do
    let (x, rest) ← item cs
    let (xs, rest) ← itemsFrom close item fuel (← nextItem close rest)
    .ok (x :: xs, rest)

def listOf {α : Type} (close : Char) (item : Reader α) : Reader (List α) := fun cs => do
  itemsFrom close item cs.length (← firstItem close cs)

def key (care : Care) : Reader String
  | '"' :: cs => stringBody care [] 0 cs
  | _ => .error .malformed

def colon : Reader Unit := fun cs =>
  match skipSpace cs with
  | [] => .error .truncated
  | ':' :: rest => .ok ((), rest)
  | _ => .error .malformed

def entry (care : Care) (item : Reader Json) : Reader (String × Json) := fun cs => do
  let (k, rest) ← key care cs
  let (_, rest) ← colon rest
  let (v, rest) ← item rest
  .ok ((k, v), rest)

/-- A value whose arrays and objects nest at most `depth` deep, blanks before it included. -/
def value (care : Care) : (depth : Nat) → Reader Json
  | 0 => fun cs =>
    match skipSpace cs with
    | [] => .error .truncated
    | '[' :: _ => .error .malformed
    | '\x7b' :: _ => .error .malformed
    | cs => scalar care cs
  | depth + 1 => fun cs =>
    match skipSpace cs with
    | [] => .error .truncated
    | '[' :: cs => do
      let (items, rest) ← listOf ']' (value care depth) cs
      .ok (.array items, rest)
    | '\x7b' :: cs => do
      let (entries, rest) ← listOf '\x7d' (entry care (value care depth)) cs
      .ok (.object entries, rest)
    | cs => scalar care cs

def finish {α : Type} (read : α × List Char) : Except Fault α :=
  if (skipSpace read.2).isEmpty then .ok read.1 else .error .malformed

end Reader

def parse (depth : Nat) (s : String) : Except Fault Json := do
  Reader.finish (← Reader.value .full depth s.toList)

end MarkupTree.Json

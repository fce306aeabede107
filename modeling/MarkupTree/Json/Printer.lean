import MarkupTree.Json.Basic
import MarkupTree.Number.Shortest

/-!
# Printing JSON

The compact text of a value: no blanks, entries in the order of the value, and in strings an
escape only where one is required.
-/

namespace MarkupTree.Json

/-- The last digit of a number, counting on from nine with small letters. -/
def hexDigit (n : Nat) : Char :=
  if n < 10 then Char.ofNat ('0'.toNat + n) else Char.ofNat ('a'.toNat + (n - 10))

/-- Quotation mark, backslash and the control characters below the blank are escaped. -/
def escape (c : Char) : List Char :=
  if c = '"' then ['\\', '"']
  else if c = '\\' then ['\\', '\\']
  else if c.toNat = 8 then ['\\', 'b']
  else if c = '\t' then ['\\', 't']
  else if c = '\n' then ['\\', 'n']
  else if c.toNat = 12 then ['\\', 'f']
  else if c = '\r' then ['\\', 'r']
  else if c.toNat < 32 then
    ['\\', 'u', '0', '0', hexDigit (c.toNat / 16), hexDigit (c.toNat % 16)]
  else [c]

def quoted (s : String) : String := "\"" ++ String.ofList (s.toList.flatMap escape) ++ "\""

def zeros (n : Nat) : String := String.ofList (List.replicate n '0')

/-- A decimal is written in full when its first digit stands between five places after the point
and sixteen before it, always with a digit after the point; else with a signed exponent. -/
def decimalText (d : Decimal) : String :=
  let ds := d.digits.repr.toList
  let first : Int := d.exponent + ds.length - 1
  if -5 ≤ first ∧ first ≤ 15 then
    if 0 ≤ d.exponent then String.ofList ds ++ zeros d.exponent.toNat ++ ".0"
    else if 0 ≤ first then
      String.ofList (ds.take (first + 1).toNat) ++ "." ++ String.ofList (ds.drop (first + 1).toNat)
    else "0." ++ zeros (-first - 1).toNat ++ String.ofList ds
  else
    let tail := if ds.length = 1 then "" else "." ++ String.ofList (ds.drop 1)
    let exponent := (if first < 0 then "-" else "+") ++ first.natAbs.repr
    String.ofList (ds.take 1) ++ tail ++ "e" ++ exponent

def Number.text : Number → String
  | .whole n => (if n < 0 then "-" else "") ++ n.natAbs.repr
  | .double d =>
    (if d.negative then "-" else "") ++
      (if d.units = 0 then "0.0" else decimalText (Double.shortest d.units))

mutual

def print : Json → String
  | .null => "null"
  | .bool true => "true"
  | .bool false => "false"
  | .number n => n.text
  | .text s => quoted s
  | .array items => "[" ++ printItems items ++ "]"
  | .object entries => "\x7b" ++ printEntries entries ++ "\x7d"

def printItems : List Json → String
  | [] => ""
  | v :: rest => print v ++ printMoreItems rest

/-- Each item with a comma before it. -/
def printMoreItems : List Json → String
  | [] => ""
  | v :: rest => "," ++ print v ++ printMoreItems rest

def printEntries : List (String × Json) → String
  | [] => ""
  | (key, v) :: rest => quoted key ++ ":" ++ print v ++ printMoreEntries rest

def printMoreEntries : List (String × Json) → String
  | [] => ""
  | (key, v) :: rest => "," ++ quoted key ++ ":" ++ print v ++ printMoreEntries rest

end

end MarkupTree.Json

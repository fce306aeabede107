import MarkupTree.Text.Printable

/-!
# Quoted texts

A text shown between quotation marks: quotation marks and backslashes are escaped, and so is every
character that is not printable.
-/

namespace MarkupTree.Text

/-- The hexadecimal digits of a code point, with small letters and without padding. -/
def hex (n : Nat) : List Char := Nat.toDigits 16 n

def escape (c : Char) : List Char :=
  if c = '"' then ['\\', '"']
  else if c = '\\' then ['\\', '\\']
  else if c = '\t' then ['\\', 't']
  else if c = '\n' then ['\\', 'n']
  else if c = '\r' then ['\\', 'r']
  else if c.toNat = 0 then ['\\', '0']
  else if isPrintable c then [c]
  else ['\\', 'u', '\x7b'] ++ hex c.toNat ++ ['\x7d']

def quoted (s : String) : String := "\"" ++ String.ofList (s.toList.flatMap escape) ++ "\""

end MarkupTree.Text

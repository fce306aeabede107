/-!
# Qualified names

A name is written `qualifier:local` or, unqualified, `local`. It is split at its first colon; a
colon in front qualifies nothing.
-/

namespace MarkupTree.Name

/-- The two parts of a name, as characters. -/
def split (cs : List Char) : Option (List Char) × List Char :=
  match cs.dropWhile (· != ':') with
  | [] => (none, cs)
  | _ :: rest =>
    let qualifier := cs.takeWhile (· != ':')
    if qualifier.isEmpty then (none, cs) else (some qualifier, rest)

def qualifier? (name : String) : Option String := (split name.toList).1.map String.ofList

def localPart (name : String) : String := String.ofList (split name.toList).2

/-- The name with a qualifier and a local part. -/
def qualified (qualifier localName : String) : String := qualifier ++ ":" ++ localName

end MarkupTree.Name

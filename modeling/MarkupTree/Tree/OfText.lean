import MarkupTree.Tree.OfJson
import MarkupTree.Json.Reader

/-!
# Trees from JSON texts

A document is an object with a list of root fragments under `elements`, or an array that holds that
list. It is read from left to right and its first fault counts: a root fragment is read as JSON to
its end before its fields are looked at, while its kind is checked where it stands. Values under
other keys of the document are skimmed.
-/

namespace MarkupTree

open Json (Fault Reader)

namespace Fragment

/-- Arrays and objects may nest this deep inside a field of a root fragment: 127 levels, less the
document, its list and the fragment. -/
def fieldDepth : Nat := 124

/-- The fault of a value that is not of the shape wanted here: a broken scalar is malformed. -/
def misplaced (cs : List Char) : Fault :=
  match cs with
  | [] => .truncated
  | '[' :: _ => .mismatched
  | '\x7b' :: _ => .mismatched
  | cs =>
    match Reader.scalar .full cs with
    | .ok _ => .mismatched
    | .error fault => fault

def readKind : Reader Kind := fun cs =>
  match Reader.skipSpace cs with
  | '"' :: cs => do
    let (name, rest) ← Reader.stringBody .full [] 0 cs
    match Kind.ofName? name with
    | some kind => .ok (kind, rest)
    | none => .error .mismatched
  | cs => .error (misplaced cs)

/-- The entries of a fragment from a place where one or the end stands, and its kind if it has been
met. At most `fuel` entries follow. -/
def readEntries : (fuel : Nat) → Option Kind → Reader.Next →
    Except Fault ((Kind × List (String × Json)) × List Char)
  | _, some kind, .done rest => .ok ((kind, []), rest)
  | _, none, .done _ => .error .mismatched
  | 0, _, .more _ => .error .truncated
  | fuel + 1, kind?, .more cs => do
    let (key, rest) ← Reader.key .full cs
    if key = "type" then
      if kind?.isSome then .error .mismatched
      else
        let (_, rest) ← Reader.colon rest
        let (kind, rest) ← readKind rest
        readEntries fuel (some kind) (← Reader.nextItem '\x7d' rest)
    else
      let (_, rest) ← Reader.colon rest
      let (v, rest) ← Reader.value .full fieldDepth rest
      let ((kind, entries), rest) ← readEntries fuel kind? (← Reader.nextItem '\x7d' rest)
      .ok ((kind, (key, v) :: entries), rest)

/-- A fragment that has been read as far as its closing bracket, if its fields are right. -/
def accept (f : Option Fragment) (rest : List Char) : Except Fault (Fragment × List Char) :=
  match f with
  | some f => .ok (f, rest)
  | none => .error .mismatched

def readRoot : Reader Fragment := fun cs =>
  match Reader.skipSpace cs with
  | '\x7b' :: cs => do
    let ((kind, entries), rest) ← readEntries cs.length none (← Reader.firstItem '\x7d' cs)
    accept (ofEntries? kind entries) rest
  | '[' :: cs => do
    match ← Reader.firstItem ']' cs with
    | .done _ => .error .mismatched
    | .more cs =>
      let (kind, rest) ← readKind cs
      let (fields, rest) ← Reader.itemsFrom ']' (Reader.value .full fieldDepth) rest.length
        (← Reader.nextItem ']' rest)
      accept (ofFields? kind fields) rest
  | cs => .error (misplaced cs)

def readRoots : Reader (List Fragment) := fun cs =>
  match Reader.skipSpace cs with
  | '[' :: cs => Reader.listOf ']' readRoot cs
  | cs => .error (misplaced cs)

end Fragment

namespace Tree

open Fragment (misplaced readRoots)

/-- The entries of a document from a place where one or the end stands, and its roots if they have
been met. At most `fuel` entries follow. -/
def readEntries : (fuel : Nat) → Option (List Fragment) → Reader.Next →
    Except Fault (List Fragment × List Char)
  | _, roots?, .done rest => .ok (roots?.getD [], rest)
  | 0, _, .more _ => .error .truncated
  | fuel + 1, roots?, .more cs => do
    let (key, rest) ← Reader.key .full cs
    if key = "elements" then
      if roots?.isSome then .error .mismatched
      else
        let (_, rest) ← Reader.colon rest
        let (roots, rest) ← readRoots rest
        readEntries fuel (some roots) (← Reader.nextItem '\x7d' rest)
    else
      let (_, rest) ← Reader.colon rest
      let (_, rest) ← Reader.value .skim rest.length rest
      readEntries fuel roots? (← Reader.nextItem '\x7d' rest)

/-- The end of a document that is given as an array and has its one item. -/
def closeArray (cs : List Char) : Except Fault (List Char) :=
  match Reader.skipSpace cs with
  | [] => .error .truncated
  | ']' :: rest => .ok rest
  | _ => .error .malformed

def readDocument : Reader (List Fragment) := fun cs =>
  match Reader.skipSpace cs with
  | '\x7b' :: cs => do readEntries cs.length none (← Reader.firstItem '\x7d' cs)
  | '[' :: cs => do
    match ← Reader.firstItem ']' cs with
    | .done rest => .ok ([], rest)
    | .more cs =>
      let (roots, rest) ← readRoots cs
      .ok (roots, ← closeArray rest)
  | cs => .error (misplaced cs)

/-- The tree a JSON text writes; only the first root is kept. -/
def ofText (s : String) : Except Fault Tree := do
  .ok ⟨(← Reader.finish (← readDocument s.toList)).head?⟩

end Tree

end MarkupTree

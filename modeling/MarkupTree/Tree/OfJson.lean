import MarkupTree.Fragment
import MarkupTree.Json.Basic

/-!
# Trees from JSON values

A fragment is an object that tells its kind under `type`, or an array of its kind and its fields in
order, where trailing fields that may be missing are left out. Unknown keys are ignored; a known
key that stands twice, a field of the wrong shape and a missing name or text are refused.

The kind of a fragment below another one may also be a number: 0 is an element and 1 a text.
-/

namespace MarkupTree

namespace Fragment

inductive Kind
  | element
  | text
deriving DecidableEq

def Kind.ofName? (name : String) : Option Kind :=
  if name = "element" then some .element else if name = "text" then some .text else none

def Kind.ofJson? : Json → Option Kind
  | .text name => Kind.ofName? name
  | .number (.whole 0) => some .element
  | .number (.whole 1) => some .text
  | _ => none

/-- The text that stands under a key, once. -/
def textOf? (key : String) (entries : List (String × Json)) : Option String :=
  match Json.valuesOf key entries with
  | [v] => v.text?
  | _ => none

/-- An object of texts; of equal keys the last one stands. -/
def attributesOf? : Json → Option Attributes
  | .object entries => do
    let texts ← entries.mapM fun e => e.2.text?.map fun s => (e.1, s)
    some (Dictionary.ofList texts)
  | _ => none

/-- A fragment of known kind from the entries of an object and what its entries under `elements`
have been read as. -/
def ofParts? (kind : Kind) (entries : List (String × Json))
    (childLists : List (Option (List Fragment))) : Option Fragment :=
  match kind with
  | .text => (textOf? "text" entries).map .text
  | .element => do
    let name ← textOf? "name" entries
    let attributes ←
      match Json.valuesOf "attributes" entries with
      | [] => some Dictionary.empty
      | [v] => attributesOf? v
      | _ => none
    let children ←
      match childLists with
      | [] => some []
      | [children] => children
      | _ => none
    some (.element name attributes children)

mutual

/-- A fragment below another one. -/
def ofJson? : Json → Option Fragment
  | .object entries =>
    match Json.valuesOf "type" entries with
    | [tag] => do ofParts? (← Kind.ofJson? tag) entries (childLists entries)
    | _ => none
  | .array (tag :: fields) => do ofFields? (← Kind.ofJson? tag) fields
  | _ => none

/-- A fragment of known kind from its fields in order. -/
def ofFields? (kind : Kind) : List Json → Option Fragment
  | [v] => v.text?.map fun s =>
    match kind with
    | .text => .text s
    | .element => .element s Dictionary.empty []
  | [name, attributes] =>
    match kind with
    | .text => none
    | .element => do some (.element (← name.text?) (← attributesOf? attributes) [])
  | [name, attributes, children] =>
    match kind with
    | .text => none
    | .element => do
      some (.element (← name.text?) (← attributesOf? attributes) (← childrenOf? children))
  | _ => none

/-- What each entry under `elements` holds, as fragments. -/
def childLists : List (String × Json) → List (Option (List Fragment))
  | [] => []
  | (key, v) :: rest =>
    if key = "elements" then childrenOf? v :: childLists rest else childLists rest

def childrenOf? : Json → Option (List Fragment)
  | .array items => listOfJson? items
  | _ => none

def listOfJson? : List Json → Option (List Fragment)
  | [] => some []
  | v :: rest => do some ((← ofJson? v) :: (← listOfJson? rest))

end

def ofEntries? (kind : Kind) (entries : List (String × Json)) : Option Fragment :=
  ofParts? kind entries (childLists entries)

/-- A fragment that stands at the root: its kind is told by name. -/
def ofRootJson? : Json → Option Fragment
  | .object entries => do ofEntries? (← Kind.ofName? (← textOf? "type" entries)) entries
  | .array (tag :: fields) => do ofFields? (← Kind.ofName? (← tag.text?)) fields
  | _ => none

end Fragment

/-- A value without a list under `elements` is the empty tree. Only the first root is kept, but all
of them have to be fragments. -/
def Tree.ofJson? : Json → Option Tree
  | .object entries =>
    match Json.valuesOf "elements" entries with
    | [.array roots] => do some ⟨(← roots.mapM Fragment.ofRootJson?).head?⟩
    | _ => some Tree.empty
  | _ => some Tree.empty

end MarkupTree

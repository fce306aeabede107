import MarkupTree.Fragment
import MarkupTree.Name

/-!
# Namespace declarations

A declaration binds a qualifier to a URI; without a qualifier it sets the namespace of unqualified
names. In a tree it is written as the attribute `xmlns:qualifier` or `xmlns`.
-/

namespace MarkupTree

structure Declaration where
  qualifier : Option String
  uri : String
deriving DecidableEq

namespace Declaration

def defaultKey : String := "xmlns"

def qualifiedKey (qualifier : String) : String := "xmlns:" ++ qualifier

/-- The qualifier that an attribute of this name declares; none if it declares nothing. -/
def declared? (key : String) : Option (Option String) :=
  if key = defaultKey then some none
  else ("xmlns:".toList.isPrefixOf? key.toList).map fun q => some (String.ofList q)

/-- Whether a key has the form of one that declares something. -/
def isKey (key : String) : Bool := key == defaultKey || "xmlns:".toList.isPrefixOf key.toList

/-- Whether any key among some attributes has that form; what it declares is not read. -/
def anyAmong (attributes : Attributes) : Bool := attributes.keys.any isKey

/-- The name of the attribute that writes this declaration. -/
def key (d : Declaration) : String :=
  match d.qualifier with
  | some q => qualifiedKey q
  | none => defaultKey

/-- The declaration that an attribute is, if it is one. -/
def ofAttribute? (key value : String) : Option Declaration :=
  (declared? key).map fun q => ⟨q, value⟩

/-- All declarations among some attributes, in the order of their names. -/
def ofAttributes (attributes : Attributes) : List Declaration :=
  attributes.entries.filterMap fun e => ofAttribute? e.1 e.2

def forUri? (declared : List Declaration) (uri : String) : Option Declaration :=
  declared.find? (·.uri = uri)

def forQualifier? (declared : List Declaration) (qualifier : String) : Option Declaration :=
  declared.find? (·.qualifier = some qualifier)

end Declaration

def Tree.declarations (t : Tree) : List Declaration :=
  match t.root with
  | some root => Declaration.ofAttributes root.attributes
  | none => []

end MarkupTree

import MarkupTree.Namespace.Declaration
import MarkupTree.Json.Printer
import MarkupTree.Text.Blank
import MarkupTree.Text.Quoted

/-!
# Building elements

An element is built from a name, attributes with JSON values, namespace declarations and content.
Declarations become attributes; an attribute of the same name given outright takes their place.
-/

namespace MarkupTree

inductive Content
  | text (value : String)
  | tree (t : Tree)
deriving DecidableEq

/-- The child that a piece of content becomes; an empty text and an empty tree become none. -/
def Content.fragment? : Content → Option Fragment
  | .text value => if value.isEmpty then none else some (.text value)
  | .tree t => t.root

/-- The text that is stored for an attribute: a text itself, any other value in JSON. -/
def Json.attributeText : Json → String
  | .text s => s
  | v => v.canonical.print

structure Blueprint where
  attributes : Dictionary Json
  declarations : List Declaration
  content : List Content

namespace Blueprint

protected def empty : Blueprint := ⟨Dictionary.empty, [], []⟩

def setAttribute (b : Blueprint) (key : String) (value : Json) : Blueprint :=
  { b with attributes := b.attributes.insert key value }

def setAttributes (b : Blueprint) (entries : List (String × Json)) : Blueprint :=
  { b with attributes := b.attributes.insertAll entries }

def declare (b : Blueprint) (ds : List Declaration) : Blueprint :=
  { b with declarations := b.declarations ++ ds }

def append (b : Blueprint) (content : List Content) : Blueprint :=
  { b with content := b.content ++ content }

/-- The declarations as attributes, then the attributes that were given outright. -/
def allAttributes (b : Blueprint) : Attributes :=
  (Dictionary.ofList (b.declarations.map fun d => (d.key, d.uri))).insertAll
    (b.attributes.entries.map fun e => (e.1, e.2.attributeText))

end Blueprint

/-- The name of an element must not be blank. -/
structure BlankName where
  name : String
deriving DecidableEq, Repr

def BlankName.message (e : BlankName) : String :=
  "invalid element name " ++ Text.quoted e.name ++ ": the name must not be empty"

def Tree.create (name : String) (b : Blueprint) : Except BlankName Tree :=
  if (Text.trim name.toList).isEmpty then .error ⟨name⟩
  else .ok (Tree.ofRoot (.element name b.allAttributes (b.content.filterMap Content.fragment?)))

namespace Fragment

def bare (name : String) : Fragment := .element name Dictionary.empty []

/-- The element with an attribute set; a text has none. -/
def setAttribute (f : Fragment) (key value : String) : Fragment :=
  match f with
  | .element name attributes children => .element name (attributes.insert key value) children
  | .text content => .text content

/-- The element with a child more; a text has none. -/
def addChild (parent child : Fragment) : Fragment :=
  match parent with
  | .element name attributes children => .element name attributes (children ++ [child])
  | .text content => .text content

end Fragment

end MarkupTree

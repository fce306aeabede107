import MarkupTree.Namespace.Matching

/-!
# Rendering a tree as text

A tree is rendered bottom up: the content of an element is the texts and rendered elements in it,
and a mapping makes the text of the element from its content. A table maps elements by name, where
a name in a namespace is written with the qualifier that the options declare for its URI; elements
without an entry contribute their content alone.
-/

namespace MarkupTree

/-- What a mapping sees: the rendered content, the element's own attributes and its name; a text
has no attributes and no name. -/
structure Payload where
  content : String
  attributes : Attributes
  name : Option String

/-- An entry of a table: a pair of tags around the content, or a function. -/
inductive TableEntry
  | tag (name : String)
  | render (f : Payload → String)

/-- One function for all elements and for a text that is the root, or a table. -/
inductive Mapping
  | render (f : Payload → String)
  | table (entries : Dictionary TableEntry)

/-- The table key for elements without an entry of their own. -/
def wildcard : String := "*"

structure RenderOptions where
  declared : List Declaration
  /-- Whether an element of the table renders as nothing where it has no content. -/
  skipEmpty : Bool

/-- A declaration without a qualifier, or a table key whose qualifier is not declared. -/
inductive OptionsError
  | unqualified (uri : String)
  | undeclared (qualifier : String)
deriving DecidableEq, Repr

def OptionsError.message : OptionsError → String
  | .unqualified uri => "options not valid: namespace '" ++ uri ++ "' doesn't have a prefix"
  | .undeclared q => "options not valid: no namespace declared for prefix '" ++ q ++ "'"

namespace Mapping

def keys : Mapping → List String
  | .render _ => []
  | .table entries => entries.keys

/-- The qualifier of a table key, if it is not declared. -/
def undeclared? (declared : List Declaration) (key : String) : Option String :=
  (Name.qualifier? key).filter fun q => (Declaration.forQualifier? declared q).isNone

def check (m : Mapping) (o : RenderOptions) : Except OptionsError Unit :=
  match o.declared.find? (·.qualifier.isNone) with
  | some d => .error (.unqualified d.uri)
  | none =>
    match m.keys.findSome? (undeclared? o.declared) with
    | some q => .error (.undeclared q)
    | none => .ok ()

/-- The key under which a table lists an element of this name in this scope. -/
def key? (o : RenderOptions) (scope : Scope) (name : String) : Option String :=
  match scope.resolve? name with
  | none => some name
  | some uri =>
    ((Declaration.forUri? o.declared uri).bind (·.qualifier)).map
      fun q => Name.qualified q (Name.localPart name)

/-- The entry of an element itself, before the wildcard is asked. -/
def own? (entries : Dictionary TableEntry) (o : RenderOptions) (scope : Scope)
    (name : String) : Option TableEntry :=
  (key? o scope name).bind entries.get?

def find? (entries : Dictionary TableEntry) (o : RenderOptions) (scope : Scope)
    (name : String) : Option TableEntry :=
  (own? entries o scope name).or (entries.get? wildcard)

end Mapping

def TableEntry.apply : TableEntry → Payload → String
  | .tag t, p => "<" ++ t ++ ">" ++ p.content ++ "</" ++ t ++ ">"
  | .render f, p => f p

namespace Rendering

def wrap (m : Mapping) (o : RenderOptions) (scope : Scope) (name : String)
    (attributes : Attributes) (content : String) : String :=
  let payload : Payload := ⟨content, attributes, some name⟩
  match m with
  | .render f => f payload
  | .table entries =>
    match Mapping.find? entries o scope name with
    | none => content
    | some entry => if o.skipEmpty && content.isEmpty then content else entry.apply payload

mutual

/-- The text of a fragment in the scope around it; a text stands for itself. -/
def fragment (m : Mapping) (o : RenderOptions) (outer : Scope) : Fragment → String
  | .text content => content
  | .element name attributes children =>
    let scope := outer.extend attributes
    wrap m o scope name attributes (fragments m o scope children)

def fragments (m : Mapping) (o : RenderOptions) (outer : Scope) : List Fragment → String
  | [] => ""
  | f :: rest => fragment m o outer f ++ fragments m o outer rest

end

/-- The text of a root; a function sees even a text. -/
def root (m : Mapping) (o : RenderOptions) (f : Fragment) : String :=
  match m, f with
  | .render g, .text content => g ⟨content, Dictionary.empty, none⟩
  | m, f => fragment m o Scope.empty f

end Rendering

/-- The text of a tree. Options are checked first; the empty tree and the empty table give the
empty text. -/
def Tree.render (t : Tree) (m : Mapping) (o : RenderOptions) : Except OptionsError String := do
  m.check o
  match t.root, m with
  | none, _ => .ok ""
  | some f, .render g => .ok (Rendering.root (.render g) o f)
  | some f, .table entries =>
    if entries.isEmpty then .ok "" else .ok (Rendering.root (.table entries) o f)

end MarkupTree

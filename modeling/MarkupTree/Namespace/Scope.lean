import MarkupTree.Namespace.Declaration

/-!
# Namespace scopes

The namespaces in scope at a place of a tree: the URI of unqualified names and the URI of every
bound qualifier. Going into an element applies its declarations, so the nearest one counts.
-/

namespace MarkupTree

structure Scope where
  defaultUri : Option String
  bindings : Dictionary String
deriving DecidableEq

namespace Scope

protected def empty : Scope := ⟨none, Dictionary.empty⟩

def isEmpty (s : Scope) : Bool := s.defaultUri.isNone && s.bindings.isEmpty

/-- An empty URI takes the default namespace away; a qualifier keeps even an empty URI. -/
def bind (s : Scope) (d : Declaration) : Scope :=
  match d.qualifier with
  | none => ⟨if d.uri = "" then none else some d.uri, s.bindings⟩
  | some q => ⟨s.defaultUri, s.bindings.insert q d.uri⟩

def bindAll (s : Scope) (ds : List Declaration) : Scope := ds.foldl bind s

def ofDeclarations (ds : List Declaration) : Scope := Scope.empty.bindAll ds

/-- The scope inside an element with these attributes. Where no key among them has the form of a
declaration, it is the scope around the element and nothing is read. -/
def extend (s : Scope) (attributes : Attributes) : Scope :=
  if Declaration.anyAmong attributes then s.bindAll (Declaration.ofAttributes attributes) else s

/-- The scope inside a fragment that stands in `s`. -/
def enter (s : Scope) (f : Fragment) : Scope := s.extend f.attributes

def lookup? (s : Scope) (qualifier : String) : Option String := s.bindings.get? qualifier

def resolve? (s : Scope) (name : String) : Option String :=
  match Name.qualifier? name with
  | some q => s.lookup? q
  | none => s.defaultUri

/-- The scope as declarations: the default namespace, then qualifiers in order. -/
def declarations (s : Scope) : List Declaration :=
  (s.defaultUri.toList.map fun uri => ⟨none, uri⟩) ++
    s.bindings.entries.map fun e => ⟨some e.1, e.2⟩

/-- The scope as attributes that declare it, in the order of `declarations`. -/
def attributeEntries (s : Scope) : List (String × String) :=
  s.declarations.map fun d => (d.key, d.uri)

@[simp] theorem bindAll_nil (s : Scope) : s.bindAll [] = s := rfl

@[simp] theorem bindAll_cons (s : Scope) (d : Declaration) (ds : List Declaration) :
    s.bindAll (d :: ds) = (s.bind d).bindAll ds := rfl

@[simp] theorem enter_text (s : Scope) (content : String) : s.enter (.text content) = s := rfl

end Scope

end MarkupTree

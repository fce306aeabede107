import MarkupTree.Namespace.Scope

/-!
# Matching qualified names

A caller names an element by a qualifier of the caller's own declarations; the tree names it by
the declarations in scope. The two names agree if they mean the same URI and the same local part.
An element whose name means no URI is named by exactly its own text.
-/

namespace MarkupTree

/-- The caller has no way to name an element in this namespace. -/
structure UnresolvedName where
  uri : String
  name : String
deriving DecidableEq, Repr

def UnresolvedName.message (e : UnresolvedName) : String :=
  "no prefix declared for namespace URI '" ++ e.uri ++ "' while matching '" ++ e.name ++ "'"

namespace Scope

/-- Whether the caller's `name` names an element called `element` in this scope. A URI that is
declared without a qualifier cannot be named, and neither can one that is not declared by a name
whose qualifier is not declared. -/
def named (s : Scope) (declared : List Declaration) (element name : String) :
    Except UnresolvedName Bool :=
  match s.resolve? element with
  | none => .ok (element = name)
  | some uri =>
    match Declaration.forUri? declared uri with
    | some ⟨some q, _⟩ => .ok (name = Name.qualified q (Name.localPart element))
    | some ⟨none, _⟩ => .error ⟨uri, name⟩
    | none =>
      match Name.qualifier? name with
      | none => .ok false
      | some q =>
        if (Declaration.forQualifier? declared q).isNone then .error ⟨uri, name⟩ else .ok false

end Scope

end MarkupTree

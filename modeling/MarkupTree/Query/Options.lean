import MarkupTree.Namespace.Declaration
import MarkupTree.Json.Basic

/-!
# Query options

Namespace declarations read from JSON: an object with a list under `namespaces`, or an array that
holds that list, which may be missing. A declaration is an object with a `uri` and perhaps a
`prefix`, or the array of the two.
-/

namespace MarkupTree

namespace Declaration

/-- A qualifier is a text, or null where there is none. -/
def qualifierOfJson? : Json → Option (Option String)
  | .null => some none
  | .text q => some (some q)
  | _ => none

def ofJson? : Json → Option Declaration
  | .object entries => do
    let qualifier ←
      match Json.valuesOf "prefix" entries with
      | [] => some none
      | [v] => qualifierOfJson? v
      | _ => none
    match Json.valuesOf "uri" entries with
    | [uri] => do some ⟨qualifier, ← uri.text?⟩
    | _ => none
  | .array [qualifier, uri] => do some ⟨← qualifierOfJson? qualifier, ← uri.text?⟩
  | _ => none

def listOfJson? : Json → Option (List Declaration)
  | .array items => items.mapM ofJson?
  | _ => none

end Declaration

/-- The declarations that query options make. -/
def declarationsOfOptions? : Json → Option (List Declaration)
  | .object entries =>
    match Json.valuesOf "namespaces" entries with
    | [] => some []
    | [list] => Declaration.listOfJson? list
    | _ => none
  | .array [] => some []
  | .array [list] => Declaration.listOfJson? list
  | _ => none

end MarkupTree

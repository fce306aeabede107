import MarkupTree.Fragment
import MarkupTree.Json.Printer

/-!
# Trees as JSON

The JSON form of a tree: an object whose list `elements` holds the root. A fragment tells its kind
under `type`; an element leaves out empty attributes and an empty list of children.
-/

namespace MarkupTree

namespace Fragment

def attributesJson (attributes : Attributes) : Json :=
  .object (attributes.entries.map fun e => (e.1, .text e.2))

mutual

def toJson : Fragment → Json
  | .text content => .object [("type", .text "text"), ("text", .text content)]
  | .element name attributes children =>
    .object ([("type", .text "element"), ("name", .text name)] ++
      (if attributes.isEmpty then [] else [("attributes", attributesJson attributes)]) ++
      (if children.isEmpty then [] else [("elements", .array (listToJson children))]))

def listToJson : List Fragment → List Json
  | [] => []
  | f :: rest => toJson f :: listToJson rest

end

end Fragment

namespace Tree

def toJson (t : Tree) : Json :=
  .object [("elements", .array (t.root.toList.map Fragment.toJson))]

/-- The compact JSON text of a tree. -/
def toText (t : Tree) : String := t.toJson.print

end Tree

end MarkupTree

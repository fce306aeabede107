import MarkupTree.Path.Resolve

/-!
# Parsing paths

The public entry points: absolute paths, paths relative to a context, and the content of the
brackets of a condition. Where a part is parsed on its own, errors still name the whole path.
-/

namespace MarkupTree.Path

/-- An absolute path. -/
def parse (path : String) : Except Error (List Step) :=
  match Surface.ofPath? path.toList with
  | none => .error ⟨path, .malformed .path path⟩
  | some segments =>
    match Surface.steps none false segments with
    | .error reason => .error ⟨path, reason⟩
    | .ok [] => .error ⟨path, .noStep⟩
    | .ok steps => .ok steps

/-- A path relative to a context, with blanks around it. -/
def parseRelative (text path : String) : Except Error (List Step) :=
  let inner := Text.trimmed text
  match Surface.ofRelative? inner.toList with
  | none => .error ⟨path, .malformed .relative inner⟩
  | some segments =>
    match Surface.steps none false segments with
    | .error reason => .error ⟨path, reason⟩
    | .ok steps => .ok (orSelf steps)

/-- A condition without its brackets: its text and its meaning. -/
def parseCondition (content path : String) : Except Error (String × Condition) :=
  match Surface.ofCondition? content.toList with
  | none => .error ⟨path, .malformed .wholeCondition content⟩
  | some written =>
    match Surface.resolveCondition written with
    | .error reason => .error ⟨path, reason⟩
    | .ok condition => .ok condition

/-- A path that has been parsed, to be used many times. The empty path has no steps at all and
stands for the tree itself. -/
structure Compiled where
  source : String
  steps : Option (List Step)

def compile (path : String) : Except Error Compiled :=
  if path.isEmpty then .ok ⟨path, none⟩
  else
    match parse path with
    | .ok steps => .ok ⟨path, some steps⟩
    | .error e => .error e

end MarkupTree.Path

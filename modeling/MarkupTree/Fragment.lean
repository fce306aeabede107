import MarkupTree.Dictionary

/-!
# Trees of markup

A fragment is an element or a run of text; a tree has one fragment as its root, or none. Attributes
come in key order, children in document order.
-/

namespace MarkupTree

abbrev Attributes := Dictionary String

inductive Fragment
  | element (name : String) (attributes : Attributes) (children : List Fragment)
  | text (content : String)

structure Tree where
  root : Option Fragment

namespace Fragment

mutual

def decEq : (f g : Fragment) → Decidable (f = g)
  | .element n a fs, .element m b gs =>
    if h : n = m ∧ a = b then
      match decEqList fs gs with
      | isTrue heq => isTrue (by rw [h.1, h.2, heq])
      | isFalse hne => isFalse (fun e => hne (Fragment.element.inj e).2.2)
    else isFalse (fun e => h ⟨(Fragment.element.inj e).1, (Fragment.element.inj e).2.1⟩)
  | .text s, .text t =>
    if h : s = t then isTrue (by rw [h]) else isFalse (fun e => h (Fragment.text.inj e))
  | .element _ _ _, .text _ => isFalse nofun
  | .text _, .element _ _ _ => isFalse nofun

def decEqList : (fs gs : List Fragment) → Decidable (fs = gs)
  | [], [] => isTrue rfl
  | [], _ :: _ => isFalse nofun
  | _ :: _, [] => isFalse nofun
  | f :: fs, g :: gs =>
    match decEq f g with
    | isFalse hne => isFalse (fun e => hne (List.cons.inj e).1)
    | isTrue heq =>
      match decEqList fs gs with
      | isTrue heq' => isTrue (by rw [heq, heq'])
      | isFalse hne => isFalse (fun e => hne (List.cons.inj e).2)

end

instance : DecidableEq Fragment := decEq

def name? : Fragment → Option String
  | .element name _ _ => some name
  | .text _ => none

def text? : Fragment → Option String
  | .element _ _ _ => none
  | .text content => some content

def isElement (f : Fragment) : Bool := f.name?.isSome

/-- The element's own attributes; a text has none. -/
def attributes : Fragment → Attributes
  | .element _ attributes _ => attributes
  | .text _ => Dictionary.empty

/-- The fragments directly below; a text has none. -/
def children : Fragment → List Fragment
  | .element _ _ children => children
  | .text _ => []

mutual

/-- All text at and below a fragment, in document order. -/
def stringValue : Fragment → String
  | .element _ _ children => stringValues children
  | .text content => content

def stringValues : List Fragment → String
  | [] => ""
  | f :: rest => stringValue f ++ stringValues rest

end

end Fragment

deriving instance DecidableEq for Tree

namespace Tree

protected def empty : Tree := ⟨none⟩

def ofRoot (root : Fragment) : Tree := ⟨some root⟩

def rootName? (t : Tree) : Option String := t.root.bind Fragment.name?

def childTrees (t : Tree) : List Tree :=
  match t.root with
  | some root => root.children.map ofRoot
  | none => []

end Tree

end MarkupTree

import MarkupTree.Proofs.Query.Renaming

/-!
# Paths without names

Only a test for a full name asks for the namespace of an element. A path that has no such test, and
that reads no declaration, finds the same in two trees that differ in nothing but their
declarations, whatever its callers declare, and it never fails.
-/

set_option autoImplicit false

open MarkupTree.Path

namespace MarkupTree

namespace Fragment

mutual

/-- A fragment that declares nothing, neither itself nor below, and else is as it was. -/
def stripped : Fragment → Fragment
  | .element name attributes children =>
    .element name ⟨Declaration.others attributes, attributes.sorted.filter _⟩ (strippedAll children)
  | .text content => .text content

def strippedAll : List Fragment → List Fragment
  | [] => []
  | f :: rest => stripped f :: strippedAll rest

end

mutual

theorem stringValue_stripped : (f : Fragment) → f.stripped.stringValue = f.stringValue
  | .element _ _ children => by
    rw [stripped, stringValue, stringValue, stringValues_strippedAll children]
  | .text _ => by rw [stripped]

theorem stringValues_strippedAll : (fs : List Fragment) →
    stringValues (strippedAll fs) = stringValues fs
  | [] => by rw [strippedAll]
  | f :: rest => by
    rw [strippedAll, stringValues, stringValues, stringValue_stripped f,
      stringValues_strippedAll rest]

end

theorem name?_stripped (f : Fragment) : f.stripped.name? = f.name? := by
  cases f with
  | element name attributes children =>
    rw [stripped]
    rfl
  | text content => rw [stripped]

theorem children_stripped (f : Fragment) : f.stripped.children = strippedAll f.children := by
  cases f with
  | element name attributes children =>
    rw [stripped]
    rfl
  | text content =>
    rw [stripped]
    rfl

theorem get?_attributes_stripped {key : String} (hkey : Declaration.isKey key = false)
    (f : Fragment) :
    f.stripped.attributes.get? key = f.attributes.get? key := by
  cases f with
  | element name attributes children =>
    rw [stripped]
    exact Declaration.lookup_others hkey attributes
  | text content => rw [stripped]

end Fragment

def Tree.stripped (t : Tree) : Tree := ⟨t.root.map Fragment.stripped⟩

/-- Nodes at the same place of trees that differ in their declarations alone. -/
def Node.SameStripped (n m : Node) : Prop :=
  n.address = m.address ∧ n.fragment.stripped = m.fragment.stripped

theorem Node.siblings_sameStripped (address : List Nat) (outer outer' : Scope) (index : Nat)
    {fs gs : List Fragment} (h : Fragment.strippedAll fs = Fragment.strippedAll gs) :
    List.Forall₂ SameStripped (siblings address outer index fs)
      (siblings address outer' index gs) := by
  induction fs generalizing gs index with
  | nil =>
    cases gs with
    | nil => exact .nil
    | cons g gs =>
      rw [Fragment.strippedAll, Fragment.strippedAll] at h
      cases h
  | cons f fs ih =>
    cases gs with
    | nil =>
      rw [Fragment.strippedAll, Fragment.strippedAll] at h
      cases h
    | cons g gs =>
      rw [Fragment.strippedAll, Fragment.strippedAll, List.cons.injEq] at h
      exact .cons ⟨rfl, h.1⟩ (ih (index + 1) h.2)

namespace Walk

theorem passes_of_stripped {test : NameTest} (htest : ∀ name, test ≠ .name name) {n m : Node}
    (h : n.fragment.stripped = m.fragment.stripped) (declared declared' : List Declaration) :
    ∃ b, passes declared test n = .ok b ∧ passes declared' test m = .ok b := by
  have hname : n.fragment.name? = m.fragment.name? := by
    rw [← Fragment.name?_stripped, h, Fragment.name?_stripped]
  obtain ⟨_, f, _⟩ := n
  obtain ⟨_, g, _⟩ := m
  cases f with
  | text =>
    cases g with
    | text => cases test <;> exact ⟨_, rfl, rfl⟩
    | element => cases hname
  | element =>
    cases g with
    | text => cases hname
    | element =>
      cases hname
      cases test with
      | name tested => exact absurd rfl (htest tested)
      | _ => exact ⟨_, rfl, rfl⟩

theorem sameStripped_simulation (declared declared' : List Declaration) :
    Simulation declared declared'
      (fun s => (∀ name, s.test ≠ .name name) ∧ ∀ key ∈ s.reads, Declaration.isKey key = false)
      (fun _ _ => False) Node.SameStripped where
  passes := by
    intro s n m hs h
    obtain ⟨b, hn, hm⟩ := passes_of_stripped hs.1 h.2 declared declared'
    rw [hn, hm]
    exact .ok rfl
  reads := by
    intro s n m key hs hreads h
    have hkey := hs.2 key hreads
    rw [← Fragment.get?_attributes_stripped hkey, h.2, Fragment.get?_attributes_stripped hkey]
  stringValue := by
    intro n m h
    rw [← Fragment.stringValue_stripped, h.2, Fragment.stringValue_stripped]
  children := by
    intro n m h
    have hchildren := congrArg Fragment.children h.2
    rw [Fragment.children_stripped, Fragment.children_stripped] at hchildren
    rw [Node.children, Node.children, h.1]
    exact Node.siblings_sameStripped _ _ _ 0 hchildren

end Walk

section

variable {t u : Tree} {p : Path.Compiled}

theorem Path.Compiled.found_sameStripped (hnames : p.namesTested = [])
    (hkeys : ∀ key ∈ p.keysRead, Declaration.isKey key = false) (h : t.stripped = u.stripped)
    (declared declared' : List Declaration) :
    ∃ found found', p.found t declared = .ok found ∧ p.found u declared' = .ok found' ∧
      List.Forall₂ (Match.Both Node.SameStripped) found found' := by
  have hadmitted : ∀ s ∈ p.within, (∀ name, s.test ≠ .name name) ∧
      ∀ key ∈ s.reads, Declaration.isKey key = false := by
    intro s hs
    constructor
    · intro name htest
      have hname := mem_namesTested.mpr ⟨s, hs, htest⟩
      rw [hnames] at hname
      cases hname
    · intro key hkey
      exact hkeys key (mem_keysRead.mpr ⟨s, hs, hkey⟩)
  obtain ⟨root⟩ := t
  obtain ⟨root'⟩ := u
  have hroot : root.map Fragment.stripped = root'.map Fragment.stripped := congrArg Tree.root h
  cases root with
  | none =>
    cases root' with
    | none => exact ⟨[], [], rfl, rfl, .nil⟩
    | some => cases hroot
  | some root =>
    cases root' with
    | none => cases hroot
    | some root' =>
      have hnode : Node.SameStripped (Node.ofRoot root) (Node.ofRoot root') :=
        ⟨rfl, Option.some.inj hroot⟩
      have hfound := (Walk.sameStripped_simulation declared declared').found hadmitted hnode
      rcases corresponds_iff.mp hfound with ⟨_, _, -, -, hfalse⟩ | hboth
      · exact hfalse.elim
      · exact hboth

/-- A path that tests for no full name and reads no declaration succeeds on every tree, and on trees
that differ in their declarations alone it finds the same places, in the same order and with the
same texts, whatever is declared to it. -/
theorem evaluate_of_nameless (hnames : p.namesTested = [])
    (hkeys : ∀ key ∈ p.keysRead, Declaration.isKey key = false) :
    (∀ t declared, ∃ results, p.evaluate t declared = .ok results) ∧
      ∀ t u : Tree, t.stripped = u.stripped → ∀ declared declared', ∃ found found',
        p.found t declared = .ok found ∧ p.found u declared' = .ok found' ∧
        p.evaluate t declared = .ok (found.map (p.present t)) ∧
        p.evaluate u declared' = .ok (found'.map (p.present u)) ∧
        found.map (·.origin.address) = found'.map (·.origin.address) ∧
        (found.map (p.present t)).map Result.stringValue =
          (found'.map (p.present u)).map Result.stringValue := by
  constructor
  · intro t declared
    obtain ⟨found, _, ht, -, -⟩ :=
      Path.Compiled.found_sameStripped hnames hkeys (rfl : t.stripped = t.stripped)
        declared declared
    rw [Path.Compiled.evaluate_eq, ht]
    exact ⟨_, rfl⟩
  · intro t u h declared declared'
    obtain ⟨found, found', ht, hu, hboth⟩ :=
      Path.Compiled.found_sameStripped hnames hkeys h declared declared'
    refine ⟨found, found', ht, hu, ?_⟩
    exact Path.Compiled.answers_of_both And.left
      (Walk.sameStripped_simulation declared declared').stringValue ht hu hboth

/-- `//*:a[./*:b = "x"]/@id` on a tree and on the same tree with declarations that move its elements
to other namespaces, of which one caller declares the default and the other nothing. -/
theorem evaluate_of_nameless_moved :
    let element (name : String) (entries : List (String × String)) :=
      Fragment.element name (Dictionary.ofList entries)
    let t := Tree.ofRoot (element "r" []
      [element "p:a" [("id", "1")] [element "b" [] [.text "x"]], element "a" [("id", "2")] []])
    let u := Tree.ofRoot (element "r" [("xmlns", "urn:d"), ("xmlns:p", "urn:p")]
      [element "p:a" [("id", "1"), ("xmlns:p", "urn:q")] [element "b" [("xmlns", "")] [.text "x"]],
        element "a" [("id", "2")] []])
    ∃ (p : Path.Compiled) (found found' : List Match),
      Path.compile "//*:a[./*:b = \"x\"]/@id" = .ok p ∧ p.namesTested = [] ∧
      (∀ key ∈ p.keysRead, Declaration.isKey key = false) ∧ t.stripped = u.stripped ∧
      p.evaluate t [] = .ok (found.map (p.present t)) ∧
      p.evaluate u [⟨none, "urn:q"⟩] = .ok (found'.map (p.present u)) ∧
      found.map (·.origin.address) = found'.map (·.origin.address) ∧
      (found'.map (p.present u)).map Result.stringValue = ["1"] := by
  intro element t u
  have h : t.stripped = u.stripped := by decide +kernel
  have hp : ((Path.compile "//*:a[./*:b = \"x\"]/@id").toOption.map fun p =>
      ((p.namesTested, p.keysRead), (p.evaluate t []).toOption)) =
      some (([], ["id"]), some [.text "1"]) := by
    decide +kernel
  obtain ⟨p, hp, hanswer⟩ := Option.map_eq_some_iff.mp hp
  rw [Prod.mk.injEq, Prod.mk.injEq, toOption_eq_some_iff] at hanswer
  obtain ⟨⟨hnames, hread⟩, hanswer⟩ := hanswer
  have hkeys : ∀ key ∈ p.keysRead, Declaration.isKey key = false := by
    rw [hread]
    decide
  obtain ⟨found, found', -, -, ht, hu, haddress, htext⟩ :=
    (evaluate_of_nameless hnames hkeys).2 t u h [] [⟨none, "urn:q"⟩]
  refine ⟨p, found, found', toOption_eq_some_iff.mp hp, hnames, hkeys, h, ht, hu, haddress, ?_⟩
  rw [← htext, ← Except.ok.inj (hanswer.symm.trans ht)]
  rfl

end

end MarkupTree

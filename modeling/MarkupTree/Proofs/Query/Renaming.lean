import MarkupTree.Proofs.Query.Simulation

/-!
# Qualifiers chosen by a document

Two trees may write the same names in different ways: with other qualifiers, or with a default
namespace, declared here or there. As long as all corresponding elements resolve to the same names,
a path finds the same places in both, unless it reads the declarations themselves.
-/

set_option autoImplicit false

open MarkupTree.Path

namespace MarkupTree

/-- The names of two elements mean the same, each in its scope: the same local part in the same
namespace, or the same full name in no namespace. -/
def Scope.SameName (s s' : Scope) (name name' : String) : Prop :=
  match s.resolve? name, s'.resolve? name' with
  | some uri, some uri' => uri = uri' ∧ Name.localPart name = Name.localPart name'
  | none, none => name = name'
  | _, _ => False

instance (s s' : Scope) (name name' : String) : Decidable (s.SameName s' name name') := by
  unfold Scope.SameName
  split <;> infer_instance

namespace Declaration

/-- The attributes that declare no namespace. -/
def others (attributes : Attributes) : List (String × String) :=
  attributes.entries.filter fun e => !isKey e.1

theorem lookup_others {key : String} (hkey : isKey key = false) (attributes : Attributes) :
    (others attributes).lookup key = attributes.get? key := by
  unfold others Dictionary.get?
  induction attributes.entries with
  | nil => rfl
  | cons e entries ih =>
    obtain ⟨k, v⟩ := e
    by_cases hk : key = k
    · subst hk
      simp [hkey]
    · cases hdeclares : isKey k <;>
        simp [hdeclares, List.lookup_cons, beq_eq_false_iff_ne.mpr hk, ih]

end Declaration

namespace Fragment

mutual

/-- Two fragments, each standing in a scope, with the same shape and texts, with elements of the
same names, and with the same attributes apart from declarations. -/
def NamespaceEquiv (outer outer' : Scope) : Fragment → Fragment → Prop
  | .text content, .text content' => content = content'
  | .element name attributes children, .element name' attributes' children' =>
    (outer.extend attributes).SameName (outer'.extend attributes') name name' ∧
      Declaration.others attributes = Declaration.others attributes' ∧
      NamespaceEquivs (outer.extend attributes) (outer'.extend attributes') children children'
  | _, _ => False

def NamespaceEquivs (outer outer' : Scope) : List Fragment → List Fragment → Prop
  | [], [] => True
  | f :: fs, g :: gs => NamespaceEquiv outer outer' f g ∧ NamespaceEquivs outer outer' fs gs
  | _, _ => False

end

mutual

instance decidableNamespaceEquiv : (outer outer' : Scope) → (f g : Fragment) →
    Decidable (NamespaceEquiv outer outer' f g)
  | _, _, .text content, .text content' => inferInstanceAs (Decidable (content = content'))
  | outer, outer', .element _ attributes children, .element _ attributes' children' =>
    have := decidableNamespaceEquivs (outer.extend attributes) (outer'.extend attributes')
      children children'
    inferInstanceAs (Decidable (_ ∧ _ ∧ _))
  | _, _, .text _, .element _ _ _ => isFalse id
  | _, _, .element _ _ _, .text _ => isFalse id

instance decidableNamespaceEquivs : (outer outer' : Scope) → (fs gs : List Fragment) →
    Decidable (NamespaceEquivs outer outer' fs gs)
  | _, _, [], [] => isTrue trivial
  | outer, outer', f :: fs, g :: gs =>
    have := decidableNamespaceEquiv outer outer' f g
    have := decidableNamespaceEquivs outer outer' fs gs
    inferInstanceAs (Decidable (_ ∧ _))
  | _, _, [], _ :: _ => isFalse id
  | _, _, _ :: _, [] => isFalse id

end

theorem namespaceEquivs_iff {outer outer' : Scope} {fs gs : List Fragment} :
    NamespaceEquivs outer outer' fs gs ↔ List.Forall₂ (NamespaceEquiv outer outer') fs gs := by
  induction fs generalizing gs with
  | nil => cases gs <;> simp [NamespaceEquivs]
  | cons f fs ih => cases gs <;> simp [NamespaceEquivs, ih]

mutual

theorem stringValue_of_namespaceEquiv : ∀ {outer outer' : Scope} (f g : Fragment),
    NamespaceEquiv outer outer' f g → f.stringValue = g.stringValue
  | _, _, .text _, .text _, h => h
  | _, _, .element _ _ fs, .element _ _ gs, h => stringValues_of_namespaceEquivs fs gs h.2.2

theorem stringValues_of_namespaceEquivs : ∀ {outer outer' : Scope} (fs gs : List Fragment),
    NamespaceEquivs outer outer' fs gs → stringValues fs = stringValues gs
  | _, _, [], [], _ => rfl
  | _, _, f :: fs, g :: gs, h => by
    rw [stringValues, stringValues, stringValue_of_namespaceEquiv f g h.1,
      stringValues_of_namespaceEquivs fs gs h.2]

end

end Fragment

/-- Two trees that differ at most in the qualifiers of names and in how these are declared. -/
def Tree.NamespaceEquiv (t u : Tree) : Prop :=
  match t.root, u.root with
  | some f, some g => Fragment.NamespaceEquiv Scope.empty Scope.empty f g
  | none, none => True
  | _, _ => False

instance (t u : Tree) : Decidable (t.NamespaceEquiv u) := by
  unfold Tree.NamespaceEquiv
  split <;> infer_instance

namespace Node

/-- Nodes at the same place of two such trees. -/
inductive SamePlace : Node → Node → Prop
  | text (address : List Nat) (content : String) (s s' : Scope) :
      SamePlace ⟨address, .text content, s⟩ ⟨address, .text content, s'⟩
  | element (address : List Nat) {s s' : Scope} {name name' : String}
      {attributes attributes' : Attributes} {fs gs : List Fragment}
      (hname : s.SameName s' name name')
      (hothers : Declaration.others attributes = Declaration.others attributes')
      (hchildren : Fragment.NamespaceEquivs s s' fs gs) :
      SamePlace ⟨address, .element name attributes fs, s⟩
        ⟨address, .element name' attributes' gs, s'⟩

theorem samePlace_of_namespaceEquiv (address : List Nat) {outer outer' : Scope} {f g : Fragment}
    (h : Fragment.NamespaceEquiv outer outer' f g) :
    SamePlace ⟨address, f, outer.enter f⟩ ⟨address, g, outer'.enter g⟩ := by
  cases f with
  | text content =>
    cases g with
    | text content' =>
      obtain rfl : content = content' := h
      exact .text address content _ _
    | element => exact h.elim
  | element name attributes fs =>
    cases g with
    | text => exact h.elim
    | element => exact .element address h.1 h.2.1 h.2.2

theorem SamePlace.address_eq {n m : Node} (h : n.SamePlace m) : n.address = m.address := by
  cases h <;> rfl

theorem siblings_samePlace (address : List Nat) {outer outer' : Scope} (index : Nat)
    {fs gs : List Fragment} (h : Fragment.NamespaceEquivs outer outer' fs gs) :
    List.Forall₂ SamePlace (siblings address outer index fs)
      (siblings address outer' index gs) := by
  rw [Fragment.namespaceEquivs_iff] at h
  induction h generalizing index with
  | nil => exact .nil
  | cons hfg _ ih => exact .cons (samePlace_of_namespaceEquiv _ hfg) (ih (index + 1))

end Node

theorem Scope.named_of_sameName {s s' : Scope} {element element' : String}
    (h : s.SameName s' element element') (declared : List Declaration) (name : String) :
    s.named declared element name = s'.named declared element' name := by
  unfold SameName at h
  unfold named
  split at h
  · next hs hs' =>
    obtain ⟨rfl, hlocal⟩ := h
    simp only [hs, hs', hlocal]
  · next hs hs' =>
    rw [hs, hs']
    exact congrArg (fun name' => Except.ok (decide (name' = name))) h
  · exact h.elim

theorem Scope.localPart_of_sameName {s s' : Scope} {name name' : String}
    (h : s.SameName s' name name') : Name.localPart name = Name.localPart name' := by
  unfold SameName at h
  split at h
  · exact h.2
  · exact congrArg Name.localPart h
  · exact h.elim

theorem Walk.samePlace_simulation (declared : List Declaration) :
    Simulation declared declared (fun s => ∀ key ∈ s.reads, Declaration.isKey key = false) (· = ·)
      Node.SamePlace where
  passes := by
    intro s n m _ h
    have hpasses : passes declared s.test n = passes declared s.test m := by
      cases h with
      | text => cases s.test <;> rfl
      | element _ hname =>
        cases s.test with
        | name tested => exact Scope.named_of_sameName hname declared tested
        | anyNamespace localName => simp only [passes, Scope.localPart_of_sameName hname]
        | _ => rfl
    rw [hpasses]
    exact corresponds_self fun _ _ => rfl
  reads := by
    intro s n m key hs hreads h
    have hkey := hs key hreads
    cases h with
    | text => rfl
    | element _ _ hothers =>
      rw [Fragment.attributes, Fragment.attributes, ← Declaration.lookup_others hkey, hothers,
        Declaration.lookup_others hkey]
  stringValue := by
    intro n m h
    cases h with
    | text => rfl
    | element _ _ _ hchildren => exact Fragment.stringValues_of_namespaceEquivs _ _ hchildren
  children := by
    intro n m h
    cases h with
    | text => exact .nil
    | element address _ _ hchildren => exact Node.siblings_samePlace address 0 hchildren

section

variable {t u : Tree} {p : Path.Compiled}

theorem Path.Compiled.found_samePlace (h : t.NamespaceEquiv u)
    (hkeys : ∀ key ∈ p.keysRead, Declaration.isKey key = false) (declared : List Declaration) :
    Corresponds (· = ·) (List.Forall₂ (Match.Both Node.SamePlace)) (p.found t declared)
      (p.found u declared) := by
  obtain ⟨root⟩ := t
  obtain ⟨root'⟩ := u
  cases root with
  | none =>
    cases root' with
    | none => exact .ok .nil
    | some => exact h.elim
  | some root =>
    cases root' with
    | none => exact h.elim
    | some root' =>
      apply (Walk.samePlace_simulation declared).found
      · intro s hs key hkey
        exact hkeys key (mem_keysRead.mpr ⟨s, hs, hkey⟩)
      · exact Node.samePlace_of_namespaceEquiv [] h

/-- A path that reads no declaration fails on both trees for the same reason, or it finds the same
places in both, in the same order and with the same texts. -/
theorem evaluate_of_namespaceEquiv (h : t.NamespaceEquiv u)
    (hkeys : ∀ key ∈ p.keysRead, Declaration.isKey key = false) (declared : List Declaration) :
    (∃ e, p.evaluate t declared = .error e ∧ p.evaluate u declared = .error e) ∨
      ∃ found found', p.found t declared = .ok found ∧ p.found u declared = .ok found' ∧
        p.evaluate t declared = .ok (found.map (p.present t)) ∧
        p.evaluate u declared = .ok (found'.map (p.present u)) ∧
        found.map (·.origin.address) = found'.map (·.origin.address) ∧
        (found.map (p.present t)).map Result.stringValue =
          (found'.map (p.present u)).map Result.stringValue := by
  have hfound := Path.Compiled.found_samePlace h hkeys declared
  rcases corresponds_iff.mp hfound with ⟨e, _, ht, hu, rfl⟩ | ⟨found, found', ht, hu, hboth⟩
  · rw [Path.Compiled.evaluate_eq, Path.Compiled.evaluate_eq, ht, hu]
    exact .inl ⟨e, rfl, rfl⟩
  · refine .inr ⟨found, found', ht, hu, ?_⟩
    exact Path.Compiled.answers_of_both Node.SamePlace.address_eq
      (Walk.samePlace_simulation declared).stringValue ht hu hboth

end

/-- `//n:a[./n:b = "x"]/@id` on a tree with a default namespace and on one with two qualifiers, of
which one is declared only where it is used. -/
theorem evaluate_of_namespaceEquiv_qualified :
    let element (name : String) (entries : List (String × String)) :=
      Fragment.element name (Dictionary.ofList entries)
    let t := Tree.ofRoot (element "r" [("xmlns", "urn:p")]
      [element "a" [("id", "1")] [element "b" [] [.text "x"]], element "a" [("id", "2")] []])
    let u := Tree.ofRoot (element "q:r" [("xmlns:q", "urn:p")]
      [element "q:a" [("id", "1")] [element "s:b" [("xmlns:s", "urn:p")] [.text "x"]],
        element "s:a" [("id", "2"), ("xmlns:s", "urn:p")] []])
    let declared : List Declaration := [⟨some "n", "urn:p"⟩]
    ∃ (p : Path.Compiled) (found found' : List Match),
      Path.compile "//n:a[./n:b = \"x\"]/@id" = .ok p ∧ t.NamespaceEquiv u ∧
      (∀ key ∈ p.keysRead, Declaration.isKey key = false) ∧
      p.evaluate t declared = .ok (found.map (p.present t)) ∧
      p.evaluate u declared = .ok (found'.map (p.present u)) ∧
      found.map (·.origin.address) = found'.map (·.origin.address) ∧
      (found'.map (p.present u)).map Result.stringValue = ["1"] := by
  intro element t u declared
  have h : t.NamespaceEquiv u := by decide +kernel
  have hp : ((Path.compile "//n:a[./n:b = \"x\"]/@id").toOption.map fun p =>
      (p.keysRead, (p.evaluate t declared).toOption)) = some (["id"], some [.text "1"]) := by
    decide +kernel
  obtain ⟨p, hp, hanswer⟩ := Option.map_eq_some_iff.mp hp
  rw [Prod.mk.injEq, toOption_eq_some_iff] at hanswer
  obtain ⟨hread, hanswer⟩ := hanswer
  have hkeys : ∀ key ∈ p.keysRead, Declaration.isKey key = false := by
    rw [hread]
    decide
  rcases evaluate_of_namespaceEquiv h hkeys declared with ⟨e, he, -⟩ |
    ⟨found, found', -, -, ht, hu, haddress, htext⟩
  · rw [hanswer] at he
    cases he
  · refine ⟨p, found, found', toOption_eq_some_iff.mp hp, h, hkeys, ht, hu, haddress, ?_⟩
    rw [← htext, ← Except.ok.inj (hanswer.symm.trans ht)]
    rfl

end MarkupTree

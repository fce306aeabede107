import MarkupTree.Proofs.Tree.Reading
import MarkupTree.Proofs.Tree.Written

/-!
# Trees from texts and from values

A tree may be read from a JSON value or from the text of one. Fragments are read alike, as their
fields hold texts only and a number that changes on its way through the text remains a number. Of
documents the reader of values takes more: whatever holds no list of roots is an empty tree to it.
-/

set_option autoImplicit false

namespace MarkupTree

open Json

section Expected

variable {α β : Type}

theorem expected_bind (x : Option α) (f : α → Option β) :
    ((expected x).bind fun a => expected (f a)) = expected (x.bind f) := by
  cases x <;> rfl

@[simp] theorem toOption_expected (x : Option α) : (expected x).toOption = x := by
  cases x <;> rfl

theorem mapM_expected {f : α → Except Fault β} {g : α → Option β} {xs : List α}
    (h : ∀ x ∈ xs, f x = expected (g x)) : xs.mapM f = expected (xs.mapM g) := by
  induction xs with
  | nil => rfl
  | cons x xs ih =>
    rw [List.forall_mem_cons] at h
    rw [List.mapM_cons, List.mapM_cons, h.1, ih h.2]
    cases g x with
    | none => rfl
    | some y => cases xs.mapM g <;> rfl

end Expected

namespace Json

theorem valuesOf_map (key : String) (f : Json → Json) (entries : List (String × Json)) :
    valuesOf key (entries.map fun e => (e.1, f e.2)) = (valuesOf key entries).map f := by
  induction entries with
  | nil => rfl
  | cons e entries ih =>
    by_cases hkey : key = e.1
    · subst hkey
      rw [List.map_cons, valuesOf_cons_self, ih]
      exact (congrArg (List.map f) (valuesOf_cons_self e.1 e.2 entries)).symm
    · have hmapped : key ≠ ((e.1, f e.2) : String × Json).1 := hkey
      rw [List.map_cons, valuesOf_cons_of_ne hmapped, valuesOf_cons_of_ne hkey, ih]

theorem text?_reread (v : Json) : v.reread.text? = v.text? := by
  cases v <;> rw [reread, mapNumbers] <;> rfl

end Json

namespace Fragment

theorem Kind.ofJson?_reread (v : Json) : Kind.ofJson? v.reread = Kind.ofJson? v := by
  cases v with
  | number n =>
    rw [reread, mapNumbers]
    cases n with
    | whole n => rfl
    | double d =>
      obtain ⟨d', hd'⟩ := Number.exists_reread_double d
      rw [hd']
      rfl
  | null => rfl
  | bool b => rfl
  | text s => rfl
  | array items =>
    rw [reread_array]
    rfl
  | object entries =>
    rw [reread_object]
    rfl

theorem attributesOf?_reread (v : Json) : attributesOf? v.reread = attributesOf? v := by
  cases v with
  | object entries =>
    have htexts : (entries.map fun e => (e.1, e.2.reread)).mapM
        (fun e => e.2.text?.map fun s => (e.1, s)) =
          entries.mapM fun e => e.2.text?.map fun s => (e.1, s) := by
      induction entries with
      | nil => rfl
      | cons e entries ih =>
        rw [List.map_cons, List.mapM_cons, List.mapM_cons, ih, text?_reread]
    rw [reread_object, attributesOf?, htexts, attributesOf?]
  | array items =>
    rw [reread_array]
    rfl
  | _ => rfl

/-- Entries with the same values under every key but the one that tells the kind. -/
def SameFields (entries entries' : List (String × Json)) : Prop :=
  ∀ key, key ≠ "type" → valuesOf key entries' = (valuesOf key entries).map reread

theorem textOf?_of_sameFields {entries entries' : List (String × Json)}
    (h : SameFields entries entries') {key : String} (hkey : key ≠ "type") :
    textOf? key entries' = textOf? key entries := by
  rw [textOf?, textOf?, h key hkey]
  match valuesOf key entries with
  | [] => rfl
  | [v] => exact text?_reread v
  | _ :: _ :: _ => rfl

theorem ofParts?_of_sameFields {entries entries' : List (String × Json)}
    (h : SameFields entries entries') (kind : Kind) (lists : List (Option (List Fragment))) :
    ofParts? kind entries' lists = ofParts? kind entries lists := by
  have htext : textOf? "text" entries' = textOf? "text" entries :=
    textOf?_of_sameFields h (by decide)
  have hname : textOf? "name" entries' = textOf? "name" entries :=
    textOf?_of_sameFields h (by decide)
  have hvalues := h "attributes" (by decide)
  cases kind with
  | text => rw [ofParts?, ofParts?, htext]
  | element =>
    simp only [ofParts?, hname, hvalues]
    match valuesOf "attributes" entries with
    | [] => rfl
    | [v] => simp only [List.map_singleton, attributesOf?_reread]
    | _ :: _ :: _ => rfl

theorem sameFields_map (entries : List (String × Json)) :
    SameFields entries (entries.map fun e => (e.1, e.2.reread)) :=
  fun key _ => valuesOf_map key reread entries

mutual

theorem ofJson?_reread : (v : Json) → ofJson? v.reread = ofJson? v
  | .object entries => by
    rw [reread_object, ofJson?, ofJson?, valuesOf_map, childLists_reread entries]
    match valuesOf "type" entries with
    | [] => rfl
    | [tag] =>
      simp only [List.map_singleton, Kind.ofJson?_reread,
        ofParts?_of_sameFields (sameFields_map entries)]
    | _ :: _ :: _ => rfl
  | .array [] => rfl
  | .array (tag :: fields) => by
    rw [reread_array, List.map_cons, ofJson?, ofJson?, Kind.ofJson?_reread]
    simp only [ofFields?_reread fields]
  | .null => rfl
  | .bool _ => rfl
  | .number _ => by
    rw [reread, mapNumbers, ofJson?, ofJson?] <;> nofun
  | .text _ => rfl

theorem ofFields?_reread : (fields : List Json) → (kind : Kind) →
    ofFields? kind (fields.map reread) = ofFields? kind fields
  | [], _ => rfl
  | [v], kind => by
    rw [List.map_singleton, ofFields?, ofFields?, text?_reread]
  | [name, attributes], kind => by
    simp only [List.map_cons, List.map_nil, ofFields?, text?_reread, attributesOf?_reread]
  | [name, attributes, children], kind => by
    simp only [List.map_cons, List.map_nil, ofFields?, text?_reread, attributesOf?_reread,
      childrenOf?_reread children]
  | _ :: _ :: _ :: _ :: _, kind => by
    simp only [List.map_cons, ofFields?]

theorem childLists_reread : (entries : List (String × Json)) →
    childLists (entries.map fun e => (e.1, e.2.reread)) = childLists entries
  | [] => rfl
  | (key, v) :: rest => by
    rw [List.map_cons, childLists, childLists, childrenOf?_reread v, childLists_reread rest]

theorem childrenOf?_reread : (v : Json) → childrenOf? v.reread = childrenOf? v
  | .array items => by
    rw [reread_array, childrenOf?, childrenOf?, listOfJson?_reread items]
  | .null => rfl
  | .bool _ => rfl
  | .number _ => by
    rw [reread, mapNumbers, childrenOf?, childrenOf?] <;> nofun
  | .text _ => rfl
  | .object entries => by
    rw [reread_object, childrenOf?, childrenOf?] <;> nofun

theorem listOfJson?_reread :
    (items : List Json) → listOfJson? (items.map reread) = listOfJson? items
  | [] => rfl
  | v :: rest => by
    rw [List.map_cons, listOfJson?, listOfJson?, ofJson?_reread v, listOfJson?_reread rest]

end

theorem ofEntries?_of_sameFields {entries entries' : List (String × Json)}
    (h : SameFields entries entries') (kind : Kind) :
    ofEntries? kind entries' = ofEntries? kind entries := by
  have hlists : childLists entries' = childLists entries := by
    rw [childLists_eq, childLists_eq, h "elements" (by decide), List.map_map]
    exact List.map_congr_left fun v _ => childrenOf?_reread v
  rw [ofEntries?, ofEntries?, hlists, ofParts?_of_sameFields h]

theorem kindAnswer_eq (v : Json) : kindAnswer v = expected (v.text?.bind Kind.ofName?) := by
  cases v <;> rfl

/-- The fields of an object: its entries as they are read, without those that tell the kind. -/
def fieldsRead (entries : List (String × Json)) : List (String × Json) :=
  (entries.filter (·.1 ≠ "type")).map fun e => (e.1, e.2.reread)

theorem fieldsRead_cons_type (v : Json) (entries : List (String × Json)) :
    fieldsRead (("type", v) :: entries) = fieldsRead entries := by
  rw [fieldsRead, List.filter_cons_of_neg (by simp), fieldsRead]

theorem fieldsRead_cons_of_ne {e : String × Json} (h : e.1 ≠ "type")
    (entries : List (String × Json)) :
    fieldsRead (e :: entries) = (e.1, e.2.reread) :: fieldsRead entries := by
  rw [fieldsRead, List.filter_cons_of_pos (by simpa using h), List.map_cons, fieldsRead]

theorem sameFields_fieldsRead (entries : List (String × Json)) :
    SameFields entries (fieldsRead entries) := by
  intro key hkey
  rw [fieldsRead, valuesOf_map, valuesOf, List.filter_filter, valuesOf]
  congr 2
  apply List.filter_congr
  intro e _
  by_cases he : e.1 = key
  · simp [he, hkey]
  · simp [he]

theorem mapM_fieldAnswer_eq {entries : List (String × Json)}
    (hdepth : depthEntries entries ≤ fieldDepth) :
    entries.mapM fieldAnswer =
      expected (if valuesOf "type" entries = [] then some (fieldsRead entries) else none) := by
  induction entries with
  | nil => rfl
  | cons e entries ih =>
    obtain ⟨key, v⟩ := e
    rw [depthEntries, Nat.max_le] at hdepth
    rw [List.mapM_cons, ih hdepth.2, fieldAnswer]
    by_cases hkey : key = "type"
    · subst hkey
      rw [if_pos rfl, valuesOf_cons_self, if_neg (List.cons_ne_nil _ _)]
      rfl
    · have hne : "type" ≠ ((key, v) : String × Json).1 := Ne.symm hkey
      rw [if_neg hkey, entryWithin, within, if_pos hdepth.1, valuesOf_cons_of_ne hne,
        fieldsRead_cons_of_ne hkey]
      split <;> rfl

theorem entriesAnswer_eq {entries : List (String × Json)}
    (hdepth : depthEntries entries ≤ fieldDepth) :
    entriesAnswer entries =
      expected (((textOf? "type" entries).bind Kind.ofName?).map
        fun kind => (kind, fieldsRead entries)) := by
  induction entries with
  | nil => rfl
  | cons e entries ih =>
    obtain ⟨key, v⟩ := e
    rw [depthEntries, Nat.max_le] at hdepth
    rw [entriesAnswer]
    by_cases hkey : key = "type"
    · subst hkey
      rw [if_pos rfl, kindAnswer_eq, mapM_fieldAnswer_eq hdepth.2, textOf?, valuesOf_cons_self,
        fieldsRead_cons_type]
      cases valuesOf "type" entries with
      | nil =>
        rw [if_pos rfl]
        cases v.text?.bind Kind.ofName? <;> rfl
      | cons w more =>
        rw [if_neg (List.cons_ne_nil w more)]
        cases v.text?.bind Kind.ofName? <;> rfl
    · have hne : "type" ≠ ((key, v) : String × Json).1 := Ne.symm hkey
      have htext : textOf? "type" ((key, v) :: entries) = textOf? "type" entries := by
        rw [textOf?, textOf?, valuesOf_cons_of_ne hne]
      rw [if_neg hkey, entryWithin, within, if_pos hdepth.1, ih hdepth.2, htext,
        fieldsRead_cons_of_ne hkey]
      cases (textOf? "type" entries).bind Kind.ofName? <;> rfl

theorem rootAnswer_eq {v : Json} (hdepth : v.depth ≤ fieldDepth + 1) :
    rootAnswer v = expected (ofRootJson? v) := by
  cases v with
  | object entries =>
    rw [depth, Nat.add_le_add_iff_right] at hdepth
    rw [rootAnswer, entriesAnswer_eq hdepth, expected_bind, ofRootJson?]
    congr 1
    cases textOf? "type" entries with
    | none => rfl
    | some name =>
      cases hkind : Kind.ofName? name with
      | none => simp [hkind]
      | some kind =>
        have hread := ofEntries?_of_sameFields (sameFields_fieldsRead entries) kind
        simp [hkind, hread]
  | array items =>
    cases items with
    | nil => rfl
    | cons tag fields =>
      rw [depth, Nat.add_le_add_iff_right, depthItems, Nat.max_le] at hdepth
      have hfields : fields.mapM (within fieldDepth) = .ok (fields.map reread) := by
        rw [mapM_within, if_pos hdepth.2]
      have hread : ∀ kind, ofFields? kind (fields.map reread) = ofFields? kind fields :=
        ofFields?_reread fields
      rw [rootAnswer, hfields, kindAnswer_eq, ofRootJson?]
      cases tag.text? with
      | none => rfl
      | some name =>
        cases hkind : Kind.ofName? name with
        | none => simp [hkind, expected, Except.bind]
        | some kind => simp [hkind, expected, Except.bind, hread]
  | _ => rfl

theorem rootsAnswer_array {items : List Json} (hdepth : depthItems items ≤ fieldDepth + 1) :
    rootsAnswer (.array items) = expected (items.mapM ofRootJson?) :=
  mapM_expected fun v hv => rootAnswer_eq (depthItems_le_iff.mp hdepth v hv)

end Fragment

namespace Tree

open Fragment (fieldDepth rootsAnswer rootsAnswer_array ofRootJson?)

/-- The roots of a document: an object with a list of them, or without an entry for it, or an array
that is empty or holds that list alone. -/
def rootsOf? : Json → Option (List Fragment)
  | .object entries =>
    match valuesOf "elements" entries with
    | [] => some []
    | [.array items] => items.mapM ofRootJson?
    | _ => none
  | .array [] => some []
  | .array [.array items] => items.mapM ofRootJson?
  | _ => none

theorem rootsAnswer_eq {v : Json} (hdepth : v.depth ≤ fieldDepth + 2) :
    rootsAnswer v = expected (v.items?.bind (·.mapM ofRootJson?)) := by
  cases v with
  | array items =>
    rw [depth, Nat.add_le_add_iff_right] at hdepth
    exact rootsAnswer_array hdepth
  | _ => rfl

theorem entriesAnswer_some {entries : List (String × Json)} (roots : List Fragment) :
    entriesAnswer (some roots) entries =
      expected (if valuesOf "elements" entries = [] then some roots else none) := by
  induction entries with
  | nil => rfl
  | cons e entries ih =>
    obtain ⟨key, v⟩ := e
    rw [entriesAnswer]
    by_cases hkey : key = "elements"
    · subst hkey
      rw [if_pos rfl, valuesOf_cons_self, if_neg (List.cons_ne_nil _ _)]
      rfl
    · have hne : "elements" ≠ ((key, v) : String × Json).1 := Ne.symm hkey
      rw [if_neg hkey, ih, valuesOf_cons_of_ne hne]

theorem entriesAnswer_none {entries : List (String × Json)}
    (hdepth : depthEntries entries ≤ fieldDepth + 2) :
    entriesAnswer none entries = expected (rootsOf? (.object entries)) := by
  induction entries with
  | nil => rfl
  | cons e entries ih =>
    obtain ⟨key, v⟩ := e
    rw [depthEntries, Nat.max_le] at hdepth
    rw [entriesAnswer]
    by_cases hkey : key = "elements"
    · subst hkey
      rw [if_pos rfl, rootsAnswer_eq hdepth.1, rootsOf?, valuesOf_cons_self]
      simp only [Option.isSome_none, Bool.false_eq_true, if_false, entriesAnswer_some,
        expected_bind]
      congr 1
      cases valuesOf "elements" entries with
      | nil => cases v <;> simp [items?]
      | cons w more => simp
    · have hne : "elements" ≠ ((key, v) : String × Json).1 := Ne.symm hkey
      rw [if_neg hkey, ih hdepth.2, rootsOf?, rootsOf?, valuesOf_cons_of_ne hne]

theorem toOption_documentAnswer {v : Json} (hdepth : v.depth ≤ 127) :
    (documentAnswer v).toOption = rootsOf? v := by
  cases v with
  | object entries =>
    rw [depth] at hdepth
    have hentries : depthEntries entries ≤ fieldDepth + 2 := Nat.le_of_succ_le_succ hdepth
    rw [documentAnswer, entriesAnswer_none hentries, toOption_expected]
  | array items =>
    cases items with
    | nil => rfl
    | cons w more =>
      cases more with
      | nil =>
        rw [depth, depthItems, depthItems, Nat.max_zero] at hdepth
        have hw : w.depth ≤ fieldDepth + 2 := Nat.le_of_succ_le_succ hdepth
        rw [documentAnswer, rootsAnswer_eq hw, toOption_expected]
        cases w <;> rfl
      | cons w' more =>
        have hnone : rootsOf? (.array (w :: w' :: more)) = none := by simp [rootsOf?]
        rw [documentAnswer, hnone]
        cases rootsAnswer w <;> rfl
  | _ => rfl

/-- A document of any shape is read from its text as the document, as long as it does not nest too
deep. -/
theorem ofText_print_eq {v : Json} (hv : v.Regular) (hdepth : v.depth ≤ 127) :
    (Tree.ofText v.print).toOption = (rootsOf? v).map fun roots => ⟨roots.head?⟩ := by
  rw [ofText_print hv, ← toOption_documentAnswer hdepth]
  cases documentAnswer v <;> rfl

theorem head?_eq_none_of_mapM {items : List Json} {roots : List Fragment}
    (h : items.mapM ofRootJson? = some roots) (hroots : roots.head? = none) : items = [] := by
  cases items with
  | nil => rfl
  | cons v items =>
    rw [List.head?_eq_none_iff] at hroots
    rw [List.mapM_cons, hroots] at h
    cases hv : ofRootJson? v with
    | none => simp [hv] at h
    | some f => cases hitems : items.mapM ofRootJson? <;> simp [hv, hitems] at h

theorem agree_object_iff (entries : List (String × Json)) :
    ((rootsOf? (.object entries)).map fun roots => ⟨roots.head?⟩) = ofJson? (.object entries) ↔
      valuesOf "elements" entries = [] ∨
        ∃ items, valuesOf "elements" entries = [.array items] := by
  rw [rootsOf?, ofJson?]
  cases valuesOf "elements" entries with
  | nil => exact ⟨fun _ => .inl rfl, fun _ => rfl⟩
  | cons v more =>
    cases more with
    | cons => simp
    | nil =>
      cases v with
      | array items =>
        refine ⟨fun _ => .inr ⟨items, rfl⟩, fun _ => ?_⟩
        dsimp only
        cases items.mapM ofRootJson? <;> rfl
      | _ => simp

theorem agree_array_iff (items : List Json) :
    ((rootsOf? (.array items)).map fun roots => ⟨roots.head?⟩) = ofJson? (.array items) ↔
      items = [] ∨ items = [.array []] := by
  have hempty : ofJson? (.array items) = some Tree.empty := by simp [ofJson?]
  rw [hempty]
  cases items with
  | nil => exact ⟨fun _ => .inl rfl, fun _ => rfl⟩
  | cons v more =>
    cases more with
    | cons => simp [rootsOf?]
    | nil =>
      cases v with
      | array roots =>
        simp only [rootsOf?, Option.map_eq_some_iff, Tree.empty, Tree.mk.injEq, List.cons_ne_nil,
          List.cons.injEq, Json.array.injEq, and_true, false_or]
        constructor
        · rintro ⟨fs, hfs, hhead⟩
          exact head?_eq_none_of_mapM hfs hhead
        · rintro rfl
          exact ⟨[], rfl, rfl⟩
      | _ => simp [rootsOf?]

theorem ofText_print_of_rootsOf? {v : Json} (hv : v.Regular) (hdepth : v.depth ≤ 127)
    {roots : List Fragment} (hroots : rootsOf? v = some roots) :
    Tree.ofText v.print = .ok ⟨roots.head?⟩ := by
  have hread := ofText_print_eq hv hdepth
  rw [hroots] at hread
  cases h : Tree.ofText v.print with
  | error fault =>
    rw [h] at hread
    cases hread
  | ok t =>
    rw [h] at hread
    cases hread
    rfl

/-- The two readers agree on objects that hold one list of roots or have no entry for it, and on no
other documents but two that write an empty tree. An object without the entry is an empty tree to
both. -/
theorem readers_agree_iff {v : Json} (hv : v.Regular) (hdepth : v.depth ≤ 127) :
    ((Tree.ofText v.print).toOption = Tree.ofJson? v ↔
      (∃ entries, v = .object entries ∧ (valuesOf "elements" entries = [] ∨
          ∃ items, valuesOf "elements" entries = [.array items])) ∨
        v = .array [] ∨ v = .array [.array []]) ∧
    ∀ entries, v = .object entries → valuesOf "elements" entries = [] →
      Tree.ofText v.print = .ok Tree.empty ∧ Tree.ofJson? v = some Tree.empty := by
  constructor
  · rw [ofText_print_eq hv hdepth]
    cases v with
    | object entries => simp [agree_object_iff entries]
    | array items => simp [agree_array_iff items]
    | _ => simp [rootsOf?, ofJson?]
  · rintro entries rfl hnone
    have hroots : rootsOf? (.object entries) = some [] := by rw [rootsOf?, hnone]
    exact ⟨ofText_print_of_rootsOf? hv hdepth hroots, by rw [ofJson?, hnone]⟩

/-- A number under `elements`: the reader of texts refuses the document, the reader of values takes
it for an empty tree. -/
theorem elements_without_list_read_apart :
    let v := Json.object [("elements", .number (.whole 5))]
    v.depth ≤ 127 ∧ Tree.ofText v.print = .error .mismatched ∧ Tree.ofJson? v = some Tree.empty :=
  ⟨by decide, rfl, rfl⟩

/-- A document of a version and one text, and one of a version alone. -/
theorem readers_agree_iff_versioned :
    let version := ("version", Json.number (.double ⟨false, Double.one⟩))
    let root := Json.object [("type", .text "text"), ("text", .text "x")]
    let v := Json.object [version, ("elements", .array [root])]
    let w := Json.object [version]
    v.Regular ∧ v.depth ≤ 127 ∧ (Tree.ofText v.print).toOption = some ⟨some (.text "x")⟩ ∧
      w.Regular ∧ w.depth ≤ 127 ∧ Tree.ofText w.print = .ok Tree.empty := by
  intro version root v w
  have hone : (Json.Number.double ⟨false, Double.one⟩).Regular :=
    ⟨by decide +kernel, by decide +kernel⟩
  have hversion : version.2.Regular := .number hone
  have hroot : root.Regular := .object (by
    simp only [List.forall_mem_cons]
    exact ⟨.text _, .text _, nofun⟩)
  have hv : v.Regular := .object (by
    simp only [List.forall_mem_cons]
    exact ⟨hversion, .array (List.forall_mem_singleton.mpr hroot), nofun⟩)
  have hw : w.Regular := .object (List.forall_mem_singleton.mpr hversion)
  have hvdepth : v.depth ≤ 127 := by decide +kernel
  have hwdepth : w.depth ≤ 127 := by decide +kernel
  have hagree := (readers_agree_iff hv hvdepth).1.mpr (.inl ⟨_, rfl, .inr ⟨[root], rfl⟩⟩)
  exact ⟨hv, hvdepth, hagree.trans rfl, hw, hwdepth,
    ((readers_agree_iff hw hwdepth).2 _ rfl rfl).1⟩

end Tree

end MarkupTree

import MarkupTree.Proofs.Tree.Reading
import MarkupTree.Proofs.Tree.Written

/-!
# Texts that write a tree

The text of a tree is read back as the tree. Only texts are limited in how deep they may nest: 127
levels, of which the document and its list are the first two.
-/

set_option autoImplicit false

namespace MarkupTree

open Json Json.Reader

/-- Values that hold texts alone, in arrays and objects. -/
inductive Json.Textual : Json → Prop
  | text (s : String) : Textual (.text s)
  | array {items : List Json} : (∀ v ∈ items, Textual v) → Textual (.array items)
  | object {entries : List (String × Json)} :
      (∀ e ∈ entries, Textual e.2) → Textual (.object entries)

theorem Json.Textual.regular {v : Json} (h : Textual v) : v.Regular := by
  induction h with
  | text s => exact .text s
  | array _ ih => exact .array ih
  | object _ ih => exact .object ih

theorem Json.Textual.reread_eq {v : Json} (h : Textual v) : v.reread = v := by
  induction h with
  | text s => rfl
  | @array items _ ih =>
    rw [reread_array]
    exact congrArg Json.array ((List.map_congr_left ih).trans (List.map_id' items))
  | @object entries _ ih =>
    rw [reread_object]
    have hentries : ∀ e ∈ entries, (e.1, e.2.reread) = e :=
      fun e he => Prod.ext rfl (ih e he)
    exact congrArg Json.object ((List.map_congr_left hentries).trans (List.map_id' entries))

namespace Fragment

theorem mem_fields_element {name : String} {attributes : Attributes} {children : List Fragment}
    {e : String × Json} (h : e ∈ (element name attributes children).fields) :
    e = ("name", .text name) ∨ e = ("attributes", attributesJson attributes) ∨
      e = ("elements", .array (listToJson children)) := by
  rw [fields, List.mem_cons, List.mem_append] at h
  refine h.imp_right (Or.imp ?_ ?_)
  · split
    · exact nofun
    · exact List.mem_singleton.mp
  · split
    · exact nofun
    · exact List.mem_singleton.mp

theorem textual_attributesJson (attributes : Attributes) : Textual (attributesJson attributes) := by
  refine .object ?_
  intro e he
  obtain ⟨_, -, rfl⟩ := List.mem_map.mp he
  exact .text _

mutual

theorem textual_fields : (f : Fragment) → ∀ e ∈ f.fields, Textual e.2
  | .text content => by
    intro e he
    rw [fields, List.mem_singleton] at he
    rw [he]
    exact .text content
  | .element name attributes children => by
    have hchildren := textual_listToJson children
    intro e he
    obtain rfl | rfl | rfl := mem_fields_element he
    · exact .text name
    · exact textual_attributesJson attributes
    · exact .array hchildren

theorem textual_listToJson : (fs : List Fragment) → ∀ v ∈ listToJson fs, Textual v
  | [] => by
    rw [listToJson]
    exact nofun
  | f :: fs => by
    rw [listToJson, toJson_eq, List.forall_mem_cons]
    refine ⟨.object ?_, textual_listToJson fs⟩
    exact List.forall_mem_cons.mpr ⟨.text _, textual_fields f⟩

end

theorem key_ne_type {f : Fragment} {e : String × Json} (h : e ∈ f.fields) : e.1 ≠ "type" := by
  cases f with
  | text content =>
    rw [fields, List.mem_singleton] at h
    rw [h]
    exact of_decide_eq_true rfl
  | element name attributes children =>
    obtain rfl | rfl | rfl := mem_fields_element h <;> exact of_decide_eq_true rfl

theorem mapM_fieldAnswer {entries : List (String × Json)} (hkeys : ∀ e ∈ entries, e.1 ≠ "type")
    (htextual : ∀ e ∈ entries, Textual e.2) :
    entries.mapM fieldAnswer =
      if depthEntries entries ≤ fieldDepth then .ok entries else .error .malformed := by
  have hanswer : entries.mapM fieldAnswer = entries.mapM (entryWithin fieldDepth) := by
    induction entries with
    | nil => rfl
    | cons e entries ih =>
      rw [List.forall_mem_cons] at hkeys htextual
      rw [List.mapM_cons, List.mapM_cons, ih hkeys.2 htextual.2, fieldAnswer, if_neg hkeys.1]
  have hentries : ∀ e ∈ entries, (e.1, e.2.reread) = e :=
    fun e he => Prod.ext rfl (htextual e he).reread_eq
  rw [hanswer, mapM_entryWithin, (List.map_congr_left hentries).trans (List.map_id' entries)]

theorem rootAnswer_toJson (f : Fragment) :
    rootAnswer f.toJson =
      if f.toJson.depth ≤ fieldDepth + 1 then .ok f else .error .malformed := by
  have hread : ofEntries? f.kind f.fields = some f := ofEntries?_of_fields f (fields_fields f)
  have hdepth : f.toJson.depth = depthEntries f.fields + 1 := by
    rw [toJson_eq, depth, depthEntries]
    exact congrArg (· + 1) (Nat.zero_max _)
  rw [hdepth, toJson_eq, rootAnswer, entriesAnswer, if_pos rfl, kindAnswer, Kind.ofName?_name,
    mapM_fieldAnswer (fun e he => key_ne_type he) f.textual_fields]
  simp only [Nat.add_le_add_iff_right]
  split
  · simp only [expected, Except.bind, Except.map, hread]
  · rfl

end Fragment

namespace Tree

open Fragment (rootAnswer rootsAnswer)

theorem textual_toJson (t : Tree) : Textual t.toJson := by
  refine .object ?_
  rw [List.forall_mem_singleton, ← Fragment.listToJson_eq_map]
  exact .array (Fragment.textual_listToJson t.root.toList)

theorem documentAnswer_toJson (t : Tree) :
    documentAnswer t.toJson =
      if t.toJson.depth ≤ 127 then .ok t.root.toList else .error .malformed := by
  have hanswer : documentAnswer t.toJson = (t.root.toList.map Fragment.toJson).mapM rootAnswer := by
    rw [toJson, documentAnswer, entriesAnswer, if_pos rfl, rootsAnswer]
    cases (t.root.toList.map Fragment.toJson).mapM rootAnswer <;> rfl
  rw [hanswer]
  obtain ⟨_ | f⟩ := t
  · rfl
  · have hdepth : (Tree.toJson ⟨some f⟩).depth = f.toJson.depth + 2 := by
      simp [toJson, depth, depthEntries, depthItems]
    rw [hdepth, show 127 = Fragment.fieldDepth + 1 + 2 from rfl]
    simp only [Nat.add_le_add_iff_right, Option.toList_some, List.map_singleton, List.mapM_cons,
      List.mapM_nil, Fragment.rootAnswer_toJson]
    split <;> rfl

/-- The text of a tree is read back as the tree if it nests at most 127 levels deep, and refused as
no JSON if it nests deeper. -/
theorem ofText_toText (t : Tree) :
    Tree.ofText t.toText = if t.toJson.depth ≤ 127 then .ok t else .error .malformed := by
  rw [toText, ofText_print t.textual_toJson.regular, documentAnswer_toJson]
  split
  · exact congrArg Except.ok t.head?_roots
  · rfl

end Tree

/-- Nothing of a tree or a result is lost in its JSON form. -/
theorem json_form_reads_back :
    (∀ t : Tree, Tree.ofJson? t.toJson = some t ∧ Tree.ofJson? t.toJson.canonical = some t ∧
      Tree.ofText t.toText = if t.toJson.depth ≤ 127 then .ok t else .error .malformed) ∧
    ∀ r : Result, Result.ofJson? r.toJson = some r ∧ Result.ofJson? r.toJson.canonical = some r :=
  ⟨fun t => ⟨t.ofJson?_toJson, t.ofJson?_canonical_toJson, t.ofText_toText⟩,
    fun r => ⟨r.ofJson?_toJson, r.ofJson?_canonical_toJson⟩⟩

end MarkupTree

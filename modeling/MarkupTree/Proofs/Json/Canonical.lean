import MarkupTree.Proofs.Namespace.Extension
import MarkupTree.Json.Basic

/-!
# Canonical values

The canonical form of an object holds under a key what is written last under it. So entries that
stand in key order, as those of a dictionary do, are in canonical form already.
-/

set_option autoImplicit false

namespace MarkupTree

namespace Dictionary

variable {α : Type}

theorem place_of_lt {key : String} (value : α) {l : List (String × α)} (h : ∀ e ∈ l, e.1 < key) :
    place key value l = l ++ [(key, value)] := by
  induction l with
  | nil => rfl
  | cons e l ih =>
    rw [List.forall_mem_cons] at h
    have hlt : ¬ key < e.1 := String.lt_asymm h.1
    have hne : key ≠ e.1 := (String.ne_of_lt h.1).symm
    rw [place, if_neg hlt, if_neg hne, ih h.2, List.cons_append]

theorem foldl_place {placed entries : List (String × α)}
    (h : (placed ++ entries).Pairwise fun a b => a.1 < b.1) :
    entries.foldl (fun l e => place e.1 e.2 l) placed = placed ++ entries := by
  induction entries generalizing placed with
  | nil => simp
  | cons e entries ih =>
    have hbefore : ∀ e' ∈ placed, e'.1 < e.1 := by
      intro e' he'
      exact (List.pairwise_append.mp h).2.2 e' he' e List.mem_cons_self
    rw [List.append_cons] at h
    rw [List.foldl_cons, place_of_lt e.2 hbefore, ih h, List.append_assoc, List.singleton_append]

theorem entries_insertAll (d : Dictionary α) (entries : List (String × α)) :
    (d.insertAll entries).entries = entries.foldl (fun l e => place e.1 e.2 l) d.entries := by
  induction entries generalizing d with
  | nil => rfl
  | cons e entries ih => exact ih (d.insert e.1 e.2)

theorem ofList_entries (d : Dictionary α) : ofList d.entries = d := by
  apply ext
  rw [ofList, entries_insertAll]
  exact foldl_place d.sorted

end Dictionary

namespace Json

open Dictionary

theorem canonicalEntries_eq_foldl (placed entries : List (String × Json)) :
    canonicalEntries placed entries =
      (entries.map fun e => (e.1, e.2.canonical)).foldl (fun l e => place e.1 e.2 l) placed := by
  induction entries generalizing placed with
  | nil => rfl
  | cons e entries ih => exact ih (place e.1 e.2.canonical placed)

theorem canonicalEntries_of_sorted {entries : List (String × Json)}
    (h : entries.Pairwise fun a b => a.1 < b.1) :
    canonicalEntries [] entries = entries.map fun e => (e.1, e.2.canonical) := by
  rw [canonicalEntries_eq_foldl]
  exact foldl_place (List.pairwise_map.mpr h)

theorem canonicalEntries_sorted {placed : List (String × Json)}
    (h : placed.Pairwise fun a b => a.1 < b.1) (entries : List (String × Json)) :
    (canonicalEntries placed entries).Pairwise fun a b => a.1 < b.1 := by
  induction entries generalizing placed with
  | nil => exact h
  | cons e entries ih => exact ih (place_sorted e.1 e.2.canonical h)

theorem valuesOf_cons_of_ne {key : String} {e : String × Json} (h : key ≠ e.1)
    (entries : List (String × Json)) : valuesOf key (e :: entries) = valuesOf key entries := by
  rw [valuesOf, List.filter_cons_of_neg (by simpa using h.symm), valuesOf]

theorem valuesOf_cons_self (key : String) (v : Json) (entries : List (String × Json)) :
    valuesOf key ((key, v) :: entries) = v :: valuesOf key entries := by
  rw [valuesOf, List.filter_cons_of_pos (by simp), List.map_cons, valuesOf]

theorem valuesOf_eq_lookup {entries : List (String × Json)}
    (h : entries.Pairwise fun a b => a.1 < b.1) (key : String) :
    valuesOf key entries = (entries.lookup key).toList := by
  induction entries with
  | nil => rfl
  | cons e entries ih =>
    rw [List.pairwise_cons] at h
    by_cases hkey : key = e.1
    · subst hkey
      rw [List.lookup_cons_self, valuesOf_cons_self, ih h.2, lookup_eq_none_of_lt h.1]
      rfl
    · rw [valuesOf_cons_of_ne hkey, lookup_cons_of_ne hkey, ih h.2]

theorem lookup_canonicalEntries (key : String) (placed entries : List (String × Json)) :
    (canonicalEntries placed entries).lookup key =
      ((valuesOf key entries).getLast?.map canonical).or (placed.lookup key) := by
  induction entries generalizing placed with
  | nil => rfl
  | cons e entries ih =>
    obtain ⟨k, v⟩ := e
    rw [canonicalEntries, ih, lookup_place]
    by_cases hkey : key = k
    · subst hkey
      rw [if_pos rfl, valuesOf_cons_self, List.getLast?_cons]
      cases (valuesOf key entries).getLast? <;> rfl
    · rw [if_neg hkey, valuesOf_cons_of_ne hkey]

theorem valuesOf_canonicalEntries (key : String) (entries : List (String × Json)) :
    valuesOf key (canonicalEntries [] entries) =
      ((valuesOf key entries).getLast?.map canonical).toList := by
  rw [valuesOf_eq_lookup (canonicalEntries_sorted List.Pairwise.nil entries),
    lookup_canonicalEntries, List.lookup_nil, Option.or_none]

theorem valuesOf_canonicalEntries_once {key : String} {entries : List (String × Json)}
    (h : (valuesOf key entries).length ≤ 1) :
    valuesOf key (canonicalEntries [] entries) = (valuesOf key entries).map canonical := by
  rw [valuesOf_canonicalEntries]
  match hvalues : valuesOf key entries with
  | [] => rfl
  | [v] => rfl
  | _ :: _ :: _ => simp [hvalues] at h

end Json

end MarkupTree

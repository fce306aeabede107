/-!
# Dictionaries

Finite maps from text keys, kept as entries in strictly increasing key order, so that two
dictionaries with the same entries are equal and every listing of one is in key order.
-/

namespace MarkupTree

structure Dictionary (α : Type) where
  entries : List (String × α)
  sorted : entries.Pairwise (fun a b => a.1 < b.1)
deriving DecidableEq

namespace Dictionary

variable {α : Type}

@[ext] theorem ext {d e : Dictionary α} (h : d.entries = e.entries) : d = e := by
  cases d; cases e; cases h; rfl

protected def empty : Dictionary α := ⟨[], List.Pairwise.nil⟩

def isEmpty (d : Dictionary α) : Bool := d.entries.isEmpty

def keys (d : Dictionary α) : List String := d.entries.map (·.1)

def get? (d : Dictionary α) (key : String) : Option α := d.entries.lookup key

/-- Puts an entry at its place in a list in key order, replacing the entry with its key. -/
def place (key : String) (value : α) : List (String × α) → List (String × α)
  | [] => [(key, value)]
  | (k, v) :: rest =>
    if key < k then (key, value) :: (k, v) :: rest
    else if key = k then (key, value) :: rest
    else (k, v) :: place key value rest

theorem mem_place {key : String} {value : α} {e : String × α} {l : List (String × α)}
    (h : e ∈ place key value l) : e = (key, value) ∨ e ∈ l := by
  induction l with
  | nil => simpa [place] using h
  | cons hd tl ih =>
    unfold place at h
    split at h
    · simpa using h
    · split at h
      · rcases List.mem_cons.mp h with h | h
        · exact Or.inl h
        · exact Or.inr (List.mem_cons_of_mem _ h)
      · rcases List.mem_cons.mp h with h | h
        · exact Or.inr (h ▸ List.mem_cons_self)
        · exact (ih h).imp_right (List.mem_cons_of_mem _)

theorem place_sorted (key : String) (value : α) {l : List (String × α)}
    (h : l.Pairwise (fun a b => a.1 < b.1)) :
    (place key value l).Pairwise (fun a b => a.1 < b.1) := by
  induction l with
  | nil => simp [place]
  | cons hd tl ih =>
    have htl := List.pairwise_cons.mp h
    unfold place
    split
    · next hlt =>
      refine List.pairwise_cons.mpr ⟨fun e he => ?_, h⟩
      rcases List.mem_cons.mp he with he | he
      · exact he ▸ hlt
      · exact String.lt_trans hlt (htl.1 e he)
    · next hlt =>
      split
      · next heq => exact List.pairwise_cons.mpr ⟨fun e he => heq ▸ htl.1 e he, htl.2⟩
      · next hne =>
        refine List.pairwise_cons.mpr ⟨fun e he => ?_, ih htl.2⟩
        rcases mem_place he with he | he
        · subst he
          refine Decidable.byContradiction fun hnot => hne ?_
          exact String.le_antisymm (String.not_lt.mp hnot) (String.not_lt.mp hlt)
        · exact htl.1 e he

/-- The last value given for a key stands. -/
def insert (d : Dictionary α) (key : String) (value : α) : Dictionary α :=
  ⟨place key value d.entries, place_sorted key value d.sorted⟩

/-- The first value given for a key stands. -/
def insertNew (d : Dictionary α) (key : String) (value : α) : Dictionary α :=
  if (d.get? key).isSome then d else d.insert key value

def insertAll (d : Dictionary α) (entries : List (String × α)) : Dictionary α :=
  entries.foldl (fun d e => d.insert e.1 e.2) d

def insertAllNew (d : Dictionary α) (entries : List (String × α)) : Dictionary α :=
  entries.foldl (fun d e => d.insertNew e.1 e.2) d

/-- The dictionary of a list of entries, in which a later entry replaces an earlier one. -/
def ofList (entries : List (String × α)) : Dictionary α := Dictionary.empty.insertAll entries

theorem lookup_place (key k : String) (value : α) (l : List (String × α)) :
    (place key value l).lookup k = if k = key then some value else l.lookup k := by
  induction l with
  | nil =>
    by_cases h : k = key
    · simp [place, h]
    · simp [place, List.lookup_cons, h, beq_eq_false_iff_ne.mpr h]
  | cons hd tl ih =>
    obtain ⟨k', v'⟩ := hd
    unfold place
    by_cases h : k = key
    · subst h
      split
      · simp
      · split
        · simp
        · next hne => simp [List.lookup_cons, beq_eq_false_iff_ne.mpr hne, ih]
    · split
      · simp [List.lookup_cons, beq_eq_false_iff_ne.mpr h]
      · split
        · next heq => subst heq; simp [List.lookup_cons, beq_eq_false_iff_ne.mpr h]
        · by_cases hk : k = k' <;> simp [List.lookup_cons, hk, ih, h]

@[simp] theorem get?_empty (k : String) : (Dictionary.empty : Dictionary α).get? k = none := rfl

@[simp] theorem get?_insert (d : Dictionary α) (key k : String) (value : α) :
    (d.insert key value).get? k = if k = key then some value else d.get? k :=
  lookup_place key k value d.entries

theorem get?_insertNew (d : Dictionary α) (key k : String) (value : α) :
    (d.insertNew key value).get? k =
      if k = key then some ((d.get? key).getD value) else d.get? k := by
  unfold insertNew
  by_cases hk : k = key
  · subst hk
    cases h : d.get? k <;> simp [h]
  · cases h : d.get? key <;> simp [hk]

end Dictionary

end MarkupTree

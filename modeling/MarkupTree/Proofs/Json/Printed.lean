import MarkupTree.Proofs.Json.Numeral

/-!
# Printed values are read back

A printed value begins with the character that tells its kind, and is read back in front of every
text that does not go on with it, as only a number could go on. Its doubles may come back as others.
The one other thing that counts is how deep its arrays and objects nest: what nests deeper than the
reader allows is refused at the bracket that goes too deep.
-/

set_option autoImplicit false

namespace MarkupTree.Json

open Reader

theorem hexValue?_hexDigit : ∀ n, n < 16 → hexValue? (hexDigit n) = some n := by
  decide

section Strings

variable {care : Care} {read : List Char} {c x : Char} {tail : List Char}

theorem stringBody_plain (hquote : c ≠ '"') (hslash : c ≠ '\\') (hcontrol : ¬ c.toNat < 32) :
    stringBody care read 0 (c :: tail) = stringBody care (c :: read) 0 tail := by
  cases tail <;> simp only [stringBody, if_neg hquote, if_neg hslash, if_neg hcontrol]

theorem stringBody_simple (hc : c ≠ 'u') (hx : simpleEscape? c = some x) :
    stringBody care read 0 ('\\' :: c :: tail) = stringBody care (x :: read) 0 tail := by
  rw [stringBody, if_neg (by decide), if_pos rfl]
  simp only [if_neg hc, hx]
  rfl

theorem unicodeEscape_hexDigits {n : Nat} (h : n < 32) :
    unicodeEscape care ('0' :: '0' :: hexDigit (n / 16) :: hexDigit (n % 16) :: tail) =
      .ok (Char.ofNat n, 4) := by
  have hzero : hexValue? '0' = some 0 := rfl
  have hhigh := hexValue?_hexDigit (n / 16) (by omega)
  have hlow := hexValue?_hexDigit (n % 16) (by omega)
  have hfour : fourHex ('0' :: '0' :: hexDigit (n / 16) :: hexDigit (n % 16) :: tail) = .ok n := by
    simp only [fourHex, List.take_succ_cons, List.take_zero, hzero, hhigh, hlow]
    congr 1
    omega
  have hnotLow : isLowSurrogate n = false := by simp [isLowSurrogate]; omega
  have hnotHigh : isHighSurrogate n = false := by simp [isHighSurrogate]; omega
  cases care <;> simp [unicodeEscape, hfour, hnotLow, hnotHigh, bind, Except.bind]

theorem stringBody_escape (c : Char) :
    stringBody care read 0 (escape c ++ tail) = stringBody care (c :: read) 0 tail := by
  have hofNat : Char.ofNat c.toNat = c := Char.ofNat_toNat c
  unfold escape
  split
  · next h =>
    subst h
    exact stringBody_simple (by decide) rfl
  split
  · next h =>
    subst h
    exact stringBody_simple (by decide) rfl
  split
  · next h =>
    rw [← hofNat, h]
    exact stringBody_simple (by decide) rfl
  split
  · next h =>
    subst h
    exact stringBody_simple (by decide) rfl
  split
  · next h =>
    subst h
    exact stringBody_simple (by decide) rfl
  split
  · next h =>
    rw [← hofNat, h]
    exact stringBody_simple (by decide) rfl
  split
  · next h =>
    subst h
    exact stringBody_simple (by decide) rfl
  split
  · next h =>
    change stringBody care read 0 ('\\' :: 'u' :: '0' :: '0' :: hexDigit (c.toNat / 16) ::
      hexDigit (c.toNat % 16) :: tail) = _
    rw [stringBody, if_neg (by decide), if_pos rfl]
    simp only [if_true, unicodeEscape_hexDigits h, hofNat]
    rfl
  · next hquote hslash _ _ _ _ _ hcontrol => exact stringBody_plain hquote hslash hcontrol

theorem stringBody_escaped (cs : List Char) :
    stringBody care read 0 (cs.flatMap escape ++ '"' :: tail) =
      .ok (String.ofList (read.reverse ++ cs), tail) := by
  induction cs generalizing read with
  | nil => simp [stringBody]
  | cons c cs ih =>
    rw [List.flatMap_cons, List.append_assoc, stringBody_escape, ih]
    simp

end Strings

theorem toList_quoted (s : String) (rest : List Char) :
    (quoted s).toList ++ rest = '"' :: (s.toList.flatMap escape ++ '"' :: rest) := by
  simp [quoted]

theorem key_quoted (care : Care) (s : String) (rest : List Char) :
    key care ((quoted s).toList ++ rest) = .ok (s, rest) := by
  rw [toList_quoted, key, stringBody_escaped]
  simp

theorem skipSpace_cons {c : Char} (h : isSpace c = false) (cs : List Char) :
    skipSpace (c :: cs) = c :: cs := by
  simp [skipSpace, h]

theorem skipSpace_quote (cs : List Char) : skipSpace ('"' :: cs) = '"' :: cs :=
  skipSpace_cons rfl cs

theorem skipSpace_bracket (cs : List Char) : skipSpace ('[' :: cs) = '[' :: cs :=
  skipSpace_cons rfl cs

theorem skipSpace_brace (cs : List Char) : skipSpace ('\x7b' :: cs) = '\x7b' :: cs :=
  skipSpace_cons rfl cs

/-- A text that begins with neither a blank nor a closing bracket. -/
def Opens (cs : List Char) : Prop :=
  ∃ c rest, cs = c :: rest ∧ isSpace c = false ∧ c ≠ ']' ∧ c ≠ '\x7d'

theorem opens_quoted (s : String) (rest : List Char) : Opens ((quoted s).toList ++ rest) := by
  rw [toList_quoted]
  exact ⟨'"', _, rfl, by decide, by decide, by decide⟩

/-- Items with commas between them. -/
def separated : List (List Char) → List Char
  | [] => []
  | w :: ws => w ++ ws.flatMap (',' :: ·)

theorem length_le_row {α : Type} (written : α → List Char) (xs : List α) :
    xs.length ≤ (xs.flatMap (',' :: written ·)).length := by
  induction xs with
  | nil => exact Nat.le_refl _
  | cons x xs ih =>
    rw [List.flatMap_cons, List.length_append, List.length_cons, List.length_cons]
    omega

theorem length_le_separated {α : Type} (written : α → List Char) (xs : List α)
    {rest : List Char} (hrest : rest ≠ []) :
    xs.length ≤ (separated (xs.map written) ++ rest).length := by
  have hpos := List.length_pos_iff.mpr hrest
  cases xs with
  | nil => exact Nat.zero_le _
  | cons x xs =>
    have hrow := length_le_row written xs
    rw [List.map_cons, separated, List.flatMap_map]
    simp only [List.length_append, List.length_cons]
    omega

theorem length_le_of_mem {α : Type} (written : α → List Char) {x : α} {xs : List α}
    (hx : x ∈ xs) : (written x).length ≤ (separated (xs.map written)).length := by
  cases xs with
  | nil => cases hx
  | cons y ys =>
    rw [List.map_cons, separated, List.length_append]
    rcases List.mem_cons.mp hx with rfl | hx
    · exact Nat.le_add_right _ _
    · obtain ⟨front, back, rfl⟩ := List.append_of_mem hx
      simp only [List.map_append, List.map_cons, List.flatMap_append, List.flatMap_cons,
        List.length_append, List.length_cons]
      omega

section Lists

variable {α β : Type} {close : Char} {item : Reader β} {written : α → List Char}
  {answer : α → Except Fault β}

/-- Before every text that ends a number, an item is read from what has been written as the answer
says. -/
structure ReadsBack (item : Reader β) (written : α → List Char) (answer : α → Except Fault β)
    (x : α) : Prop where
  opens : ∀ rest, Opens (written x ++ rest)
  reads : ∀ rest, EndsNumber rest →
    item (written x ++ rest) = (answer x).map fun y => (y, rest)

theorem itemsFrom_more {x : α} (hx : ReadsBack item written answer x) (fuel : Nat)
    {rest : List Char} (hrest : EndsNumber rest) :
    itemsFrom close item (fuel + 1) (.more (written x ++ rest)) =
      (answer x).bind fun y => ((nextItem close rest).bind (itemsFrom close item fuel)).map
        fun read => (y :: read.1, read.2) := by
  simp only [itemsFrom, hx.reads rest hrest, bind]
  cases answer x with
  | error fault => rfl
  | ok y =>
    simp only [Except.bind, Except.map]
    cases nextItem close rest with
    | error fault => rfl
    | ok next => cases itemsFrom close item fuel next <;> rfl

variable (hclose : close = ']' ∨ close = '\x7d')
include hclose

theorem isSpace_close : isSpace close = false := by
  rcases hclose with rfl | rfl <;> rfl

theorem endsNumber_close (rest : List Char) : EndsNumber (close :: rest) := by
  rcases hclose with rfl | rfl
  · exact endsNumber_cons (by decide) rest
  · exact endsNumber_cons (by decide) rest

theorem nextItem_close (rest : List Char) : nextItem close (close :: rest) = .ok (.done rest) := by
  simp [nextItem, skipSpace_cons (isSpace_close hclose)]

theorem firstItem_close (rest : List Char) :
    firstItem close (close :: rest) = .ok (.done rest) := by
  simp [firstItem, skipSpace_cons (isSpace_close hclose)]

theorem ne_close {c : Char} (hbracket : c ≠ ']') (hbrace : c ≠ '\x7d') : c ≠ close := by
  rcases hclose with rfl | rfl
  · exact hbracket
  · exact hbrace

theorem firstItem_of_opens {cs : List Char} (h : Opens cs) :
    firstItem close cs = .ok (.more cs) := by
  obtain ⟨c, rest, rfl, hc, hbracket, hbrace⟩ := h
  simp [firstItem, skipSpace_cons hc, ne_close hclose hbracket hbrace]

theorem nextItem_of_opens {cs : List Char} (h : Opens cs) :
    nextItem close (',' :: cs) = .ok (.more cs) := by
  obtain ⟨c, rest, rfl, hc, hbracket, hbrace⟩ := h
  have hcomma : ',' ≠ close := ne_close hclose (by decide) (by decide)
  simp [nextItem, skipSpace_cons hc, skipSpace_cons (show isSpace ',' = false from rfl), hcomma,
    ne_close hclose hbracket hbrace]

theorem endsNumber_row (written : α → List Char) (xs : List α) (rest : List Char) :
    EndsNumber (xs.flatMap (',' :: written ·) ++ close :: rest) := by
  cases xs with
  | nil => exact endsNumber_close hclose rest
  | cons x xs => exact endsNumber_cons (by decide) _

theorem itemsFrom_row {xs : List α} (h : ∀ x ∈ xs, ReadsBack item written answer x)
    (rest : List Char) {fuel : Nat} (hfuel : xs.length ≤ fuel) :
    (nextItem close (xs.flatMap (',' :: written ·) ++ close :: rest)).bind
        (itemsFrom close item fuel) =
      (xs.mapM answer).map fun ys => (ys, rest) := by
  induction xs generalizing fuel with
  | nil =>
    rw [List.flatMap_nil, List.nil_append, nextItem_close hclose]
    cases fuel <;> rfl
  | cons x xs ih =>
    rw [List.forall_mem_cons] at h
    obtain ⟨n, rfl⟩ : ∃ n, fuel = n + 1 := ⟨fuel - 1, by rw [List.length_cons] at hfuel; omega⟩
    rw [List.flatMap_cons, List.cons_append, List.cons_append, List.append_assoc,
      nextItem_of_opens hclose (h.1.opens _), Except.bind,
      itemsFrom_more h.1 n (endsNumber_row hclose written xs rest),
      ih h.2 (Nat.le_of_succ_le_succ hfuel), List.mapM_cons]
    cases answer x with
    | error fault => rfl
    | ok y => cases xs.mapM answer <;> rfl

theorem firstItem_separated {xs : List α} (h : ∀ x ∈ xs, ∀ rest, Opens (written x ++ rest))
    (rest : List Char) :
    firstItem close (separated (xs.map written) ++ close :: rest) =
      nextItem close (xs.flatMap (',' :: written ·) ++ close :: rest) := by
  cases xs with
  | nil => exact (firstItem_close hclose rest).trans (nextItem_close hclose rest).symm
  | cons x xs =>
    have hx := h x List.mem_cons_self (xs.flatMap (',' :: written ·) ++ close :: rest)
    rw [List.map_cons, separated, List.flatMap_map, List.append_assoc, List.flatMap_cons,
      List.cons_append, List.cons_append, List.append_assoc, firstItem_of_opens hclose hx,
      nextItem_of_opens hclose hx]

theorem listOf_separated {xs : List α} (h : ∀ x ∈ xs, ReadsBack item written answer x)
    (rest : List Char) :
    listOf close item (separated (xs.map written) ++ close :: rest) =
      (xs.mapM answer).map fun ys => (ys, rest) := by
  have hfuel := length_le_separated written xs (List.cons_ne_nil close rest)
  rw [← itemsFrom_row hclose h rest hfuel,
    ← firstItem_separated hclose (fun x hx => (h x hx).opens) rest]
  rfl

end Lists

mutual

/-- How deep arrays and objects nest in a value. -/
def depth : Json → Nat
  | .array items => depthItems items + 1
  | .object entries => depthEntries entries + 1
  | _ => 0

def depthItems : List Json → Nat
  | [] => 0
  | v :: rest => max (depth v) (depthItems rest)

def depthEntries : List (String × Json) → Nat
  | [] => 0
  | (_, v) :: rest => max (depth v) (depthEntries rest)

end

mutual

/-- A value with other numbers in it. -/
def mapNumbers (f : Number → Number) : Json → Json
  | .null => .null
  | .bool b => .bool b
  | .number n => .number (f n)
  | .text s => .text s
  | .array items => .array (mapNumbersItems f items)
  | .object entries => .object (mapNumbersEntries f entries)

def mapNumbersItems (f : Number → Number) : List Json → List Json
  | [] => []
  | v :: rest => mapNumbers f v :: mapNumbersItems f rest

def mapNumbersEntries (f : Number → Number) : List (String × Json) → List (String × Json)
  | [] => []
  | (key, v) :: rest => (key, mapNumbers f v) :: mapNumbersEntries f rest

end

theorem mapNumbersItems_eq_map (f : Number → Number) (items : List Json) :
    mapNumbersItems f items = items.map (mapNumbers f) := by
  induction items with
  | nil => rfl
  | cons v rest ih => rw [mapNumbersItems, ih, List.map_cons]

theorem mapNumbersEntries_eq_map (f : Number → Number) (entries : List (String × Json)) :
    mapNumbersEntries f entries = entries.map fun e => (e.1, e.2.mapNumbers f) := by
  induction entries with
  | nil => rfl
  | cons e rest ih => rw [mapNumbersEntries, ih, List.map_cons]

/-- The value that the text of a value is read as. -/
def reread : Json → Json := mapNumbers Number.reread

theorem reread_array (items : List Json) :
    (Json.array items).reread = .array (items.map reread) := by
  rw [reread, mapNumbers, mapNumbersItems_eq_map]

theorem reread_object (entries : List (String × Json)) :
    (Json.object entries).reread = .object (entries.map fun e => (e.1, e.2.reread)) := by
  rw [reread, mapNumbers, mapNumbersEntries_eq_map]

/-- Values with numbers that there are. -/
inductive Regular : Json → Prop
  | null : Regular .null
  | bool (b : Bool) : Regular (.bool b)
  | number {n : Number} : n.Regular → Regular (.number n)
  | text (s : String) : Regular (.text s)
  | array {items : List Json} : (∀ v ∈ items, Regular v) → Regular (.array items)
  | object {entries : List (String × Json)} :
      (∀ e ∈ entries, Regular e.2) → Regular (.object entries)

def isScalar : Json → Bool
  | .array _ => false
  | .object _ => false
  | _ => true

theorem isScalar_or (v : Json) :
    v.isScalar = true ∨ (∃ items, v = .array items) ∨ ∃ entries, v = .object entries := by
  cases v with
  | array items => exact .inr (.inl ⟨items, rfl⟩)
  | object entries => exact .inr (.inr ⟨entries, rfl⟩)
  | _ => exact .inl rfl

theorem depth_scalar {v : Json} (h : v.isScalar = true) : v.depth = 0 := by
  cases v with
  | array => cases h
  | object => cases h
  | _ => rfl

def chars (v : Json) : List Char := v.print.toList

def entryChars (e : String × Json) : List Char := (quoted e.1).toList ++ ':' :: e.2.chars

theorem chars_text (s : String) : (Json.text s).chars = (quoted s).toList := by
  rw [chars, print]

theorem chars_number (n : Number) : (Json.number n).chars = n.text.toList := by
  rw [chars, print]

theorem toList_printMoreItems (items : List Json) :
    (printMoreItems items).toList = items.flatMap (',' :: ·.chars) := by
  induction items with
  | nil => simp [printMoreItems]
  | cons v rest ih => simp [printMoreItems, ih, chars]

theorem chars_array (items : List Json) :
    (Json.array items).chars = '[' :: (separated (items.map chars) ++ [']']) := by
  rw [chars, print]
  cases items with
  | nil => simp [printItems, separated]
  | cons v rest =>
    simp [printItems, separated, toList_printMoreItems, chars, List.flatMap_map]

theorem toList_printMoreEntries (entries : List (String × Json)) :
    (printMoreEntries entries).toList = entries.flatMap (',' :: entryChars ·) := by
  induction entries with
  | nil => simp [printMoreEntries]
  | cons e rest ih => simp [printMoreEntries, ih, entryChars, chars]

theorem chars_object (entries : List (String × Json)) :
    (Json.object entries).chars = '\x7b' :: (separated (entries.map entryChars) ++ ['\x7d']) := by
  rw [chars, print]
  cases entries with
  | nil => simp [printEntries, separated]
  | cons e rest =>
    simp [printEntries, separated, toList_printMoreEntries, entryChars, chars, List.flatMap_map]

/-- Characters with which a scalar may begin. -/
def OpensScalar (c : Char) : Prop :=
  isSpace c = false ∧ c ∉ ['[', ']', '\x7b', '\x7d']

theorem opensScalar_of_digit {c : Char} (h : c = '-' ∨ Decimal.isDigit c = true) :
    OpensScalar c ∧ c ∉ ['n', 't', 'f', '"'] := by
  rcases h with rfl | h
  · exact ⟨⟨rfl, by decide⟩, by decide⟩
  · have hall : ∀ x ∈ [' ', '\t', '\n', '\r', '[', ']', '\x7b', '\x7d', 'n', 't', 'f', '"'],
        Decimal.isDigit x = false := by simp [Decimal.isDigit]
    have hne : ∀ x ∈ [' ', '\t', '\n', '\r', '[', ']', '\x7b', '\x7d', 'n', 't', 'f', '"'],
        c ≠ x := by
      rintro x hx rfl
      exact absurd h (by rw [hall c hx]; decide)
    simp only [List.forall_mem_cons] at hne
    simp [OpensScalar, isSpace, hne]

theorem exists_opening {v : Json} (h : v.isScalar = true) :
    ∃ c after, v.chars = c :: after ∧ OpensScalar c ∧ (c = '"' → ∃ s, v = .text s) := by
  cases v with
  | null => exact ⟨'n', _, rfl, ⟨rfl, by decide⟩, nofun⟩
  | bool b =>
    cases b with
    | true => exact ⟨'t', _, rfl, ⟨rfl, by decide⟩, nofun⟩
    | false => exact ⟨'f', _, rfl, ⟨rfl, by decide⟩, nofun⟩
  | number n =>
    obtain ⟨c, after, hchars, hc⟩ := n.exists_head
    obtain ⟨hopens, hne⟩ := opensScalar_of_digit hc
    refine ⟨c, after, by rw [chars_number, hchars], hopens, ?_⟩
    rintro rfl
    exact absurd (by decide) hne
  | text s =>
    have hchars := toList_quoted s []
    rw [List.append_nil] at hchars
    exact ⟨'"', _, by rw [chars_text, hchars], ⟨rfl, by decide⟩, fun _ => ⟨s, rfl⟩⟩
  | array => cases h
  | object => cases h

theorem scalar_chars {v : Json} (hv : v.Regular) (h : v.isScalar = true) (care : Care)
    {rest : List Char} (hrest : EndsNumber rest) :
    scalar care (v.chars ++ rest) = .ok (v.reread, rest) := by
  cases hv with
  | null => simp [chars, print, scalar, word, bind, Except.bind, reread, mapNumbers]
  | bool b =>
    cases b <;> simp [chars, print, scalar, word, bind, Except.bind, reread, mapNumbers]
  | @number n hn =>
    obtain ⟨c, after, hchars, hc⟩ := n.exists_head
    obtain ⟨-, hne⟩ := opensScalar_of_digit hc
    have hread := Number.number_text hn care hrest
    simp only [List.mem_cons, List.not_mem_nil, or_false, not_or] at hne
    rw [chars_number]
    rw [hchars, List.cons_append] at hread ⊢
    simp only [scalar, hne, if_false, if_pos hc, hread, bind, Except.bind, reread, mapNumbers]
  | text s =>
    rw [chars_text, toList_quoted]
    simp [scalar, stringBody_escaped, bind, Except.bind, reread, mapNumbers]
  | array => cases h
  | object => cases h

theorem opens_chars (v : Json) (rest : List Char) : Opens (v.chars ++ rest) := by
  rcases v.isScalar_or with hv | ⟨items, rfl⟩ | ⟨entries, rfl⟩
  · obtain ⟨c, after, hchars, ⟨hspace, hne⟩, -⟩ := exists_opening hv
    simp only [List.mem_cons, List.not_mem_nil, or_false, not_or] at hne
    rw [hchars]
    exact ⟨c, _, rfl, hspace, hne.2.1, hne.2.2.2⟩
  · rw [chars_array]
    exact ⟨'[', _, rfl, by decide, by decide, by decide⟩
  · rw [chars_object]
    exact ⟨'\x7b', _, rfl, by decide, by decide, by decide⟩

theorem value_scalar {v : Json} (h : v.isScalar = true) (care : Care) (n : Nat) (rest : List Char) :
    value care n (v.chars ++ rest) = scalar care (v.chars ++ rest) := by
  obtain ⟨c, after, hchars, ⟨hspace, hne⟩, -⟩ := exists_opening h
  simp only [List.mem_cons, List.not_mem_nil, or_false, not_or] at hne
  rw [hchars, List.cons_append]
  cases n with
  | zero => simp [value, skipSpace_cons hspace, hne]
  | succ n => simp [value, skipSpace_cons hspace, hne]

theorem colon_cons (rest : List Char) : colon (':' :: rest) = .ok ((), rest) := rfl

theorem entryChars_append (e : String × Json) (rest : List Char) :
    entryChars e ++ rest = (quoted e.1).toList ++ ':' :: (e.2.chars ++ rest) := by
  rw [entryChars, List.append_assoc, List.cons_append]

theorem opens_entryChars (e : String × Json) (rest : List Char) : Opens (entryChars e ++ rest) := by
  rw [entryChars_append]
  exact opens_quoted e.1 _

section Values

variable (care : Care)

/-- What is read where arrays and objects may nest `n` deep. -/
def within (n : Nat) (v : Json) : Except Fault Json :=
  if v.depth ≤ n then .ok v.reread else .error .malformed

def entryWithin (n : Nat) (e : String × Json) : Except Fault (String × Json) :=
  (within n e.2).map fun v => (e.1, v)

theorem mapM_within (n : Nat) (items : List Json) :
    items.mapM (within n) =
      if depthItems items ≤ n then .ok (items.map reread) else .error .malformed := by
  induction items with
  | nil => rfl
  | cons v rest ih =>
    simp only [List.mapM_cons, ih, within, depthItems, Nat.max_le]
    by_cases hv : v.depth ≤ n
    · by_cases hrest : depthItems rest ≤ n
      · simp [hv, hrest, bind, Except.bind, pure, Except.pure]
      · simp [hv, hrest, bind, Except.bind]
    · simp [hv, bind, Except.bind]

theorem mapM_entryWithin (n : Nat) (entries : List (String × Json)) :
    entries.mapM (entryWithin n) =
      if depthEntries entries ≤ n then .ok (entries.map fun e => (e.1, e.2.reread))
      else .error .malformed := by
  induction entries with
  | nil => rfl
  | cons e rest ih =>
    simp only [List.mapM_cons, ih, entryWithin, within, depthEntries, Nat.max_le]
    by_cases hv : e.2.depth ≤ n
    · by_cases hrest : depthEntries rest ≤ n
      · simp [hv, hrest, bind, Except.bind, pure, Except.pure, Except.map]
      · simp [hv, hrest, bind, Except.bind, Except.map]
    · simp [hv, bind, Except.bind, Except.map]

theorem entry_readsBack {e : String × Json} {n : Nat}
    (h : ReadsBack (value care n) chars (within n) e.2) :
    ReadsBack (entry care (value care n)) entryChars (entryWithin n) e := by
  refine ⟨opens_entryChars e, ?_⟩
  intro rest hrest
  simp only [entryChars_append, entry, key_quoted, bind, Except.bind, colon_cons,
    h.reads rest hrest, entryWithin]
  cases within n e.2 <;> rfl

theorem value_array (n : Nat) (cs : List Char) :
    value care n ('[' :: cs) =
      match n with
      | 0 => .error .malformed
      | n + 1 => (listOf ']' (value care n) cs).map fun read => (.array read.1, read.2) := by
  cases n with
  | zero => simp only [value, skipSpace_bracket]
  | succ n =>
    simp only [value, skipSpace_bracket]
    cases listOf ']' (value care n) cs <;> rfl

theorem value_object (n : Nat) (cs : List Char) :
    value care n ('\x7b' :: cs) =
      match n with
      | 0 => .error .malformed
      | n + 1 => (listOf '\x7d' (entry care (value care n)) cs).map
          fun read => (.object read.1, read.2) := by
  cases n with
  | zero => simp only [value, skipSpace_brace]
  | succ n =>
    simp only [value, skipSpace_brace]
    cases listOf '\x7d' (entry care (value care n)) cs <;> rfl

/-- A printed value is read, before every text that ends a number, if it nests no deeper than it
may. -/
theorem value_readsBack {v : Json} (h : Regular v) (n : Nat) :
    ReadsBack (value care n) chars (within n) v := by
  refine ⟨opens_chars v, ?_⟩
  have hscalar : ∀ {v : Json}, Regular v → v.isScalar = true → ∀ n rest, EndsNumber rest →
      value care n (v.chars ++ rest) = (within n v).map fun v => (v, rest) := by
    intro v hv hscalar n rest hrest
    rw [value_scalar hscalar, scalar_chars hv hscalar care hrest, within, depth_scalar hscalar,
      if_pos (Nat.zero_le n)]
    rfl
  -- Each bracket takes one level of the depth that is left, and without one it is refused itself.
  induction h generalizing n with
  | null => exact hscalar .null rfl n
  | bool b => exact hscalar (.bool b) rfl n
  | number hn => exact hscalar (.number hn) rfl n
  | text s => exact hscalar (.text s) rfl n
  | @array items hitems ih =>
    intro rest _
    rw [chars_array, List.cons_append, value_array, List.append_assoc, List.singleton_append]
    cases n with
    | zero => rfl
    | succ n =>
      have hlist := listOf_separated (.inl rfl) (fun v hv => ⟨opens_chars v, ih v hv n⟩) rest
      simp only [hlist, mapM_within, within, depth, Nat.add_le_add_iff_right, reread_array]
      split <;> rfl
  | @object entries hentries ih =>
    intro rest _
    rw [chars_object, List.cons_append, value_object, List.append_assoc, List.singleton_append]
    cases n with
    | zero => rfl
    | succ n =>
      have hlist := listOf_separated (.inr rfl)
        (fun e he => entry_readsBack care ⟨opens_chars e.2, ih e he n⟩) rest
      simp only [hlist, mapM_entryWithin, within, depth, Nat.add_le_add_iff_right, reread_object]
      split <;> rfl

theorem depthItems_le_iff {items : List Json} {n : Nat} :
    depthItems items ≤ n ↔ ∀ v ∈ items, v.depth ≤ n := by
  induction items with
  | nil => simp [depthItems]
  | cons v rest ih => rw [depthItems, Nat.max_le, ih, List.forall_mem_cons]

theorem depthEntries_le_iff {entries : List (String × Json)} {n : Nat} :
    depthEntries entries ≤ n ↔ ∀ e ∈ entries, e.2.depth ≤ n := by
  induction entries with
  | nil => simp [depthEntries]
  | cons e rest ih => rw [depthEntries, Nat.max_le, ih, List.forall_mem_cons]

theorem depth_le_length {v : Json} (h : Regular v) : v.depth ≤ v.chars.length := by
  induction h with
  | null => exact Nat.zero_le _
  | bool b => exact Nat.zero_le _
  | number hn => exact Nat.zero_le _
  | text s => exact Nat.zero_le _
  | @array items hitems ih =>
    have hle := depthItems_le_iff.mpr fun v hv =>
      Nat.le_trans (ih v hv) (length_le_of_mem chars hv)
    rw [depth, chars_array, List.length_cons, List.length_append]
    omega
  | @object entries hentries ih =>
    have hle : depthEntries entries ≤ (separated (entries.map entryChars)).length := by
      apply depthEntries_le_iff.mpr
      intro e he
      have hlength := length_le_of_mem entryChars he
      rw [entryChars, List.length_append, List.length_cons] at hlength
      exact Nat.le_trans (ih e he) (by omega)
    rw [depth, chars_object, List.length_cons, List.length_append]
    omega

end Values

end MarkupTree.Json

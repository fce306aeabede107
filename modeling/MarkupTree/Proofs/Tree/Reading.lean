import MarkupTree.Proofs.Json.Printed
import MarkupTree.Tree.OfText

/-!
# Reading printed documents

The readers of fragments and documents take texts from left to right. Of a printed value they see
nothing but the value: here each of them gets a counterpart that walks over the value instead, entry
by entry, and answers what the reader answers to the text, with the fault it meets first.
-/

set_option autoImplicit false

namespace MarkupTree

open Json Json.Reader

/-- What is not there is of the wrong shape. -/
def expected {α : Type} : Option α → Except Fault α
  | some x => .ok x
  | none => .error .mismatched

theorem Json.exists_head (v : Json) :
    ∃ c after, v.chars = c :: after ∧ isSpace c = false ∧ (c = '"' → ∃ s, v = .text s) := by
  rcases v.isScalar_or with hv | ⟨items, rfl⟩ | ⟨entries, rfl⟩
  · obtain ⟨c, after, hchars, ⟨hspace, -⟩, htext⟩ := exists_opening hv
    exact ⟨c, after, hchars, hspace, htext⟩
  · exact ⟨'[', _, chars_array items, rfl, nofun⟩
  · exact ⟨'\x7b', _, chars_object entries, rfl, nofun⟩

namespace Fragment

theorem misplaced_chars {v : Json} (hv : v.Regular) {rest : List Char} (hrest : EndsNumber rest) :
    misplaced (v.chars ++ rest) = .mismatched := by
  rcases v.isScalar_or with h | ⟨items, rfl⟩ | ⟨entries, rfl⟩
  · have hread := scalar_chars hv h .full hrest
    obtain ⟨c, after, hchars, ⟨-, hne⟩, -⟩ := exists_opening h
    simp only [List.mem_cons, List.not_mem_nil, or_false, not_or] at hne
    rw [hchars, List.cons_append] at hread ⊢
    simp [misplaced, hne, hread]
  · rw [chars_array]
    rfl
  · rw [chars_object]
    rfl

def kindAnswer : Json → Except Fault Kind
  | .text name => expected (Kind.ofName? name)
  | _ => .error .mismatched

theorem readKind_of_head {c : Char} (hspace : isSpace c = false) (hc : c ≠ '"') (cs : List Char) :
    readKind (c :: cs) = .error (misplaced (c :: cs)) := by
  simp [readKind, skipSpace_cons hspace, hc]

theorem readKind_readsBack {v : Json} (hv : v.Regular) : ReadsBack readKind chars kindAnswer v := by
  refine ⟨opens_chars v, ?_⟩
  intro rest hrest
  obtain ⟨c, after, hchars, hspace, htext⟩ := v.exists_head
  by_cases hc : c = '"'
  · obtain ⟨name, rfl⟩ := htext hc
    rw [chars_text, toList_quoted]
    simp only [readKind, skipSpace_quote, stringBody_escaped, kindAnswer, bind, Except.bind]
    rw [List.reverse_nil, List.nil_append, String.ofList_toList]
    cases Kind.ofName? name <;> rfl
  · have hkind : kindAnswer v = .error .mismatched := by
      cases v with
      | text s =>
        rw [chars_text] at hchars
        have hquote := toList_quoted s []
        rw [List.append_nil, hchars] at hquote
        exact absurd (List.cons.inj hquote).1 hc
      | null => rfl
      | bool => rfl
      | number => rfl
      | array => rfl
      | object => rfl
    have hmisplaced := misplaced_chars hv hrest
    rw [hchars, List.cons_append] at hmisplaced ⊢
    rw [readKind_of_head hspace hc, hmisplaced, hkind]
    rfl

/-- An entry behind the one that tells the kind, which may not come again. With the kind known the
entries are read as any list of such items. -/
def field : Reader (String × Json) := fun cs => do
  let (key, rest) ← Reader.key .full cs
  if key = "type" then .error .mismatched
  else
    let (_, rest) ← Reader.colon rest
    let (v, rest) ← Reader.value .full fieldDepth rest
    .ok ((key, v), rest)

def fieldAnswer (e : String × Json) : Except Fault (String × Json) :=
  if e.1 = "type" then .error .mismatched else entryWithin fieldDepth e

theorem readEntries_some (fuel : Nat) (kind : Kind) (next : Next) :
    readEntries fuel (some kind) next =
      (itemsFrom '\x7d' field fuel next).map fun read => ((kind, read.1), read.2) := by
  induction fuel generalizing next with
  | zero => cases next <;> rfl
  | succ fuel ih =>
    cases next with
    | done rest => rfl
    | more cs =>
      simp only [readEntries, itemsFrom, field, ih]
      cases Reader.key .full cs with
      | error => rfl
      | ok read =>
        obtain ⟨key, rest⟩ := read
        by_cases hkey : key = "type"
        · simp [hkey, bind, Except.bind, Except.map]
        · simp only [hkey, if_false, bind, Except.bind]
          cases colon rest with
          | error => rfl
          | ok read =>
            cases hvalue : value .full fieldDepth read.2 with
            | error => simp [hvalue, Except.map]
            | ok read =>
              cases hnext : nextItem '\x7d' read.2 with
              | error => simp [hvalue, hnext, Except.map]
              | ok next =>
                cases hitems : itemsFrom '\x7d' field fuel next <;>
                  simp [hvalue, hnext, hitems, Except.map]

theorem readEntries_some_bind (kind : Kind) (fuel : Nat) (next : Except Fault Next) :
    next.bind (readEntries fuel (some kind)) =
      (next.bind (itemsFrom '\x7d' field fuel)).map fun read => ((kind, read.1), read.2) := by
  cases next with
  | error fault => rfl
  | ok next => exact readEntries_some fuel kind next

theorem field_readsBack {e : String × Json} (he : e.2.Regular) :
    ReadsBack field entryChars fieldAnswer e := by
  have hentry := entry_readsBack .full (value_readsBack .full he fieldDepth)
  refine ⟨hentry.opens, ?_⟩
  intro rest hrest
  by_cases hkey : e.1 = "type"
  · simp only [entryChars_append, field, key_quoted, bind, Except.bind, if_pos hkey, fieldAnswer]
    rfl
  · rw [fieldAnswer, if_neg hkey, ← hentry.reads rest hrest, field, entry]
    simp only [entryChars_append, key_quoted, bind, Except.bind, if_neg hkey]

/-- The entries of a fragment whose kind has not been met yet. -/
def entriesAnswer : List (String × Json) → Except Fault (Kind × List (String × Json))
  | [] => .error .mismatched
  | e :: rest =>
    if e.1 = "type" then
      (kindAnswer e.2).bind fun kind => (rest.mapM fieldAnswer).map fun fields => (kind, fields)
    else
      (entryWithin fieldDepth e).bind fun e =>
        (entriesAnswer rest).map fun read => (read.1, e :: read.2)

theorem readEntries_more {e : String × Json} (he : e.2.Regular) (fuel : Nat) {rest : List Char}
    (hrest : EndsNumber rest) :
    readEntries (fuel + 1) none (.more (entryChars e ++ rest)) =
      if e.1 = "type" then
        (kindAnswer e.2).bind fun kind =>
          (nextItem '\x7d' rest).bind (readEntries fuel (some kind))
      else
        (entryWithin fieldDepth e).bind fun e =>
          ((nextItem '\x7d' rest).bind (readEntries fuel none)).map
            fun read => ((read.1.1, e :: read.1.2), read.2) := by
  have hkind := (readKind_readsBack he).reads rest hrest
  have hvalue := (value_readsBack .full he fieldDepth).reads rest hrest
  by_cases hkey : e.1 = "type"
  · simp only [readEntries, entryChars_append, key_quoted, colon_cons, hkind, bind, Except.bind,
      if_pos hkey, Option.isSome_none, Bool.false_eq_true, if_false]
    cases kindAnswer e.2 <;> rfl
  · simp only [readEntries, entryChars_append, key_quoted, colon_cons, hvalue, bind, Except.bind,
      if_neg hkey, entryWithin]
    cases within fieldDepth e.2 with
    | error => rfl
    | ok v =>
      simp only [Except.map]
      cases nextItem '\x7d' rest with
      | error => rfl
      | ok next => cases readEntries fuel none next <;> rfl

theorem readEntries_row {entries : List (String × Json)} (h : ∀ e ∈ entries, e.2.Regular)
    (rest : List Char) {fuel : Nat} (hfuel : entries.length ≤ fuel) :
    (nextItem '\x7d' (entries.flatMap (',' :: entryChars ·) ++ '\x7d' :: rest)).bind
        (readEntries fuel none) =
      (entriesAnswer entries).map fun read => (read, rest) := by
  -- Up to the entry that tells the kind, entry by entry; behind it, a row of fields.
  induction entries generalizing fuel with
  | nil =>
    rw [List.flatMap_nil, List.nil_append, nextItem_close (.inr rfl)]
    cases fuel <;> rfl
  | cons e entries ih =>
    rw [List.forall_mem_cons] at h
    obtain ⟨n, rfl⟩ : ∃ n, fuel = n + 1 := ⟨fuel - 1, by rw [List.length_cons] at hfuel; omega⟩
    have hlength : entries.length ≤ n := Nat.le_of_succ_le_succ hfuel
    have hfields := itemsFrom_row (.inr rfl) (fun e he => field_readsBack (h.2 e he)) rest hlength
    rw [List.flatMap_cons, List.cons_append, List.cons_append, List.append_assoc,
      nextItem_of_opens (.inr rfl) (opens_entryChars e _), Except.bind,
      readEntries_more h.1 n (endsNumber_row (.inr rfl) entryChars entries rest),
      ih h.2 hlength, entriesAnswer]
    split
    · cases kindAnswer e.2 with
      | error => rfl
      | ok kind =>
        change (nextItem '\x7d' _).bind (readEntries n (some kind)) = _
        rw [readEntries_some_bind, hfields]
        cases entries.mapM fieldAnswer <;> rfl
    · cases entryWithin fieldDepth e with
      | error => rfl
      | ok e => cases entriesAnswer entries <;> rfl

def rootAnswer : Json → Except Fault Fragment
  | .object entries => (entriesAnswer entries).bind fun read => expected (ofEntries? read.1 read.2)
  | .array (tag :: fields) =>
    (kindAnswer tag).bind fun kind =>
      (fields.mapM (within fieldDepth)).bind fun fields => expected (ofFields? kind fields)
  | _ => .error .mismatched

theorem rootAnswer_scalar {v : Json} (h : v.isScalar = true) :
    rootAnswer v = .error .mismatched := by
  cases v with
  | array => cases h
  | object => cases h
  | _ => rfl

theorem accept_eq (f : Option Fragment) (rest : List Char) :
    accept f rest = (expected f).map fun f => (f, rest) := by
  cases f <;> rfl

theorem readRoot_object (cs : List Char) :
    readRoot ('\x7b' :: cs) = ((firstItem '\x7d' cs).bind (readEntries cs.length none)).bind
      fun read => accept (ofEntries? read.1.1 read.1.2) read.2 := by
  simp only [readRoot, skipSpace_brace]
  cases firstItem '\x7d' cs with
  | error => rfl
  | ok next => rfl

theorem readRoot_array {cs : List Char} (h : Opens cs) :
    readRoot ('[' :: cs) = (readKind cs).bind fun read =>
      ((nextItem ']' read.2).bind
        (itemsFrom ']' (value .full fieldDepth) read.2.length)).bind
          fun fields => accept (ofFields? read.1 fields.1) fields.2 := by
  simp only [readRoot, skipSpace_bracket, firstItem_of_opens (.inl rfl) h, bind, Except.bind]
  cases readKind cs with
  | error => rfl
  | ok read =>
    dsimp only
    cases nextItem ']' read.2 <;> rfl

theorem readRoot_scalar {v : Json} (h : v.isScalar = true) (rest : List Char) :
    readRoot (v.chars ++ rest) = .error (misplaced (v.chars ++ rest)) := by
  obtain ⟨c, after, hchars, ⟨hspace, hne⟩, -⟩ := exists_opening h
  simp only [List.mem_cons, List.not_mem_nil, or_false, not_or] at hne
  rw [hchars, List.cons_append]
  simp [readRoot, skipSpace_cons hspace, hne]

theorem readRoot_items {items : List Json} (hitems : ∀ v ∈ items, v.Regular) (rest : List Char) :
    readRoot ((Json.array items).chars ++ rest) =
      (rootAnswer (.array items)).map fun f => (f, rest) := by
  rw [chars_array, List.cons_append, List.append_assoc, List.singleton_append]
  cases items with
  | nil => rfl
  | cons tag fields =>
    rw [List.forall_mem_cons] at hitems
    have hkind := (readKind_readsBack hitems.1).reads _
      (endsNumber_row (.inl rfl) chars fields rest)
    have hfuel : fields.length ≤ (fields.flatMap (',' :: chars ·) ++ ']' :: rest).length := by
      rw [List.length_append]
      exact Nat.le_trans (length_le_row chars fields) (Nat.le_add_right _ _)
    have hfields := itemsFrom_row (.inl rfl)
      (fun v hv => value_readsBack .full (hitems.2 v hv) fieldDepth) rest hfuel
    rw [List.map_cons, separated, List.flatMap_map, List.append_assoc,
      readRoot_array (opens_chars tag _)]
    change (readKind (tag.chars ++ (fields.flatMap (',' :: chars ·) ++ ']' :: rest))).bind _ = _
    rw [hkind, rootAnswer]
    cases kindAnswer tag with
    | error => rfl
    | ok kind =>
      change (Except.bind _ _).bind _ = _
      rw [hfields]
      simp only [Except.bind, Except.map]
      cases fields.mapM (within fieldDepth) with
      | error => rfl
      | ok fields => exact accept_eq _ _

theorem readRoot_entries {entries : List (String × Json)} (hentries : ∀ e ∈ entries, e.2.Regular)
    (rest : List Char) :
    readRoot ((Json.object entries).chars ++ rest) =
      (rootAnswer (.object entries)).map fun f => (f, rest) := by
  have hfuel := length_le_separated entryChars entries (List.cons_ne_nil '\x7d' rest)
  rw [chars_object, List.cons_append, List.append_assoc, List.singleton_append, readRoot_object,
    firstItem_separated (.inr rfl) (fun e _ => opens_entryChars e) rest,
    readEntries_row hentries rest hfuel, rootAnswer]
  cases entriesAnswer entries with
  | error => rfl
  | ok read => exact accept_eq _ _

theorem readRoot_readsBack {v : Json} (hv : v.Regular) : ReadsBack readRoot chars rootAnswer v := by
  refine ⟨opens_chars v, ?_⟩
  intro rest hrest
  rcases v.isScalar_or with h | ⟨items, rfl⟩ | ⟨entries, rfl⟩
  · rw [readRoot_scalar h, misplaced_chars hv hrest, rootAnswer_scalar h]
    rfl
  · cases hv with
    | array hitems => exact readRoot_items hitems rest
  · cases hv with
    | object hentries => exact readRoot_entries hentries rest

/-- The roots of a document. -/
def rootsAnswer : Json → Except Fault (List Fragment)
  | .array items => items.mapM rootAnswer
  | _ => .error .mismatched

theorem rootsAnswer_scalar {v : Json} (h : v.isScalar = true) :
    rootsAnswer v = .error .mismatched := by
  cases v with
  | array => cases h
  | _ => rfl

theorem readRoots_of_head {c : Char} (hspace : isSpace c = false) (hc : c ≠ '[')
    (cs : List Char) : readRoots (c :: cs) = .error (misplaced (c :: cs)) := by
  simp [readRoots, skipSpace_cons hspace, hc]

theorem readRoots_array (cs : List Char) :
    readRoots ('[' :: cs) = listOf ']' readRoot cs := by
  simp only [readRoots, skipSpace_bracket]

theorem readRoots_readsBack {v : Json} (hv : v.Regular) :
    ReadsBack readRoots chars rootsAnswer v := by
  refine ⟨opens_chars v, ?_⟩
  intro rest hrest
  rcases v.isScalar_or with h | ⟨items, rfl⟩ | ⟨entries, rfl⟩
  · have hmisplaced := misplaced_chars hv hrest
    obtain ⟨c, after, hchars, ⟨hspace, hne⟩, -⟩ := exists_opening h
    simp only [List.mem_cons, List.not_mem_nil, or_false, not_or] at hne
    rw [hchars, List.cons_append] at hmisplaced ⊢
    rw [readRoots_of_head hspace hne.1, hmisplaced, rootsAnswer_scalar h]
    rfl
  · cases hv with
    | array hitems =>
      rw [chars_array, List.cons_append, List.append_assoc, List.singleton_append, readRoots_array]
      exact listOf_separated (.inl rfl) (fun v hv => readRoot_readsBack (hitems v hv)) rest
  · rw [chars_object, List.cons_append]
    rfl

end Fragment

namespace Tree

open Fragment (misplaced misplaced_chars readRoots rootsAnswer readRoots_readsBack)

/-- The entries of a document behind some whose roots, if any, are known. -/
def entriesAnswer (roots? : Option (List Fragment)) :
    List (String × Json) → Except Fault (List Fragment)
  | [] => .ok (roots?.getD [])
  | e :: rest =>
    if e.1 = "elements" then
      if roots?.isSome then .error .mismatched
      else (rootsAnswer e.2).bind fun roots => entriesAnswer (some roots) rest
    else entriesAnswer roots? rest

def documentAnswer : Json → Except Fault (List Fragment)
  | .object entries => entriesAnswer none entries
  | .array [] => .ok []
  | .array [v] => rootsAnswer v
  | .array (v :: _ :: _) => (rootsAnswer v).bind fun _ => .error .malformed
  | _ => .error .mismatched

theorem documentAnswer_scalar {v : Json} (h : v.isScalar = true) :
    documentAnswer v = .error .mismatched := by
  cases v with
  | array => cases h
  | object => cases h
  | _ => rfl

theorem readEntries_more {e : String × Json} (he : e.2.Regular) (fuel : Nat)
    (roots? : Option (List Fragment)) {rest : List Char} (hrest : EndsNumber rest) :
    readEntries (fuel + 1) roots? (.more (entryChars e ++ rest)) =
      if e.1 = "elements" then
        if roots?.isSome then .error .mismatched
        else (rootsAnswer e.2).bind fun roots =>
          (nextItem '\x7d' rest).bind (readEntries fuel (some roots))
      else (nextItem '\x7d' rest).bind (readEntries fuel roots?) := by
  have hroots := (readRoots_readsBack he).reads rest hrest
  by_cases hkey : e.1 = "elements"
  · simp only [readEntries, entryChars_append, key_quoted, colon_cons, hroots, bind, Except.bind,
      if_pos hkey]
    split
    · rfl
    · cases rootsAnswer e.2 <;> rfl
  · -- What stands under another key is skimmed, at whatever depth.
    have hskim := (value_readsBack .skim he (e.2.chars ++ rest).length).reads rest hrest
    have hdepth : e.2.depth ≤ (e.2.chars ++ rest).length := by
      rw [List.length_append]
      exact Nat.le_trans (depth_le_length he) (Nat.le_add_right _ _)
    rw [within, if_pos hdepth] at hskim
    simp only [readEntries, entryChars_append, key_quoted, colon_cons, hskim, bind, Except.bind,
      if_neg hkey, Except.map]

theorem readEntries_row {entries : List (String × Json)} (h : ∀ e ∈ entries, e.2.Regular)
    (roots? : Option (List Fragment)) (rest : List Char) {fuel : Nat}
    (hfuel : entries.length ≤ fuel) :
    (nextItem '\x7d' (entries.flatMap (',' :: entryChars ·) ++ '\x7d' :: rest)).bind
        (readEntries fuel roots?) =
      (entriesAnswer roots? entries).map fun roots => (roots, rest) := by
  induction entries generalizing fuel roots? with
  | nil =>
    rw [List.flatMap_nil, List.nil_append, nextItem_close (.inr rfl)]
    cases fuel <;> rfl
  | cons e entries ih =>
    rw [List.forall_mem_cons] at h
    obtain ⟨n, rfl⟩ : ∃ n, fuel = n + 1 := ⟨fuel - 1, by rw [List.length_cons] at hfuel; omega⟩
    have hrow := fun roots? => ih h.2 roots? (Nat.le_of_succ_le_succ hfuel)
    rw [List.flatMap_cons, List.cons_append, List.cons_append, List.append_assoc,
      nextItem_of_opens (.inr rfl) (opens_entryChars e _), Except.bind,
      readEntries_more h.1 n roots? (endsNumber_row (.inr rfl) entryChars entries rest),
      hrow roots?, entriesAnswer]
    simp only [hrow]
    split
    · split
      · rfl
      · cases rootsAnswer e.2 <;> rfl
    · rfl

theorem readDocument_object (cs : List Char) :
    readDocument ('\x7b' :: cs) = (firstItem '\x7d' cs).bind (readEntries cs.length none) := by
  simp only [readDocument, skipSpace_brace]
  cases firstItem '\x7d' cs <;> rfl

theorem readDocument_array {cs : List Char} (h : Opens cs) :
    readDocument ('[' :: cs) = (readRoots cs).bind fun read =>
      (closeArray read.2).map fun rest => (read.1, rest) := by
  simp only [readDocument, skipSpace_bracket, firstItem_of_opens (.inl rfl) h, bind, Except.bind]
  cases readRoots cs with
  | error => rfl
  | ok read =>
    dsimp only
    cases closeArray read.2 <;> rfl

theorem readDocument_scalar {v : Json} (h : v.isScalar = true) (rest : List Char) :
    readDocument (v.chars ++ rest) = .error (misplaced (v.chars ++ rest)) := by
  obtain ⟨c, after, hchars, ⟨hspace, hne⟩, -⟩ := exists_opening h
  simp only [List.mem_cons, List.not_mem_nil, or_false, not_or] at hne
  rw [hchars, List.cons_append]
  simp [readDocument, skipSpace_cons hspace, hne]

theorem readDocument_items {items : List Json} (hitems : ∀ v ∈ items, v.Regular) :
    readDocument (Json.array items).chars =
      (documentAnswer (.array items)).map fun roots => (roots, []) := by
  rw [chars_array]
  cases items with
  | nil => rfl
  | cons w items =>
    have hroots := (readRoots_readsBack (hitems w List.mem_cons_self)).reads _
      (endsNumber_row (.inl rfl) chars items [])
    rw [List.map_cons, separated, List.flatMap_map, List.append_assoc,
      readDocument_array (opens_chars w _)]
    change (readRoots (w.chars ++ (items.flatMap (',' :: chars ·) ++ ']' :: []))).bind _ = _
    rw [hroots]
    cases items with
    | nil =>
      rw [documentAnswer]
      cases rootsAnswer w <;> rfl
    | cons w' items =>
      rw [documentAnswer]
      cases rootsAnswer w <;> rfl

theorem readDocument_chars {v : Json} (hv : v.Regular) :
    readDocument v.chars = (documentAnswer v).map fun roots => (roots, []) := by
  rcases v.isScalar_or with h | ⟨items, rfl⟩ | ⟨entries, rfl⟩
  · have hread := readDocument_scalar h []
    rw [misplaced_chars hv endsNumber_nil, List.append_nil] at hread
    rw [hread, documentAnswer_scalar h]
    rfl
  · cases hv with
    | array hitems => exact readDocument_items hitems
  · cases hv with
    | object hentries =>
      have hfuel := length_le_separated entryChars entries (List.cons_ne_nil '\x7d' [])
      rw [chars_object, readDocument_object,
        firstItem_separated (.inr rfl) (fun e _ => opens_entryChars e) [],
        readEntries_row hentries none [] hfuel, documentAnswer]

theorem ofText_print {v : Json} (hv : v.Regular) :
    Tree.ofText v.print = (documentAnswer v).map fun roots => ⟨roots.head?⟩ := by
  have hread := readDocument_chars hv
  rw [chars] at hread
  rw [ofText, hread]
  cases documentAnswer v <;> rfl

end Tree

end MarkupTree

import MarkupTree.Proofs.Path.Spelling

/-!
# Paths split by counting brackets

A path can be taken apart without being read. A scan from left to right counts the brackets, skips
what is in quotation marks inside them, and splits the text at the slashes outside of them. What
parsing makes of the path is what the pieces say, one after the other. The readers never count, so
this holds because nothing that they read in brackets moves the count: it is carried through the
grammar by induction on how deep conditions nest.
-/

set_option autoImplicit false

namespace MarkupTree.Path

/-- How deep in brackets a scan is, and the quotation mark that it waits for. -/
structure Scan where
  depth : Nat
  mark : Option Char
deriving DecidableEq

namespace Scan

def start : Scan := ⟨0, none⟩

/-- Outside of all brackets nothing can be closed and nothing quoted. -/
def next (s : Scan) (c : Char) : Option Scan :=
  match s.mark with
  | some q => some (if c = q then ⟨s.depth, none⟩ else s)
  | none =>
    if c = '[' then some ⟨s.depth + 1, none⟩
    else if c ∈ [']', '"', '\''] then
      if s.depth = 0 then none
      else some (if c = ']' then ⟨s.depth - 1, none⟩ else ⟨s.depth, some c⟩)
    else some s

def run (s : Scan) (cs : List Char) : Option Scan := cs.foldlM next s

/-- The pieces between the slashes outside of all brackets. -/
def pieces (s : Scan) : List Char → List (List Char)
  | [] => [[]]
  | c :: cs =>
    let found := pieces ((s.next c).getD s) cs
    if c = '/' ∧ s = start then [] :: found else found.modifyHead (c :: ·)

def contents (s : Scan) : List Char → List (List Char)
  | [] => []
  | c :: cs =>
    let t := (s.next c).getD s
    if s.depth = 0 then contents t cs
    else if t.depth = 0 then [] :: contents t cs
    else (contents t cs).modifyHead (c :: ·)

theorem modifyHead_nil_append (found : List (List Char)) :
    found.modifyHead ([] ++ ·) = found := by
  cases found <;> rfl

/-- A text leads from one state to another and stays inside of some brackets all the way. -/
inductive Within : Scan → List Char → Scan → Prop
  | nil {s : Scan} (hs : 0 < s.depth) : Within s [] s
  | cons {s t u : Scan} {c : Char} {k : List Char} (hs : 0 < s.depth) (hc : s.next c = some t)
      (hk : Within t k u) : Within s (c :: k) u

namespace Within

variable {s t u : Scan} {k k' : List Char}

theorem pos (h : Within s k t) : 0 < s.depth := by
  cases h with
  | nil hs => exact hs
  | cons hs _ _ => exact hs

theorem append (h : Within s k t) (h' : Within t k' u) : Within s (k ++ k') u := by
  induction h with
  | nil => exact h'
  | cons hs hc _ ih => exact .cons hs hc (ih h')

theorem run_append (h : Within s k t) (rest : List Char) : run s (k ++ rest) = run t rest := by
  induction h with
  | nil => rfl
  | cons _ hc _ ih => rw [← ih, List.cons_append, run, List.foldlM_cons, hc]; rfl

theorem pieces_append (h : Within s k t) (rest : List Char) :
    pieces s (k ++ rest) = (pieces t rest).modifyHead (k ++ ·) := by
  induction h with
  | nil => exact (modifyHead_nil_append _).symm
  | @cons s t u c k hs hc hk ih =>
    have hstart : ¬ (c = '/' ∧ s = start) := by
      rintro ⟨-, rfl⟩
      exact absurd hs (Nat.lt_irrefl 0)
    rw [List.cons_append, pieces, hc, Option.getD_some, if_neg hstart, ih, List.modifyHead_modifyHead]
    rfl

theorem contents_append (h : Within s k t) (rest : List Char) :
    contents s (k ++ rest) = (contents t rest).modifyHead (k ++ ·) := by
  induction h with
  | nil => exact (modifyHead_nil_append _).symm
  | @cons s t u c k hs hc hk ih =>
    rw [List.cons_append, contents, hc, Option.getD_some, if_neg (Nat.ne_of_gt hs),
      if_neg (Nat.ne_of_gt hk.pos), ih, List.modifyHead_modifyHead]
    rfl

end Within

/-- Wherever the text stands in brackets, the count is the same behind it. -/
def Neutral (k : List Char) : Prop := ∀ depth, Within ⟨depth + 1, none⟩ k ⟨depth + 1, none⟩

theorem neutral_nil : Neutral [] := fun _ => .nil (Nat.succ_pos _)

theorem Neutral.append {k k' : List Char} (h : Neutral k) (h' : Neutral k') : Neutral (k ++ k') :=
  fun depth => (h depth).append (h' depth)

theorem neutral_flatten {ws : List (List Char)} (h : ∀ w ∈ ws, Neutral w) : Neutral ws.flatten := by
  induction ws with
  | nil => exact neutral_nil
  | cons w ws ih =>
    rw [List.forall_mem_cons] at h
    exact h.1.append (ih h.2)

/-- A character that does not move the count. -/
def Plain (c : Char) : Prop := c ∉ ['[', ']', '"', '\'']

instance (c : Char) : Decidable (Plain c) := inferInstanceAs (Decidable (c ∉ _))

theorem next_of_plain {c : Char} (hc : Plain c) (depth : Nat) :
    next ⟨depth, none⟩ c = some ⟨depth, none⟩ := by
  rw [Plain, List.mem_cons, not_or] at hc
  simp only [next, if_neg hc.1, if_neg hc.2]

theorem neutral_of_plain {k : List Char} (h : ∀ c ∈ k, Plain c) : Neutral k := by
  intro depth
  induction k with
  | nil => exact .nil (Nat.succ_pos _)
  | cons c k ih =>
    rw [List.forall_mem_cons] at h
    exact .cons (Nat.succ_pos _) (next_of_plain h.1 _) (ih h.2)

theorem neutral_quotation {q : Char} (hq : q = '"' ∨ q = '\'') {content : List Char}
    (h : q ∉ content) : Neutral (q :: (content ++ [q])) := by
  intro depth
  have hopen : next ⟨depth + 1, none⟩ q = some ⟨depth + 1, some q⟩ := by
    rcases hq with rfl | rfl <;> rfl
  have hclose : Within ⟨depth + 1, some q⟩ [q] ⟨depth + 1, none⟩ :=
    .cons (Nat.succ_pos _) (by simp [next]) (.nil (Nat.succ_pos _))
  have hcontent : Within ⟨depth + 1, some q⟩ content ⟨depth + 1, some q⟩ := by
    induction content with
    | nil => exact .nil (Nat.succ_pos _)
    | cons c content ih =>
      rw [List.mem_cons, not_or] at h
      exact .cons (Nat.succ_pos _) (by simp [next, Ne.symm h.1]) (ih h.2)
  exact .cons (Nat.succ_pos _) hopen (hcontent.append hclose)

theorem Neutral.enclosed {k : List Char} (h : Neutral k) : Neutral ('[' :: (k ++ [']'])) := by
  intro depth
  have hclose : Within ⟨depth + 2, none⟩ [']'] ⟨depth + 1, none⟩ :=
    .cons (Nat.succ_pos _) rfl (.nil (Nat.succ_pos _))
  exact .cons (Nat.succ_pos _) rfl ((h (depth + 1)).append hclose)

/-- Outside of brackets a scan passes the text without splitting it, and finds some contents of
brackets in it. -/
structure Passes (k : List Char) (inner : List (List Char)) : Prop where
  run_append : ∀ rest, run start (k ++ rest) = run start rest
  pieces_append : ∀ rest, pieces start (k ++ rest) = (pieces start rest).modifyHead (k ++ ·)
  contents_append : ∀ rest, contents start (k ++ rest) = inner ++ contents start rest

theorem passes_nil : Passes [] [] where
  run_append _ := rfl
  pieces_append _ := (modifyHead_nil_append _).symm
  contents_append _ := rfl

theorem Passes.append {k k' : List Char} {inner inner' : List (List Char)} (h : Passes k inner)
    (h' : Passes k' inner') : Passes (k ++ k') (inner ++ inner') where
  run_append rest := by rw [List.append_assoc, h.run_append, h'.run_append]
  pieces_append rest := by
    rw [List.append_assoc, h.pieces_append, h'.pieces_append, List.modifyHead_modifyHead]
    congr 1
    funext found
    exact (List.append_assoc k k' found).symm
  contents_append rest := by
    rw [List.append_assoc, h.contents_append, h'.contents_append, List.append_assoc]

theorem passes_char {c : Char} (hc : Plain c) (hslash : c ≠ '/') : Passes [c] [] where
  run_append rest := by
    rw [List.singleton_append, run, List.foldlM_cons, start, next_of_plain hc]
    rfl
  pieces_append rest := by
    rw [List.singleton_append, pieces, if_neg (by simp [hslash]), start, next_of_plain hc]
    rfl
  contents_append rest := by
    rw [List.singleton_append, contents, start, next_of_plain hc]
    rfl

theorem passes_of_plain {k : List Char} (h : ∀ c ∈ k, Plain c ∧ c ≠ '/') : Passes k [] := by
  induction k with
  | nil => exact passes_nil
  | cons c k ih =>
    rw [List.forall_mem_cons] at h
    exact (passes_char h.1.1 h.1.2).append (ih h.2)

theorem Neutral.passes {k : List Char} (h : Neutral k) : Passes ('[' :: (k ++ [']'])) [k] := by
  have hinside := h 0
  have hcs : ∀ rest, '[' :: (k ++ [']']) ++ rest = '[' :: (k ++ ']' :: rest) := by simp
  refine ⟨?_, ?_, ?_⟩
  · intro rest
    have hrun := hinside.run_append (']' :: rest)
    rw [hcs]
    exact hrun
  · intro rest
    have hpieces := hinside.pieces_append (']' :: rest)
    have hclose : pieces ⟨1, none⟩ (']' :: rest) = (pieces start rest).modifyHead (']' :: ·) := rfl
    have hopen : pieces start ('[' :: (k ++ ']' :: rest)) =
        (pieces ⟨1, none⟩ (k ++ ']' :: rest)).modifyHead ('[' :: ·) := rfl
    rw [hcs, hopen, hpieces, hclose, List.modifyHead_modifyHead, List.modifyHead_modifyHead]
    congr 1
    funext found
    simp
  · intro rest
    have hcontents := hinside.contents_append (']' :: rest)
    have hclose : contents ⟨1, none⟩ (']' :: rest) = [] :: contents start rest := rfl
    have hopen : contents start ('[' :: (k ++ ']' :: rest)) =
        contents ⟨1, none⟩ (k ++ ']' :: rest) := rfl
    rw [hcs, hopen, hcontents, hclose, List.modifyHead_cons, List.append_nil]
    rfl

theorem passes_row {inner : List (List Char)} (h : ∀ k ∈ inner, Neutral k) :
    Passes (inner.flatMap fun k => '[' :: (k ++ [']'])) inner := by
  induction inner with
  | nil => exact passes_nil
  | cons k inner ih =>
    rw [List.forall_mem_cons] at h
    exact h.1.passes.append (ih h.2)

end Scan

open Scan

namespace Surface

theorem plain_of_isNameChar {c : Char} (h : isNameChar c = true) : Plain c ∧ c ≠ '/' := by
  constructor
  · intro hmem
    simp only [List.mem_cons, List.not_mem_nil, or_false] at hmem
    rcases hmem with rfl | rfl | rfl | rfl <;> cases h
  · rintro rfl
    cases h

theorem neutral_of_gap {g : List Char} (h : ∀ c ∈ g, isGap c = true) : Neutral g := by
  apply neutral_of_plain
  intro c hc hmem
  have hgap := h c hc
  simp only [List.mem_cons, List.not_mem_nil, or_false] at hmem
  rcases hmem with rfl | rfl | rfl | rfl <;> cases hgap

theorem plain_of_isName {name : String} (h : IsName name) :
    ∀ c ∈ name.toList, Plain c ∧ c ≠ '/' := by
  intro c hc
  rcases h.mem hc with hname | rfl
  · exact plain_of_isNameChar hname
  · decide

theorem plain_of_legible {test : NameTest} (h : test.Legible) :
    ∀ c ∈ test.display.toList, Plain c ∧ c ≠ '/' := by
  intro c hc
  rcases mem_display h c hc with hname | hmem
  · exact plain_of_isNameChar hname
  · have hall : ∀ c ∈ [':', '*', '(', ')'], Plain c ∧ c ≠ '/' := by simp [Plain]
    exact hall c hmem

section Neutral

variable {d : Nat}
variable (ih : ∀ k v x, condition d (k ++ v) = some (x, v) → Neutral k)

include ih

theorem neutral_of_bracket {b : Bracket} {w : List Char} (h : Reads (bracket (condition d)) b w) :
    ∃ content, w = '[' :: (content ++ [']']) ∧ Neutral content := by
  obtain ⟨g, k, g', rfl, hg, hg', hcontent⟩ := text_of_bracket (condition_consumes d) h
  have hk : Neutral k := by
    rcases hcontent with ⟨digits, -, -, -, hdigits⟩ | ⟨written, v, -, -, hread, -⟩
    · exact neutral_of_plain fun c hc =>
        (plain_of_isNameChar (isNameChar_of_isDigit (hdigits c hc))).1
    · exact ih k v written hread
  exact ⟨g ++ k ++ g', rfl, ((neutral_of_gap hg).append hk).append (neutral_of_gap hg')⟩

theorem neutral_of_segment {descendant : Bool} {seg : Segment} {w : List Char}
    (h : Reads (segment (condition d) descendant) seg w) : Neutral w := by
  rcases text_of_segment (condition_consumes d) h with ⟨name, -, hname, rfl⟩ | ⟨-, rfl⟩ |
    ⟨test, bs, ws, -, htest, hws, rfl⟩
  · apply neutral_of_plain
    rw [List.forall_mem_cons]
    exact ⟨by decide, fun c hc => (plain_of_isName hname c hc).1⟩
  · exact neutral_of_plain (by simp [Plain])
  · apply (neutral_of_plain fun c hc => (plain_of_legible htest c hc).1).append
    apply neutral_flatten
    intro w hw
    obtain ⟨b, hb⟩ := exists_reads_of_mem hws w hw
    obtain ⟨content, rfl, hcontent⟩ := neutral_of_bracket ih hb
    exact hcontent.enclosed

theorem neutral_of_segments {segs : List Segment} {w : List Char}
    (h : Reads (segments (condition d)) segs w) : Neutral w := by
  have hc := condition_consumes d
  obtain ⟨first, rest, k, ws, -, hk, hws, rfl⟩ := text_of_segments hc h
  apply (neutral_of_segment ih hk).append
  apply neutral_flatten
  intro w hw
  obtain ⟨seg, hseg⟩ := exists_reads_of_mem hws w hw
  obtain ⟨descendant, k, hk, rfl⟩ := text_of_separated hc hseg
  have hslashes : Neutral ('/' :: if descendant then ['/'] else []) := by
    apply neutral_of_plain
    cases descendant <;> simp [Plain]
  exact hslashes.append (neutral_of_segment ih hk)

theorem neutral_of_operand {x : Operand} {w v : List Char}
    (h : operand (condition d) (w ++ v) = some (x, v)) : Neutral w := by
  rcases operand_eq_some.mp h with h | ⟨-, h | ⟨-, h | ⟨-, h⟩⟩⟩
  · obtain ⟨q, content, hq, hmem, hcs, -⟩ := quoted_eq_some.mp (ending_eq_some.mp h).1
    obtain rfl := List.append_cancel_right hcs
    exact neutral_quotation hq hmem
  · have hnames := isNameChar_of_number ⟨v, (ending_eq_some.mp h).1⟩
    exact neutral_of_plain fun c hc => (plain_of_isNameChar (hnames c hc)).1
  · obtain ⟨segs, hsegs, -⟩ := path_eq_some.mp (ending_eq_some.mp h).1
    exact neutral_of_segments ih ⟨v, hsegs⟩
  · obtain ⟨-, hrun, -⟩ := bare_append_eq_some.mp h
    apply neutral_of_plain
    intro c hc
    obtain ⟨a, b, rfl⟩ := List.append_of_mem hc
    obtain ⟨hstops, hc⟩ := bareRun_split hrun
    have hclose : c ≠ ']' := by
      rintro rfl
      cases hstops
    simp only [List.mem_cons, List.not_mem_nil, or_false, not_or] at hc
    simp [Plain, hclose, hc]

end Neutral

theorem neutral_of_condition (d : Nat) : ∀ k v x, condition d (k ++ v) = some (x, v) →
    Neutral k := by
  induction d with
  | zero => nofun
  | succ d ih =>
    intro k v x h
    obtain ⟨lhs, l, m, rfl, -, hlhs, hm⟩ := text_of_condition h
    apply (neutral_of_operand ih hlhs).append
    rcases hm with ⟨op, rhs, hcmp, -⟩ | ⟨rfl, -, -⟩
    · obtain ⟨_, r, rfl, -, ⟨g, g', rfl, hg, hg', -, -⟩, hrhs⟩ :=
        (comparand_iff (condition_consumes d)).mp hcmp
      have hop : ∀ c ∈ op.symbol.toList, Plain c := by
        cases op <;> simp [Comparison.symbol, Plain]
      have hfront := ((neutral_of_gap hg).append (neutral_of_plain hop)).append (neutral_of_gap hg')
      exact hfront.append (neutral_of_operand ih hrhs)
    · exact neutral_nil

/-- The content of some brackets is neutral and, but for blanks, the text of what it is read as. -/
structure Bracket.Spelled (b : Bracket) (content : List Char) : Prop where
  neutral : Neutral content
  text : trimGap content = b.text.toList
  digits : ∀ digits, b = .position digits →
    digits.toList ≠ [] ∧ ∀ c ∈ digits.toList, Decimal.isDigit c = true

/-- The text of a segment without the slashes before it. -/
inductive Segment.Spelled : Segment → List Char → Prop
  | attribute (d : Bool) {name : String} (hname : IsName name) :
    Spelled (.attribute d name) ('@' :: name.toList)
  | self (d : Bool) : Spelled (.self d) ['.']
  | step (d : Bool) {test : NameTest} {bs : List Bracket} {inner : List (List Char)}
    (htest : test.Legible) (hinner : List.Forall₂ Bracket.Spelled bs inner) :
    Spelled (.step d test bs)
      (test.display.toList ++ inner.flatMap fun content => '[' :: (content ++ [']']))

theorem spelled_of_bracket {d : Nat} {b : Bracket} {w : List Char}
    (h : Reads (bracket (condition d)) b w) :
    ∃ content, w = '[' :: (content ++ [']']) ∧ b.Spelled content := by
  obtain ⟨content, rfl, htext, hdigits⟩ := content_of_bracket h
  obtain ⟨content', heq, hneutral⟩ := neutral_of_bracket (neutral_of_condition d) h
  obtain rfl : content = content' := List.append_cancel_right (List.cons.inj heq).2
  exact ⟨content, rfl, hneutral, htext, hdigits⟩

theorem spelled_of_brackets {d : Nat} {bs : List Bracket} {ws : List (List Char)}
    (h : List.Forall₂ (Reads (bracket (condition d))) bs ws) :
    ∃ inner, List.Forall₂ Bracket.Spelled bs inner ∧
      ws.flatten = inner.flatMap fun content => '[' :: (content ++ [']']) := by
  induction h with
  | nil => exact ⟨[], .nil, rfl⟩
  | cons hw _ ih =>
    obtain ⟨content, rfl, hcontent⟩ := spelled_of_bracket hw
    obtain ⟨inner, hinner, hflatten⟩ := ih
    exact ⟨content :: inner, .cons hcontent hinner, by simp [hflatten]⟩

theorem spelled_of_segment {n : Nat} {d : Bool} {seg : Segment} {w : List Char}
    (h : Reads (segment (condition n) d) seg w) : seg.Spelled w ∧ seg.isDescendant = d := by
  rcases text_of_segment (condition_consumes n) h with ⟨name, rfl, hname, rfl⟩ | ⟨rfl, rfl⟩ |
    ⟨test, bs, ws, rfl, htest, hws, rfl⟩
  · exact ⟨.attribute d hname, rfl⟩
  · exact ⟨.self d, rfl⟩
  · obtain ⟨inner, hinner, hflatten⟩ := spelled_of_brackets hws
    rw [hflatten]
    exact ⟨.step d htest hinner, rfl⟩

theorem forall_neutral_of_spelled {bs : List Bracket} {inner : List (List Char)}
    (h : List.Forall₂ Bracket.Spelled bs inner) : ∀ content ∈ inner, Neutral content := by
  induction h with
  | nil => nofun
  | cons hb _ ih => exact List.forall_mem_cons.mpr ⟨hb.neutral, ih⟩

theorem passes_of_step {test : NameTest} {bs : List Bracket} {inner : List (List Char)}
    (htest : test.Legible) (hinner : List.Forall₂ Bracket.Spelled bs inner) :
    Passes (test.display.toList ++ inner.flatMap fun content => '[' :: (content ++ [']'])) inner :=
  (passes_of_plain (plain_of_legible htest)).append (passes_row (forall_neutral_of_spelled hinner))

theorem Segment.Spelled.passes {seg : Segment} {k : List Char} (h : seg.Spelled k) :
    ∃ inner, Passes k inner := by
  rcases h with ⟨d, hname⟩ | d | ⟨d, htest, hinner⟩
  · refine ⟨[], passes_of_plain ?_⟩
    rw [List.forall_mem_cons]
    exact ⟨by decide, plain_of_isName hname⟩
  · exact ⟨[], passes_of_plain (by simp [Plain])⟩
  · exact ⟨_, passes_of_step htest hinner⟩

/-- The pieces that a segment takes. An empty one stands for a double slash. -/
def Segment.pieces (seg : Segment) (k : List Char) : List (List Char) :=
  (if seg.isDescendant then [[]] else []) ++ [k]

theorem pieces_of_separated {n : Nat} {segs : List Segment} {ws : List (List Char)}
    (h : List.Forall₂ (Reads (separated (condition n))) segs ws) :
    ∃ ks, List.Forall₂ Segment.Spelled segs ks ∧ run start ws.flatten = some start ∧
      Scan.pieces start ws.flatten = [] :: (List.zipWith Segment.pieces segs ks).flatten := by
  induction h with
  | nil => exact ⟨[], .nil, rfl, rfl⟩
  | @cons seg w segs ws hw _ ih =>
    obtain ⟨ks, hks, hrun, hpieces⟩ := ih
    obtain ⟨d, k, hk, rfl⟩ := text_of_separated (condition_consumes n) hw
    obtain ⟨hspelled, rfl⟩ := spelled_of_segment hk
    obtain ⟨inner, hpasses⟩ := hspelled.passes
    have hbehind : Scan.pieces start (k ++ ws.flatten) =
        k :: (List.zipWith Segment.pieces segs ks).flatten := by
      rw [hpasses.pieces_append, hpieces, List.modifyHead_cons, List.append_nil]
    have hrest : run start (k ++ ws.flatten) = some start := by
      rw [hpasses.run_append, hrun]
    refine ⟨k :: ks, .cons hspelled hks, ?_, ?_⟩
    · cases hd : seg.isDescendant <;> exact hrest
    · rw [List.zipWith_cons_cons, List.flatten_cons, Segment.pieces]
      cases hd : seg.isDescendant with
      | false =>
        change [] :: Scan.pieces start (k ++ ws.flatten) = _
        rw [hbehind]
        rfl
      | true =>
        change [] :: [] :: Scan.pieces start (k ++ ws.flatten) = _
        rw [hbehind]
        rfl

end Surface

open Surface

/-- What pieces say of a step: the text of its test, the key that it reads, and what stands in its
brackets. -/
structure Outline where
  descendant : Bool
  test : List Char
  reads : Option (List Char)
  contents : List (List Char)
deriving DecidableEq

namespace Outline

def ofAttribute (descendant : Bool) (key : List Char) : Outline :=
  ⟨descendant, if descendant then ['*'] else ['.'], some key, []⟩

def ofPiece (descendant : Bool) (piece : List Char) : Outline :=
  ⟨descendant, piece.takeWhile (· != '['), none, Scan.contents start piece⟩

/-- What stands in brackets, but for the blanks around it and the zeros before a position. -/
def Shows (content : List Char) : Predicate → Prop
  | .position n => ∃ zeros, trimGap content = List.replicate zeros '0' ++ n.repr.toList
  | .condition source _ => trimGap content = source.toList

structure Describes (o : Outline) (s : Step) : Prop where
  descendant : s.descendant = o.descendant
  test : s.test.display.toList = o.test
  reads : s.reads.map String.toList = o.reads
  predicates : List.Forall₂ Shows o.contents s.predicates

end Outline

/-- The steps that pieces stand for, after a last one that is not yet among them. Dots are left out,
an empty piece is a double slash, and an attribute joins the step before it if no double slash has
come since. -/
def outlines (last : Option Outline) (descendant : Bool) : List (List Char) → List Outline
  | [] => last.toList
  | [] :: rest => outlines last true rest
  | ['.'] :: rest => outlines last descendant rest
  | ('@' :: key) :: rest =>
    match last, descendant with
    | some o, false => outlines (some { o with reads := some key }) false rest
    | last, descendant => last.toList ++ outlines (some (.ofAttribute descendant key)) false rest
  | piece :: rest => last.toList ++ outlines (some (.ofPiece descendant piece)) false rest

section Outlines

variable {last : Option Outline} {descendant : Bool} {rest : List (List Char)}

theorem outlines_pieces (seg : Segment) (k : List Char) :
    outlines last descendant (seg.pieces k ++ rest) =
      outlines last (descendant || seg.isDescendant) (k :: rest) := by
  rw [Segment.pieces]
  cases seg.isDescendant with
  | false => rw [Bool.or_false]; rfl
  | true => rw [Bool.or_true]; rfl

theorem outlines_attribute_alone (key : List Char) (h : last = none ∨ descendant = true) :
    outlines last descendant (('@' :: key) :: rest) =
      last.toList ++ outlines (some (.ofAttribute descendant key)) false rest := by
  cases last with
  | none => rfl
  | some o =>
    obtain rfl := h.resolve_left nofun
    rfl

theorem outlines_step {test : NameTest} (htest : test.Legible) (row : List Char) :
    outlines last descendant ((test.display.toList ++ row) :: rest) =
      last.toList ++ outlines (some (.ofPiece descendant (test.display.toList ++ row))) false
        rest := by
  have hne : test.display.toList ≠ [] := (nameTest_consumes htest.read).ne_nil
  rw [outlines]
  · simp [hne]
  · intro heq
    obtain ⟨c, display, hdisplay⟩ := List.exists_cons_of_ne_nil hne
    rw [hdisplay, List.cons_append] at heq
    obtain ⟨rfl, htail⟩ := List.cons.inj heq
    have hstarts := htest.dot display hdisplay
    rw [(List.append_eq_nil_iff.mp htail).1] at hstarts
    cases hstarts
  · intro key heq
    have hhead := (nameTest_head htest.read).2
    have hrow : (test.display.toList ++ row).head? = test.display.toList.head? :=
      List.head?_append_of_ne_nil _ hne
    rw [← hrow, heq] at hhead
    exact hhead rfl

end Outlines

theorem Outline.shows_predicates {positioned : Bool} {bs : List Bracket} {inner : List (List Char)}
    {ps : List Predicate} (hinner : List.Forall₂ Bracket.Spelled bs inner)
    (h : predicates positioned bs = .ok ps) : List.Forall₂ Shows inner ps := by
  induction hinner generalizing positioned ps with
  | nil =>
    rw [predicates] at h
    cases h
    exact .nil
  | @cons b content bs inner hb _ ih =>
    cases b with
    | position digits =>
      obtain ⟨-, -, more, hmore, rfl⟩ := predicates_position.mp h
      obtain ⟨hne, hdigits⟩ := hb.digits digits rfl
      obtain ⟨zeros, hzeros⟩ := Decimal.exists_zeros hne hdigits
      exact .cons ⟨zeros, hb.text.trans hzeros⟩ (ih hmore)
    | condition written =>
      rw [predicates] at h
      obtain ⟨⟨source, test⟩, htest, h⟩ := bind_eq_ok_iff.mp h
      obtain ⟨more, hmore, h⟩ := bind_eq_ok_iff.mp h
      cases h
      obtain rfl := source_of_resolveCondition htest
      exact .cons hb.text (ih hmore)

theorem Outline.ofPiece_describes {d : Bool} {test : NameTest} {bs : List Bracket}
    {inner : List (List Char)} {ps : List Predicate} (htest : test.Legible)
    (hinner : List.Forall₂ Bracket.Spelled bs inner) (hps : predicates false bs = .ok ps) :
    (ofPiece d (test.display.toList ++
      inner.flatMap fun content => '[' :: (content ++ [']']))).Describes ⟨d, test, none, ps⟩ := by
  have hcontents := (passes_of_step htest hinner).contents_append []
  rw [List.append_nil, Scan.contents, List.append_nil] at hcontents
  have hdisplay : ∀ c ∈ test.display.toList, (c != '[') = true := by
    intro c hc
    have hplain := (plain_of_legible htest c hc).1
    rw [bne_iff_ne]
    rintro rfl
    exact hplain List.mem_cons_self
  have hrow : ∀ c ∈ (inner.flatMap fun content => '[' :: (content ++ [']'])).head?,
      (c != '[') = false := by
    cases inner with
    | nil => nofun
    | cons content inner => rintro _ ⟨⟩; rfl
  have htake : (test.display.toList ++
      inner.flatMap fun content => '[' :: (content ++ [']'])).takeWhile (· != '[') =
        test.display.toList := by
    rw [takeWhile_append_of_head hrow, List.takeWhile_eq_self_iff.mpr hdisplay]
  exact ⟨rfl, htake.symm, rfl, by rw [ofPiece, hcontents]; exact shows_predicates hinner hps⟩

theorem Outline.ofAttribute_describes (d : Bool) (name : String) :
    (ofAttribute d name.toList).Describes (attributeStep d name) := by
  have htest : (attributeStep d name).test.display.toList = if d then ['*'] else ['.'] := by
    cases d <;> simp [attributeStep, NameTest.display]
  exact ⟨rfl, htest, rfl, .nil⟩

theorem Outline.describes_toList {last : Option Outline} {last' : Option Step}
    (h : Option.Rel Describes last last') : List.Forall₂ Describes last.toList last'.toList := by
  cases h with
  | none => exact .nil
  | some h => exact .cons h .nil

/-- The fold of segments into steps and that of their pieces into outlines go side by side. -/
theorem outlines_describe {last : Option Outline} {last' : Option Step}
    (hlast : Option.Rel Outline.Describes last last') {descendant : Bool} {segs : List Segment}
    {ks : List (List Char)} {found : List Step} (hsegs : List.Forall₂ Segment.Spelled segs ks)
    (h : steps last' descendant segs = .ok found) :
    List.Forall₂ Outline.Describes
      (outlines last descendant (List.zipWith Segment.pieces segs ks).flatten) found := by
  induction hsegs generalizing last last' descendant found with
  | nil =>
    rw [steps_nil] at h
    cases h
    exact Outline.describes_toList hlast
  | @cons seg k segs ks hseg _ ih =>
    rw [List.zipWith_cons_cons, List.flatten_cons, outlines_pieces]
    cases hreads : last'.any (·.reads.isSome) with
    | true =>
      rw [steps_after_read hreads] at h
      cases h
    | false =>
      rcases hseg with @⟨d, name, hname⟩ | d | @⟨d, test, bs, inner, htest, hinner⟩
      · by_cases hd : last' = none ∨ (descendant || d) = true
        · rw [steps_attribute_alone name hreads hd] at h
          obtain ⟨more, hmore, rfl⟩ := map_eq_ok_iff.mp h
          have hd' : last = none ∨ (descendant || d) = true := by
            refine hd.imp_left ?_
            rintro rfl
            cases hlast
            rfl
          rw [show Segment.isDescendant (.attribute d name) = d from rfl,
            outlines_attribute_alone _ hd']
          exact List.rel_append (Outline.describes_toList hlast)
            (ih (.some (Outline.ofAttribute_describes _ name)) hmore)
        · rw [not_or, Bool.not_eq_true] at hd
          obtain ⟨s, rfl⟩ := Option.ne_none_iff_exists'.mp hd.1
          have hs : s.reads = none := by simpa using hreads
          rw [steps_attribute_joins name hs hd.2] at h
          cases hlast with
          | @some o _ ho =>
            have hjoined : Outline.Describes { o with reads := some name.toList }
                { s with reads := some name } := ⟨ho.descendant, ho.test, rfl, ho.predicates⟩
            rw [show Segment.isDescendant (.attribute d name) = d from rfl, hd.2]
            exact ih (.some hjoined) h
      · rw [steps_self d hreads] at h
        exact ih hlast h
      · rw [steps_step test bs hreads] at h
        obtain ⟨ps, hps, h⟩ := bind_eq_ok_iff.mp h
        obtain ⟨more, hmore, rfl⟩ := map_eq_ok_iff.mp h
        rw [outlines_step htest]
        exact List.rel_append (Outline.describes_toList hlast)
          (ih (.some (Outline.ofPiece_describes htest hinner hps)) hmore)

/-- Every parsed path is balanced: a scan that counts brackets and skips what is quoted inside them
gets to its end. The pieces that it finds between the slashes outside of brackets stand for the
steps, one to one and in order, and the contents of the outermost brackets of each piece for the
predicates of its step. -/
theorem parse_outlines {path : String} {found : List Step} (h : parse path = .ok found) :
    run start path.toList = some start ∧
      ∃ rest, pieces start path.toList = [] :: rest ∧
        List.Forall₂ Outline.Describes (outlines none false rest) found := by
  obtain ⟨segs, hsegs, hsteps, -⟩ := parse_eq_ok.mp h
  obtain ⟨-, hrun⟩ := ofPath?_eq_some.mp hsegs
  obtain ⟨ws, hws, hreads⟩ :=
    repeated_reads (separated_consumes (conditionOf_consumes path.toList)) hrun
  obtain ⟨ks, hspelled, hbalanced, hpieces⟩ := pieces_of_separated hreads
  rw [List.append_nil] at hws
  rw [hws]
  exact ⟨hbalanced, _, hpieces, outlines_describe .none hspelled hsteps⟩

/-- A path with a dot behind a double slash, an attribute, zeros, and a slash, a bracket and a
quotation mark in quotation marks. -/
theorem parse_outlines_nested :
    let path := "/a[ 007 ][.b[@c = ']/x[\"']]//./d/@k"
    let rest := ["a[ 007 ][.b[@c = ']/x[\"']]".toList, [], ['.'], ['d'], ['@', 'k']]
    let described := [⟨false, ['a'], none, [" 007 ".toList, ".b[@c = ']/x[\"']".toList]⟩,
      (⟨true, ['d'], some ['k'], []⟩ : Outline)]
    ∃ found, parse path = .ok found ∧ run start path.toList = some start ∧
      pieces start path.toList = [] :: rest ∧ outlines none false rest = described ∧
      List.Forall₂ Outline.Describes described found := by
  intro path rest described
  have hparse : (parse path).toOption.isSome = true := by decide +kernel
  have hpieces : pieces start path.toList = [] :: rest := by decide +kernel
  have houtlines : outlines none false rest = described := by decide +kernel
  obtain ⟨found, hfound⟩ := Option.isSome_iff_exists.mp hparse
  rw [toOption_eq_some_iff] at hfound
  obtain ⟨hrun, rest', hrest', hdescribed⟩ := parse_outlines hfound
  rw [hpieces] at hrest'
  cases hrest'
  rw [houtlines] at hdescribed
  exact ⟨found, hfound, hrun, hpieces, houtlines, hdescribed⟩

end MarkupTree.Path

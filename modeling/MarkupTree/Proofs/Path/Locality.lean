import MarkupTree.Proofs.Path.Continuation

/-!
# Reading is local

What a reader takes off the front of a text it takes again off any other text that starts with the
same piece and goes on in a way that ends the piece. So a condition is the same in all brackets, and
a path is the same before its end, before another path and before a bracket that closes. The proof
follows the readers from the brackets outwards, by induction on how deep conditions may nest.

Reading at a depth `n` is enough for every text that is shorter than `n`, whatever the depth was at
which it has been read first.
-/

set_option autoImplicit false

namespace MarkupTree.Path.Surface

/-- Texts with which brackets end, blanks apart. -/
def Closes (t : List Char) : Prop := (skipGap t).head? = some ']'

theorem skipGap_append (s t : List Char) :
    skipGap (s ++ t) = if (skipGap s).isEmpty then skipGap t else skipGap s ++ t :=
  List.dropWhile_append

theorem skipGap_local {s k u u' : List Char} (h : skipGap (s ++ u) = k ++ u) (hk : k ≠ []) :
    skipGap (s ++ u') = k ++ u' := by
  rw [skipGap_append] at h ⊢
  split at h
  · have hlen := (skipGap_suffix u).length_le
    rw [h, List.length_append] at hlen
    have := List.length_pos_iff.mpr hk
    omega
  · next hs =>
    rw [if_neg hs, List.append_cancel_right h]

theorem isGap_of_skipGap {s rest : List Char} {x : Char} (h : skipGap s = x :: rest) :
    isGap x = false := by
  have hhead := List.head?_dropWhile_not isGap s
  rw [show s.dropWhile isGap = x :: rest from h] at hhead
  simpa using hhead

theorem skipGap_cons {x : Char} (hx : isGap x = false) (rest : List Char) :
    skipGap (x :: rest) = x :: rest :=
  List.dropWhile_cons_of_neg (by simp [hx])

theorem skipGap_of_head {k : List Char} (hk : k ≠ []) (hhead : ∀ x ∈ k.head?, isGap x = false)
    (v : List Char) : skipGap (k ++ v) = k ++ v := by
  cases k with
  | nil => exact absurd rfl hk
  | cons x k => exact skipGap_cons (hhead x rfl) (k ++ v)

theorem skipGap_append_of_gap {g : List Char} (hg : ∀ x ∈ g, isGap x = true) (t : List Char) :
    skipGap (g ++ t) = skipGap t := List.dropWhile_append_of_pos hg

theorem gap_of_skipGap {g t : List Char} (h : skipGap (g ++ t) = t) : ∀ x ∈ g, isGap x = true := by
  have hsplit := List.takeWhile_append_dropWhile (p := isGap) (l := g ++ t)
  rw [show (g ++ t).dropWhile isGap = t from h] at hsplit
  rw [← List.append_cancel_right hsplit]
  exact fun x hx => List.mem_takeWhile_imp hx

theorem closes_append_of_gap {g v : List Char} (hg : ∀ x ∈ g, isGap x = true) (hv : Closes v) :
    Closes (g ++ v) := by
  rw [Closes, skipGap_append_of_gap hg]
  exact hv

theorem stops_cons {x : Char} (hx : isGap x = false) (rest : List Char) :
    stops (x :: rest) = true ↔
      x ∈ ['=', '<', '>', ']'] ∨ (x = '!' ∧ rest.head? = some '=') := by
  simp only [stops, skipGap_cons hx, Bool.or_eq_true, List.head?_cons, beq_iff_eq,
    Option.some.injEq]
  constructor
  · rintro (h | rfl)
    · obtain ⟨⟨op, after⟩, hop⟩ := Option.isSome_iff_exists.mp h
      obtain ⟨hcs, -⟩ := comparison_eq_some.mp hop
      cases op <;> simp [Comparison.symbol] at hcs <;> simp [hcs]
    · simp
  · rintro (h | ⟨rfl, h⟩)
    · simp only [List.mem_cons, List.not_mem_nil, or_false] at h
      rcases h with rfl | rfl | rfl | rfl
      · exact .inl rfl
      · unfold comparison
        split <;> simp_all
      · unfold comparison
        split <;> simp_all
      · exact .inr rfl
    · obtain ⟨after, rfl⟩ := List.head?_eq_some_iff.mp h
      exact .inl rfl

theorem stops_append (s t : List Char) :
    stops (s ++ t) = if (skipGap s).isEmpty then stops t else stops (skipGap s ++ t) := by
  simp only [stops, skipGap_append]
  cases h : skipGap s with
  | nil => rfl
  | cons x rest => simp [skipGap_cons (isGap_of_skipGap h)]

theorem stops_of_closes {t : List Char} (h : Closes t) : stops t = true := by
  have h : (skipGap t).head? = some ']' := h
  simp [stops, h]

theorem Closes.comparison_eq_none {t : List Char} (h : Closes t) :
    comparison (skipGap t) = none := by
  obtain ⟨after, h⟩ := List.head?_eq_some_iff.mp h
  rw [h]
  rfl

theorem Closes.head_ne_equal {t : List Char} (h : Closes t) : t.head? ≠ some '=' := by
  intro hhead
  obtain ⟨after, rfl⟩ := List.head?_eq_some_iff.mp hhead
  cases h

theorem breaks_of_stops {t : List Char} (h : stops t = true) : Breaks t ∧ t.head? ≠ some '/' := by
  cases t with
  | nil => cases h
  | cons x rest =>
    cases hx : isGap x with
    | true =>
      simp only [isGap, Bool.or_eq_true, beq_iff_eq] at hx
      rcases hx with ((rfl | rfl) | rfl) | rfl <;>
        exact ⟨breaks_cons (by decide) (by decide) rest, by simp⟩
    | false =>
      rcases (stops_cons hx rest).mp h with h | ⟨rfl, -⟩
      · simp only [List.mem_cons, List.not_mem_nil, or_false] at h
        rcases h with rfl | rfl | rfl | rfl <;>
          exact ⟨breaks_cons (by decide) (by decide) rest, by simp⟩
      · exact ⟨breaks_cons (by decide) (by decide) rest, by simp⟩

theorem stops_local {s u u' : List Char} (hu : skipGap s = [] → stops u = true)
    (hhead : u'.head? = some '=' → u.head? = some '=') (h : stops (s ++ u') = true) :
    stops (s ++ u) = true := by
  rw [stops_append] at h ⊢
  cases hgap : skipGap s with
  | nil => exact hu hgap
  | cons x rest =>
    rw [hgap] at h
    have hx := isGap_of_skipGap hgap
    apply (stops_cons hx (rest ++ u)).mpr
    rcases (stops_cons hx (rest ++ u')).mp h with hmem | ⟨rfl, hnext⟩
    · exact .inl hmem
    · refine .inr ⟨rfl, ?_⟩
      cases rest with
      | nil => exact hhead hnext
      | cons y rest => exact hnext

theorem stops_of_comparand {c : Parser Condition} {t : List Char} {x : (Comparison × Operand)}
    {rest : List Char} (h : comparand c t = some (x, rest)) : stops t = true := by
  obtain ⟨mid, hop, -⟩ := comparand_eq_some.mp h
  simp [stops, hop]

theorem closes_append {t : List Char} (ht : Closes t) (s : List Char) :
    (skipGap (s ++ t)).head? = some ((skipGap s).head?.getD ']') := by
  rw [skipGap_append]
  cases h : skipGap s with
  | nil => exact ht
  | cons x rest => rfl

theorem exists_position (s : List Char) : ∃ found : Option (String × List Char),
    ∀ t, Closes t → position (s ++ t) = found.map (followed t) := by
  refine ⟨if !(s.takeWhile Decimal.isDigit).isEmpty &&
      (skipGap (s.dropWhile Decimal.isDigit)).head?.getD ']' == ']' then
    some (String.ofList (s.takeWhile Decimal.isDigit), s.dropWhile Decimal.isDigit) else none, ?_⟩
  intro t ht
  have hdigit := (breaks_of_stops (stops_of_closes ht)).1.1.not_digit
  simp only [position]
  rw [takeWhile_append_of_head hdigit, dropWhile_append_of_head hdigit, closes_append ht]
  rw [Option.some_beq_some]
  generalize (!(s.takeWhile Decimal.isDigit).isEmpty &&
    (skipGap (s.dropWhile Decimal.isDigit)).head?.getD ']' == ']') = fills
  cases fills <;> rfl

section Names

variable {w v v' : List Char}

theorem qualifiedName_local (hv : EndsName v) (hv' : EndsName v') {name : String}
    (h : qualifiedName (w ++ v) = some (name, v)) : qualifiedName (w ++ v') = some (name, v') := by
  rw [qualifiedName_append hv] at h
  rw [qualifiedName_append hv', eq_some_of_map_followed h]
  rfl

theorem nameTest_local (hv : EndsName v) (hv' : EndsName v') {test : NameTest}
    (h : nameTest (w ++ v) = some (test, v)) : nameTest (w ++ v') = some (test, v') := by
  rw [nameTest_append hv] at h
  rw [nameTest_append hv', eq_some_of_map_followed h]
  rfl

theorem separator_local {d : Bool} {a : List Char} (ha : a ≠ [])
    (h : separator (w ++ (a ++ v)) = some (d, a ++ v)) :
    separator (w ++ (a ++ v')) = some (d, a ++ v') := by
  rcases separator_eq_some.mp h with ⟨rfl, hcs⟩ | ⟨rfl, hcs, hhead⟩
  · have hcs : w ++ (a ++ v) = ['/', '/'] ++ (a ++ v) := hcs
    obtain rfl := List.append_cancel_right hcs
    rfl
  · have hcs : w ++ (a ++ v) = ['/'] ++ (a ++ v) := hcs
    obtain rfl := List.append_cancel_right hcs
    apply separator_eq_some.mpr
    rw [List.head?_append_of_ne_nil _ ha] at hhead
    exact .inr ⟨rfl, rfl, by rwa [List.head?_append_of_ne_nil _ ha]⟩

theorem comparison_local {op : Comparison} {a : List Char} (ha : a ≠ [])
    (h : comparison (w ++ (a ++ v)) = some (op, a ++ v)) :
    comparison (w ++ (a ++ v')) = some (op, a ++ v') := by
  obtain ⟨hcs, hhead⟩ := comparison_eq_some.mp h
  obtain rfl : w = op.symbol.toList := List.append_cancel_right hcs
  rw [List.head?_append_of_ne_nil _ ha] at hhead
  exact comparison_eq_some.mpr ⟨rfl, by rwa [List.head?_append_of_ne_nil _ ha]⟩

theorem quoted_local {x : Operand} (h : quoted (w ++ v) = some (x, v)) :
    quoted (w ++ v') = some (x, v') := by
  obtain ⟨q, content, hq, hmem, hcs, rfl⟩ := quoted_eq_some.mp h
  obtain rfl := List.append_cancel_right hcs
  exact quoted_eq_some.mpr ⟨q, content, hq, hmem, rfl, rfl⟩

end Names

/-- What one reader takes up to a closing bracket, the other takes before any closing bracket, if it
is shorter than `n`. -/
def Local (n : Nat) (c c' : Parser Condition) : Prop :=
  ∀ ⦃s x u u'⦄, s.length < n → Closes u → Closes u' → c (s ++ u) = some (x, u) →
    c' (s ++ u') = some (x, u')

section Segments

variable {n : Nat} {c c' : Parser Condition} {w v v' : List Char}
variable (hc : Consumes c) (hc' : Consumes c') (hlocal : Local n c c')

theorem closes_of_skipGap {t : List Char} (h : skipGap t = ']' :: v) : Closes t := by
  rw [Closes, h]
  rfl

/-- Before a text `t`, the piece `k` is read as what stands in these brackets. -/
def Fills (c : Parser Condition) (b : Bracket) (k t : List Char) : Prop :=
  (∃ digits, position (k ++ t) = some (digits, t) ∧ b = .position digits) ∨
    (position (k ++ t) = none ∧ ∃ written, c (k ++ t) = some (written, t) ∧ b = .condition written)

include hc in
/-- Between the brackets stands a piece `k`, with blanks `g` and `g'` around it. -/
theorem bracket_content {b : Bracket} (h : bracket c (w ++ v) = some (b, v)) :
    ∃ g k g', w = '[' :: (g ++ k ++ g' ++ [']']) ∧ (∀ x ∈ g, isGap x = true) ∧
      (∀ x ∈ g', isGap x = true) ∧ k ≠ [] ∧ (∀ x ∈ k.head?, isGap x = false) ∧
      Fills c b k (g' ++ ']' :: v) := by
  have hne : w ≠ [] := (bracket_consumes hc h).ne_nil_of_append
  obtain ⟨inner, mid, hcs, hmid, h⟩ := bracket_eq_some.mp h
  cases w with
  | nil => exact absurd rfl hne
  | cons x s =>
    obtain ⟨rfl, hinner⟩ := List.cons.inj hcs
    obtain rfl : inner = s ++ v := hinner.symm
    obtain ⟨g', rfl⟩ : ']' :: v <:+ mid := hmid ▸ skipGap_suffix mid
    obtain ⟨k, hne, hk⟩ : ∃ k, k ≠ [] ∧ skipGap (s ++ v) = k ++ (g' ++ ']' :: v) := by
      rcases h with ⟨digits, hpos, -⟩ | ⟨-, written, hwritten, -⟩
      · obtain ⟨-, hrest, hne, -⟩ := position_eq_some hpos
        refine ⟨_, ?_, by rw [hrest, List.takeWhile_append_dropWhile]⟩
        intro hnil
        rw [hnil] at hne
        cases hne
      · exact (hc hwritten).exists_taken
    have hsplit := List.takeWhile_append_dropWhile (p := isGap) (l := s ++ v)
    rw [show (s ++ v).dropWhile isGap = k ++ (g' ++ ']' :: v) from hk] at hsplit
    have hs : (s ++ v).takeWhile isGap ++ k ++ g' ++ [']'] ++ v = s ++ v := by
      simpa using hsplit
    refine ⟨_, k, g', by rw [← List.append_cancel_right hs], ?_, gap_of_skipGap hmid, hne, ?_, ?_⟩
    · exact fun x hx => List.mem_takeWhile_imp hx
    · intro x hx
      obtain ⟨k, rfl⟩ := List.head?_eq_some_iff.mp hx
      exact isGap_of_skipGap hk
    · rwa [hk] at h

theorem bracket_spaced {b : Bracket} {g k g' : List Char} (hg : ∀ x ∈ g, isGap x = true)
    (hg' : ∀ x ∈ g', isGap x = true) (hne : k ≠ []) (hhead : ∀ x ∈ k.head?, isGap x = false)
    (h : Fills c b k (g' ++ ']' :: v)) :
    bracket c ('[' :: (g ++ k ++ g' ++ [']']) ++ v) = some (b, v) := by
  have hcs : '[' :: (g ++ k ++ g' ++ [']']) ++ v = '[' :: (g ++ (k ++ (g' ++ ']' :: v))) := by simp
  refine bracket_eq_some.mpr ⟨_, g' ++ ']' :: v, hcs, ?_, ?_⟩
  · rw [skipGap_append_of_gap hg']
    rfl
  · rwa [skipGap_append_of_gap hg, skipGap_of_head hne hhead]

theorem Fills.local (hlocal : Local n c c') {b : Bracket} {k t t' : List Char}
    (h : Fills c b k t) (hk : k.length < n) (ht : Closes t) (ht' : Closes t') :
    Fills c' b k t' := by
  obtain ⟨found, hfound⟩ := exists_position k
  rw [Fills, hfound t ht] at h
  rw [Fills, hfound t' ht']
  rcases h with ⟨digits, hpos, rfl⟩ | ⟨hpos, written, hwritten, rfl⟩
  · rw [eq_some_of_map_followed hpos]
    exact .inl ⟨digits, rfl, rfl⟩
  · rw [Option.map_eq_none_iff.mp hpos]
    exact .inr ⟨rfl, written, hlocal hk ht ht' hwritten, rfl⟩

include hc hlocal in
theorem bracket_local {b : Bracket} (hw : w.length ≤ n) (h : bracket c (w ++ v) = some (b, v)) :
    bracket c' (w ++ v') = some (b, v') := by
  obtain ⟨g, k, g', rfl, hg, hg', hne, hhead, hk⟩ := bracket_content hc h
  apply bracket_spaced hg hg' hne hhead
  apply hk.local hlocal
  · simp only [List.length_cons, List.length_append] at hw
    omega
  · exact closes_append_of_gap hg' rfl
  · exact closes_append_of_gap hg' rfl

theorem endsName_of_brackets {fuel : Nat} {bs : List Bracket}
    (h : repeated (bracket c) fuel (w ++ v) = (bs, v)) (hv : EndsName v') : EndsName (w ++ v') := by
  rcases repeated_next h with rfl | hnext
  · exact hv
  · obtain ⟨⟨b, rest⟩, hb⟩ := Option.isSome_iff_exists.mp hnext
    cases w with
    | nil => exact hv
    | cons x w =>
      obtain ⟨inner, mid, hcs, -⟩ := bracket_eq_some.mp hb
      obtain ⟨rfl, -⟩ := List.cons.inj hcs
      exact endsName_cons (by decide) (by decide) _

include hc hc' hlocal

theorem brackets_local {bs : List Bracket} (hw : w.length ≤ n) (hv' : v'.head? ≠ some '[')
    (h : brackets c (w ++ v) = (bs, v)) : brackets c' (w ++ v') = (bs, v') := by
  have hstep : ∀ s k b, s ++ k <:+ w → bracket c (s ++ (k ++ v)) = some (b, k ++ v) →
      k = [] ∨ (bracket c (k ++ v)).isSome →
      bracket c' (s ++ (k ++ v')) = some (b, k ++ v') := by
    intro s k b hsuffix hread _
    have hlen := hsuffix.length_le
    rw [List.length_append] at hlen
    exact bracket_local hc hlocal (by omega) hread
  have hrun := repeated_local (bracket_consumes hc) (bracket_consumes hc') h hstep (Nat.le_refl _)
  rw [repeated_of_none (bracket_eq_none hv'), List.append_nil] at hrun
  exact hrun

theorem named_local {d : Bool} {seg : Segment} (hw : w.length ≤ n) (hv : Breaks v)
    (hv' : Breaks v') (h : segment.named c d (w ++ v) = some (seg, v)) :
    segment.named c' d (w ++ v') = some (seg, v') := by
  obtain ⟨test, after, htest, rfl, hafter⟩ := named_eq_some.mp h
  obtain ⟨b, rfl⟩ : v <:+ after := hafter ▸ repeated_suffix (bracket_consumes hc) _ _
  obtain ⟨t, ht⟩ := (nameTest_consumes htest).1
  obtain rfl : t ++ b = w := by simpa [← List.append_assoc] using ht
  have hrow : brackets c (b ++ v) = ((brackets c (b ++ v)).1, v) := Prod.ext rfl hafter.symm
  have hrow' := brackets_local hc hc' hlocal (by simp at hw; omega) hv'.2.2 hrow
  rw [List.append_assoc] at htest
  have htest' := nameTest_local (endsName_of_brackets hrow hv.1) (endsName_of_brackets hrow hv'.1)
    htest
  rw [List.append_assoc]
  exact named_eq_some.mpr ⟨test, b ++ v', htest', by rw [hrow'], by rw [hrow']⟩

theorem segment_local {d : Bool} {seg : Segment} (hw : w.length ≤ n) (hv : Breaks v)
    (hv' : Breaks v') (h : segment c d (w ++ v) = some (seg, v)) :
    segment c' d (w ++ v') = some (seg, v') := by
  have hne : w ≠ [] := (segment_consumes hc d h).ne_nil_of_append
  apply segment_eq_some.mpr
  rcases segment_eq_some.mp h with ⟨after, name, hcs, hname, rfl⟩ | ⟨hcs, -, rfl⟩ |
    ⟨hself, hhead, h⟩
  · cases w with
    | nil => exact absurd rfl hne
    | cons x w =>
      obtain ⟨rfl, hafter⟩ := List.cons.inj hcs
      obtain rfl : after = w ++ v := hafter.symm
      exact .inl ⟨w ++ v', name, rfl, qualifiedName_local hv.1 hv'.1 hname, rfl⟩
  · have hcs : w ++ v = ['.'] ++ v := hcs
    obtain rfl := List.append_cancel_right hcs
    exact .inr (.inl ⟨rfl, startsName_append hv'.1 [], rfl⟩)
  · refine .inr (.inr ⟨?_, ?_, named_local hc hc' hlocal hw hv hv' h⟩)
    · intro after hcs
      cases w with
      | nil => exact absurd rfl hne
      | cons x w =>
        obtain ⟨rfl, rfl⟩ := List.cons.inj hcs
        have hstarts := hself (w ++ v) rfl
        rw [startsName_append hv.1] at hstarts
        exact (startsName_append hv'.1 w).trans hstarts
    · rw [List.head?_append_of_ne_nil _ hne] at hhead ⊢
      exact hhead

theorem separated_local {seg : Segment} (hw : w.length ≤ n) (hv : Breaks v) (hv' : Breaks v')
    (h : separated c (w ++ v) = some (seg, v)) : separated c' (w ++ v') = some (seg, v') := by
  obtain ⟨d, after, hsep, hseg⟩ := separated_eq_some.mp h
  obtain ⟨a, ha, rfl⟩ := (segment_consumes hc d hseg).exists_taken
  obtain ⟨s, hs⟩ := (separator_consumes hsep).1
  obtain rfl : s ++ a = w := by simpa [← List.append_assoc] using hs
  rw [List.append_assoc] at hsep ⊢
  refine separated_eq_some.mpr ⟨d, a ++ v', separator_local ha hsep, ?_⟩
  exact segment_local hc hc' hlocal (by simp at hw; omega) hv hv' hseg

omit hc hc' hlocal in
theorem separated_head {cs : List Char} (h : (separated c cs).isSome) : cs.head? = some '/' := by
  obtain ⟨⟨seg, rest⟩, h⟩ := Option.isSome_iff_exists.mp h
  obtain ⟨d, after, hsep, -⟩ := separated_eq_some.mp h
  rcases separator_eq_some.mp hsep with ⟨-, rfl⟩ | ⟨-, rfl, -⟩ <;> rfl

omit hc hc' hlocal in
theorem separated_eq_none {cs : List Char} (h : cs.head? ≠ some '/') : separated c cs = none := by
  rw [← Option.not_isSome_iff_eq_none]
  exact fun hread => h (separated_head hread)

omit hc hc' hlocal in
theorem breaks_of_separated (h : w = [] ∨ (separated c (w ++ v)).isSome) (hv' : Breaks v') :
    Breaks (w ++ v') := by
  rcases h with rfl | h
  · exact hv'
  · cases w with
    | nil => exact hv'
    | cons x w =>
      obtain rfl : x = '/' := by simpa using separated_head h
      exact breaks_cons (by decide) (by decide) _

theorem repeated_separated_local {fuel more : Nat} {segs : List Segment} (hw : w.length ≤ n)
    (hv : Breaks v) (hv' : Breaks v') (h : repeated (separated c) fuel (w ++ v) = (segs, v))
    (hmore : (w ++ v').length ≤ more) :
    repeated (separated c') more (w ++ v') =
      (segs ++ (repeated (separated c') more v').1, (repeated (separated c') more v').2) := by
  apply repeated_local (separated_consumes hc) (separated_consumes hc') h ?_ hmore
  intro s k seg hsuffix hread hnext
  have hlen := hsuffix.length_le
  rw [List.length_append] at hlen
  exact separated_local hc hc' hlocal (by omega) (breaks_of_separated hnext hv)
    (breaks_of_separated hnext hv') hread

theorem segments_local {segs : List Segment} (hw : w.length ≤ n) (hv : Breaks v)
    (hv' : Breaks v') (hslash : v'.head? ≠ some '/') (h : segments c (w ++ v) = some (segs, v)) :
    segments c' (w ++ v') = some (segs, v') := by
  obtain ⟨first, after, hfirst, rfl, hafter⟩ := segments_eq_some.mp h
  obtain ⟨a, rfl⟩ : v <:+ after := hafter ▸ repeated_suffix (separated_consumes hc) _ _
  obtain ⟨s, hs⟩ := (segment_consumes hc false hfirst).1
  obtain rfl : s ++ a = w := by simpa [← List.append_assoc] using hs
  rw [List.length_append] at hw
  have hrow : repeated (separated c) (a ++ v).length (a ++ v) =
      ((repeated (separated c) (a ++ v).length (a ++ v)).1, v) := Prod.ext rfl hafter.symm
  have hrow' := repeated_separated_local hc hc' hlocal (by omega) hv hv' hrow (Nat.le_refl _)
  rw [repeated_of_none (separated_eq_none hslash), List.append_nil] at hrow'
  have hnext := repeated_next hrow
  rw [List.append_assoc] at hfirst ⊢
  refine segments_eq_some.mpr ⟨first, a ++ v', ?_, by rw [hrow'], by rw [hrow']⟩
  exact segment_local hc hc' hlocal (by omega) (breaks_of_separated hnext hv)
    (breaks_of_separated hnext hv') hfirst

theorem path_local {x : Operand} (hw : w.length ≤ n) (hv : Breaks v) (hv' : Breaks v')
    (hslash : v'.head? ≠ some '/') (h : path c (w ++ v) = some (x, v)) :
    path c' (w ++ v') = some (x, v') := by
  obtain ⟨segs, hsegs, rfl⟩ := path_eq_some.mp h
  have hsegs' := segments_local hc hc' hlocal hw hv hv' hslash hsegs
  exact path_eq_some.mpr ⟨segs, hsegs', by rw [taken_append, taken_append]⟩

end Segments

section Operands

variable {w v v' : List Char}

/-- The kinds of operands that are tried before a bare text. -/
def marked (condition : Parser Condition) : Parser Operand := fun cs =>
  (ending quoted cs).or ((ending number cs).or (ending (path condition) cs))

theorem operand_eq_some_iff {c : Parser Condition} {cs rest : List Char} {x : Operand} :
    operand c cs = some (x, rest) ↔
      marked c cs = some (x, rest) ∨ marked c cs = none ∧ bare cs = some (x, rest) := by
  rw [← Option.or_eq_some_iff]
  simp only [operand, marked, Option.or_assoc]

theorem marked_quote {c : Parser Condition} {q : Char} (hq : q = '"' ∨ q = '\'')
    (inner : List Char) : marked c (q :: inner) = ending quoted (q :: inner) := by
  have hnumber : number (q :: inner) = none := by
    rcases hq with rfl | rfl <;> rfl
  have hpath : path c (q :: inner) = none := by
    rcases hq with rfl | rfl <;> rfl
  simp [marked, ending, hnumber, hpath]

theorem quoted_eq_none {q : Char} (hq : ¬ (q = '"' ∨ q = '\'')) (rest : List Char) :
    quoted (q :: rest) = none := by
  simp [quoted, hq]

theorem marked_of_not_quote {c : Parser Condition} {q : Char} (hq : ¬ (q = '"' ∨ q = '\''))
    (inner v : List Char) :
    marked c (q :: inner ++ v) =
      (ending number (q :: inner ++ v)).or (ending (path c) (q :: inner ++ v)) := by
  have hquoted : ending quoted (q :: inner ++ v) = none := by
    rw [ending, List.cons_append, quoted_eq_none hq]
    rfl
  simp only [marked, hquoted, Option.none_or]

theorem operand_quote {c : Parser Condition} {q : Char} (hq : q = '"' ∨ q = '\'')
    (inner : List Char) : operand c (q :: inner) = ending quoted (q :: inner) := by
  have hbare : bare (q :: inner) = none := by
    rcases hq with rfl | rfl <;> simp [bare, bareRun]
  simp only [operand, ← Option.or_assoc, hbare, Option.or_none]
  rw [Option.or_assoc]
  exact marked_quote hq inner

theorem bareRun_split {cs a b rest : List Char} {y : Char}
    (h : bareRun cs = (a ++ y :: b, rest)) :
    stops (y :: (b ++ rest)) = false ∧ y ∉ ['[', '"', '\''] := by
  induction cs generalizing a with
  | nil => simp [bareRun] at h
  | cons x cs ih =>
    rw [bareRun] at h
    split at h
    · simp at h
    · next hx =>
      obtain ⟨hrun, hrest⟩ := Prod.mk.inj h
      cases a with
      | nil =>
        obtain ⟨rfl, htail⟩ := List.cons.inj hrun
        have hcs := bareRun_append cs
        rw [htail, hrest] at hcs
        rw [hcs]
        simpa [not_or, and_assoc] using hx
      | cons x' a => exact ih (Prod.ext (List.cons.inj hrun).2 hrest)

theorem not_mem_of_bareRun {cs run rest : List Char} (h : bareRun cs = (run, rest)) :
    ∀ y ∈ run, y ∉ ['[', '"', '\''] := by
  intro y hy
  obtain ⟨a, b, rfl⟩ := List.append_of_mem hy
  exact (bareRun_split h).2

theorem skipGap_ne_nil_of_stops (h : stops v = true) : skipGap v ≠ [] := by
  intro hnil
  simp [stops, hnil, comparison] at h

theorem endsOperand_append (hv : stops v = true) (k : List Char) :
    endsOperand (k ++ v) = stops (k ++ v) := by
  have hne : (skipGap (k ++ v)).isEmpty = false := by
    rw [skipGap_append]
    split
    · simpa using skipGap_ne_nil_of_stops hv
    · next hk => simpa using fun h => absurd h (by simpa using hk)
  rw [endsOperand, hne, Bool.or_false]

/-- Texts before which operands are read alike: the second one ends an operand, and none ends before
it that does not end before the first one. -/
structure EndsAlike (v v' : List Char) : Prop where
  breaks : Breaks v ∧ v.head? ≠ some '/'
  breaks' : Breaks v' ∧ v'.head? ≠ some '/'
  ends : endsOperand v' = true
  early : ∀ k, endsOperand (k ++ v) = false → endsOperand (k ++ v') = false

theorem endsOperand_of_stops (hv : stops v = true) : endsOperand v = true := by
  rw [endsOperand, hv]
  rfl

theorem endsAlike_of_stops (hv : stops v = true) (hv' : stops v' = true)
    (hhead : v'.head? = some '=' → v.head? = some '=') : EndsAlike v v' where
  breaks := breaks_of_stops hv
  breaks' := breaks_of_stops hv'
  ends := endsOperand_of_stops hv'
  early k h := by
    rw [endsOperand_append hv, Bool.eq_false_iff] at h
    rw [endsOperand_append hv', Bool.eq_false_iff]
    exact fun hstops => h (stops_local (fun _ => hv) hhead hstops)

theorem EndsAlike.ending (h : EndsAlike v v') {p : Parser Operand} {x : Operand}
    (hp : p (w ++ v') = some (x, v')) : ending p (w ++ v') = some (x, v') :=
  ending_eq_some.mpr ⟨hp, h.ends⟩

theorem EndsAlike.ending_eq_none (h : EndsAlike v v') {p p' : Parser Operand}
    {found : Option (Operand × List Char)} (hp : p (w ++ v) = found.map (followed v))
    (hp' : p' (w ++ v') = found.map (followed v')) (hnone : Surface.ending p (w ++ v) = none) :
    Surface.ending p' (w ++ v') = none := by
  rcases found with _ | ⟨x, k⟩
  · simp [Surface.ending, hp']
  · have hends : endsOperand (k ++ v) = false := by
      simpa [Surface.ending, hp, followed] using hnone
    simp [Surface.ending, hp', followed, h.early k hends]

theorem bareRun_local (hv : stops v = true) (hv' : stops v' = true)
    (hhead : v'.head? = some '=' → v.head? = some '=') (h : bareRun (w ++ v) = (w, v)) :
    bareRun (w ++ v') = (w, v') := by
  induction w with
  | nil =>
    cases v' with
    | nil => cases hv'
    | cons x v' => simp [bareRun, hv']
  | cons x w ih =>
    rw [List.cons_append, bareRun] at h ⊢
    split at h
    · cases h
    · next hx =>
      obtain ⟨hrun, hrest⟩ := Prod.mk.inj h
      have htail := ih (Prod.ext (List.cons.inj hrun).2 hrest)
      simp only [Bool.or_eq_true, not_or, Bool.not_eq_true] at hx
      have hstops : stops (x :: w ++ v') ≠ true := fun hstops =>
        absurd (stops_local (fun _ => hv) hhead hstops) (by simp [hx])
      rw [if_neg (by simpa [hx] using hstops), htail]

end Operands

section Conditions

variable {n : Nat} {c c' : Parser Condition} {w v v' : List Char}

variable (hc : Consumes c) (hc' : Consumes c') (hlocal : Local n c c')
include hc hc'

theorem marked_eq_none_local (hne : w ≠ []) (hw : ∀ y ∈ w, y ∉ ['[', '"', '\''])
    (h : EndsAlike v v') (hnone : marked c (w ++ v) = none) : marked c' (w ++ v') = none := by
  obtain ⟨hbreaks, hslash⟩ := h.breaks
  obtain ⟨hbreaks', hslash'⟩ := h.breaks'
  have hbracketless : '[' ∉ w := fun hmem => hw '[' hmem List.mem_cons_self
  obtain ⟨q, inner, rfl⟩ := List.exists_cons_of_ne_nil hne
  have hq : ¬ (q = '"' ∨ q = '\'') := by
    have hmem := hw q List.mem_cons_self
    rw [List.mem_cons, not_or] at hmem
    simpa using hmem.2
  rw [marked_of_not_quote hq, Option.or_eq_none_iff] at hnone ⊢
  have hpath := path_append_of_bracketless hbreaks c c hc hc hslash hbracketless
  have hpath' := path_append_of_bracketless hbreaks' c' c hc' hc hslash' hbracketless
  exact ⟨h.ending_eq_none (number_append hbreaks.1 _) (number_append hbreaks'.1 _) hnone.1,
    h.ending_eq_none hpath hpath' hnone.2⟩

include hlocal

theorem marked_local {x : Operand} (hw : w.length ≤ n) (h : EndsAlike v v')
    (hread : marked c (w ++ v) = some (x, v)) : marked c' (w ++ v') = some (x, v') := by
  obtain ⟨hbreaks, -⟩ := h.breaks
  obtain ⟨hbreaks', hslash'⟩ := h.breaks'
  obtain ⟨q, inner, rfl⟩ : ∃ q inner, w = q :: inner :=
    List.exists_cons_of_ne_nil
      (operand_consumes hc (operand_eq_some_iff.mpr (.inl hread))).ne_nil_of_append
  -- The first character tells a quoted text. Of the other kinds numbers are tried first, so they
  -- have to fail before `v'` too where a path is read.
  by_cases hq : q = '"' ∨ q = '\''
  · rw [List.cons_append, marked_quote hq] at hread ⊢
    exact h.ending (quoted_local (w := q :: inner) (ending_eq_some.mp hread).1)
  · rw [marked_of_not_quote hq, Option.or_eq_some_iff] at hread ⊢
    rcases hread with hread | ⟨hnone, hread⟩
    · have hread := (ending_eq_some.mp hread).1
      rw [number_append hbreaks.1] at hread
      refine .inl (h.ending ?_)
      rw [number_append hbreaks'.1, eq_some_of_map_followed hread]
      rfl
    · refine .inr ⟨?_, h.ending ?_⟩
      · exact h.ending_eq_none (number_append hbreaks.1 _) (number_append hbreaks'.1 _) hnone
      · exact path_local hc hc' hlocal hw hbreaks hbreaks' hslash' (ending_eq_some.mp hread).1

theorem operand_local {x : Operand} (hw : w.length ≤ n) (hv : stops v = true)
    (hv' : stops v' = true) (hhead : v'.head? = some '=' → v.head? = some '=')
    (h : operand c (w ++ v) = some (x, v)) : operand c' (w ++ v') = some (x, v') := by
  have halike := endsAlike_of_stops hv hv' hhead
  apply operand_eq_some_iff.mpr
  rcases operand_eq_some_iff.mp h with hread | ⟨hnone, hread⟩
  · exact .inl (marked_local hc hc' hlocal hw halike hread)
  · obtain ⟨hne, hrun, rfl⟩ := bare_append_eq_some.mp hread
    refine .inr ⟨marked_eq_none_local hc hc' hne (not_mem_of_bareRun hrun) halike hnone, ?_⟩
    exact bare_append_eq_some.mpr ⟨hne, bareRun_local hv hv' hhead hrun, rfl⟩

omit hc' hlocal in
theorem comparand_content {x : Comparison × Operand}
    (h : comparand c (w ++ v) = some (x, v)) :
    ∃ o a r, a ≠ [] ∧ r ≠ [] ∧ r.length ≤ w.length ∧ skipGap (w ++ v) = (o ++ a) ++ v ∧
      o ++ a ≠ [] ∧ comparison (o ++ (a ++ v)) = some (x.1, a ++ v) ∧
      skipGap (a ++ v) = r ++ v ∧ operand c (r ++ v) = some (x.2, v) := by
  obtain ⟨mid, hop, hrhs⟩ := comparand_eq_some.mp h
  obtain ⟨r, hr, hmid⟩ := (operand_consumes hc hrhs).exists_taken
  obtain ⟨o, ho, hcs⟩ := (comparison_consumes hop).exists_taken
  obtain ⟨g, hg⟩ := skipGap_suffix mid
  obtain rfl : (g ++ r) ++ v = mid := by rw [List.append_assoc, ← hmid, hg]
  have hlen := (skipGap_suffix (w ++ v)).length_le
  rw [hcs] at hop hlen
  rw [hmid] at hrhs
  simp only [List.length_append] at hlen
  exact ⟨o, g ++ r, r, by simp [hr], hr, by omega, by simp [hcs], by simp [ho], hop, hmid,
    hrhs⟩

theorem comparand_local {x : Comparison × Operand} (hw : w.length ≤ n) (hv : Closes v)
    (hv' : Closes v') (h : comparand c (w ++ v) = some (x, v)) :
    comparand c' (w ++ v') = some (x, v') := by
  obtain ⟨o, a, r, ha, hr, hlen, hcs, hne, hop, hmid, hrhs⟩ := comparand_content hc h
  have hcs' : skipGap (w ++ v') = o ++ (a ++ v') := by
    rw [skipGap_local hcs hne, List.append_assoc]
  have hmid' : skipGap (a ++ v') = r ++ v' := skipGap_local hmid hr
  refine comparand_eq_some.mpr ⟨a ++ v', ?_, ?_⟩
  · rw [hcs']
    exact comparison_local ha hop
  · rw [hmid']
    apply operand_local hc hc' hlocal (by omega) (stops_of_closes hv) (stops_of_closes hv') _ hrhs
    intro hhead
    exact absurd hhead hv'.head_ne_equal

end Conditions

/-- A condition that has been read at any depth is read at every depth above its length. -/
theorem condition_local (d n : Nat) : Local n (condition d) (condition n) := by
  -- What stands in the brackets of a condition has been read at a smaller depth, and is shorter.
  induction d generalizing n with
  | zero => nofun
  | succ d ih =>
    intro s x u u' hs hu hu' h
    obtain ⟨m, rfl⟩ : ∃ m, n = m + 1 := ⟨n - 1, by omega⟩
    have hc := condition_consumes d
    have hc' := condition_consumes m
    have hlocal := ih m
    obtain ⟨lhs, mid, hlhs, h⟩ := condition_succ_eq_some.mp h
    apply condition_succ_eq_some.mpr
    rcases h with ⟨op, rhs, hcmp, rfl⟩ | ⟨-, rfl, rfl⟩
    · obtain ⟨k, hk, rfl⟩ := (comparand_consumes hc hcmp).exists_taken
      obtain ⟨w, hw⟩ := (operand_consumes hc hlhs).1
      obtain rfl : w ++ k = s := by simpa [← List.append_assoc] using hw
      rw [List.length_append] at hs
      have hcmp' := comparand_local hc hc' hlocal (by omega) hu hu' hcmp
      refine ⟨lhs, k ++ u', ?_, .inl ⟨op, rhs, hcmp', by rw [taken_append, taken_append]⟩⟩
      rw [List.append_assoc] at hlhs ⊢
      apply operand_local hc hc' hlocal (by omega) (stops_of_comparand hcmp)
        (stops_of_comparand hcmp') _ hlhs
      rw [List.head?_append_of_ne_nil _ hk, List.head?_append_of_ne_nil _ hk]
      exact id
    · refine ⟨lhs, u', ?_, .inr ⟨?_, rfl, by rw [taken_append, taken_append]⟩⟩
      · apply operand_local hc hc' hlocal (by omega) (stops_of_closes hu) (stops_of_closes hu') _
          hlhs
        intro hhead
        exact absurd hhead hu'.head_ne_equal
      · simp [comparand, hu'.comparison_eq_none]

end MarkupTree.Path.Surface

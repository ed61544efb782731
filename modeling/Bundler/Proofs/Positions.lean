/-
Lines and columns, and the places that they name.

A place of a text is an offset between two of its characters or at one of its ends. Its name is the line
and the column, and both are counted in what stands before it: the line breaks there, and the characters
behind the last of them (`Text.Located`).

One more character before a place always makes for a later name, the line first and the column second:
behind a line break comes a new line, and behind any other character the next column of the same line
(`Span.positionAfter_append_singleton`). So of two places the later one has the later name, however much text
is between them (`Span.position_lt`), and two places never share a name. A span has the names of both its
ends, and they tell as much about it as its offsets do (`Span.ofOffsets_names`).

Lines and columns are numbers of 32 bits. The counts fit where the text has fewer lines and columns than
that (`Text.Moderate`).
-/
import Bundler.Proofs.LineBreaks
import Bundler.Proofs.Recording
import Mathlib.Data.List.Induction
import Mathlib.Data.Prod.Lex

set_option autoImplicit false

namespace Bundler

open Text Step

/-! ## Places -/

namespace Text

/-- An offset between two characters of a text, or at one of its ends. -/
def IsPlace (text : List Char) (pos : Nat) : Prop := ∃ rest, Stands text pos rest

/-- An offset is in a line and a column, both counted from one. The earlier lines end in a line break, and
what is before the offset in its own line has none. -/
def Located (text : List Char) (pos line column : Nat) : Prop :=
  ∃ earlier here rest, text = earlier ++ here ++ rest ∧ pos = size (earlier ++ here) ∧
    (earlier = [] ∨ ∃ lines, earlier = lines ++ ['\n']) ∧ '\n' ∉ here ∧
    line = 1 + (earlier ++ here).count '\n' ∧ column = 1 + here.length

/-- A text with fewer lines and columns than there are numbers of 32 bits. A text of `n` line breaks has `n + 1`
lines, and a line of `n` characters has `n + 1` columns, since there is a place behind its last character. -/
structure Moderate (text : List Char) : Prop where
  lines : lineBreaks text + 1 < Span.bound
  columns : ∀ line, line <:+: text → '\n' ∉ line → line.length + 1 < Span.bound

end Text

namespace Span

variable {text part : List Char} {p q : Nat} {a b : Nat × Nat}

/-! ## Going on by one character -/

/-- A character more makes for a later name. -/
theorem positionAfter_lt_append_singleton (before : List Char) (c : Char) :
    toLex (positionAfter before) < toLex (positionAfter (before ++ [c])) := by
  rw [positionAfter_append_singleton, Prod.Lex.toLex_lt_toLex]
  by_cases hc : c = '\n'
  · rw [if_pos hc]
    left
    exact Nat.lt_succ_self _
  · rw [if_neg hc]
    right
    exact ⟨rfl, Nat.lt_succ_self _⟩

/-- And so do several. -/
theorem positionAfter_lt (before : List Char) (hpart : part ≠ []) :
    toLex (positionAfter before) < toLex (positionAfter (before ++ part)) := by
  induction part using List.reverseRecOn with
  | nil => exact absurd rfl hpart
  | append_singleton part c ih =>
    have hlast := positionAfter_lt_append_singleton (before ++ part) c
    rw [← List.append_assoc]
    by_cases hempty : part = []
    · rw [hempty, List.append_nil] at hlast ⊢
      exact hlast
    · exact lt_trans (ih hempty) hlast

/-! ## Two places -/

/-- Of two places the later one has the later name. -/
theorem position_lt (hp : IsPlace text p) (hq : IsPlace text q) (hlt : p < q)
    (ha : position text p = .ok a) (hb : position text q = .ok b) : toLex a < toLex b := by
  obtain ⟨rest, hrest⟩ := hp
  obtain ⟨rest', hrest'⟩ := hq
  obtain ⟨part, rfl, hpart⟩ := hrest.exists_part hrest' (Nat.le_of_lt hlt)
  -- what is between the places is not empty, because every character takes a byte or more
  have hne : part ≠ [] := by
    rintro rfl
    rw [size] at hpart
    omega
  obtain ⟨before, rfl, rfl⟩ := hrest
  rw [position_size] at ha
  rw [hpart, ← size_append, ← List.append_assoc, position_size] at hb
  cases ha
  cases hb
  exact positionAfter_lt before hne

/-- Two places do not share a name. -/
theorem eq_of_position_eq (hp : IsPlace text p) (hq : IsPlace text q)
    (ha : position text p = .ok a) (hb : position text q = .ok a) : p = q := by
  rcases Nat.lt_trichotomy p q with hlt | heq | hgt
  · exact absurd (position_lt hp hq hlt ha hb) (lt_irrefl _)
  · exact heq
  · exact absurd (position_lt hq hp hgt hb ha) (lt_irrefl _)

/-! ## What is counted -/

/-- The text before a place is the earlier lines and the beginning of one more. -/
theorem exists_lastLine (before : List Char) : ∃ earlier, before = earlier ++ lastLine before ∧
    (earlier = [] ∨ ∃ lines, earlier = lines ++ ['\n']) ∧ '\n' ∉ lastLine before := by
  unfold lastLine
  cases hsplit : splitLast? (· == '\n') before with
  | none =>
    refine ⟨[], rfl, .inl rfl, ?_⟩
    intro hmem
    have hno := of_splitLast?_eq_none hsplit '\n' hmem
    exact absurd hno (by decide)
  | some s =>
    obtain ⟨lines, here⟩ := s
    obtain ⟨c, hc, hbefore, hhere⟩ := of_splitLast?_eq_some hsplit
    obtain rfl : c = '\n' := by simpa using hc
    refine ⟨lines ++ ['\n'], ?_, .inr ⟨lines, rfl⟩, ?_⟩
    · rw [hbefore, List.append_assoc]
      rfl
    · intro hmem
      have hno := hhere '\n' hmem
      exact absurd hno (by decide)

theorem located_of_position (hp : IsPlace text p) (ha : position text p = .ok a) :
    Located text p a.1 a.2 := by
  obtain ⟨rest, before, rfl, rfl⟩ := hp
  rw [position_size] at ha
  cases ha
  obtain ⟨earlier, hbefore, hearlier, hhere⟩ := exists_lastLine before
  refine ⟨earlier, lastLine before, rest, ?_, ?_, hearlier, hhere, ?_, Nat.add_comm _ _⟩
  · rw [← hbefore]
  · rw [← hbefore]
  · rw [← hbefore]
    exact Nat.add_comm _ _

/-- The counts fit into 32 bits. -/
theorem position_lt_bound (h : Moderate text) (hp : IsPlace text p) (ha : position text p = .ok a) :
    a.1 < bound ∧ a.2 < bound := by
  obtain ⟨rest, before, rfl, rfl⟩ := hp
  rw [position_size] at ha
  cases ha
  obtain ⟨earlier, hbefore, -, hhere⟩ := exists_lastLine before
  constructor
  · have hall := h.lines
    rw [lineBreaks_append] at hall
    unfold positionAfter
    omega
  · apply h.columns _ _ hhere
    refine ⟨earlier, rest, ?_⟩
    rw [← hbefore]

/-! ## Spans -/

/-- The names of the ends of a span tell where it is. -/
structure Named (text : List Char) (s : Span) : Prop where
  /-- The end is not before the start. -/
  ordered : toLex (s.line, s.column) ≤ toLex (s.endLine, s.endColumn)
  /-- The ends share a name just if they are one place. -/
  same : (s.line, s.column) = (s.endLine, s.endColumn) ↔ s.start = s.stop
  /-- The start is the only place with its name, whatever span another place is the start of. -/
  only : ∀ r r' t, IsPlace text r → ofOffsets text r r' = .ok t →
    t.line = s.line → t.column = s.column → r = s.start
  start : Located text s.start s.line s.column
  stop : Located text s.stop s.endLine s.endColumn
  /-- Lines and columns fit into 32 bits, so nothing is lost by counting them in such numbers. -/
  small : ∀ n ∈ [s.line, s.column, s.endLine, s.endColumn], n < bound

/-- **Places and their names.** Between any two places of a text there is a span, and the lines and columns
of its ends are in the order of the places and tell them from all others. -/
theorem ofOffsets_names (htext : Moderate text) (hp : IsPlace text p) (hq : IsPlace text q)
    (hle : p ≤ q) :
    ∃ s, ofOffsets text p q = .ok s ∧ (s.start = p ∧ s.stop = q) ∧ s.Named text := by
  obtain ⟨rest, hrest⟩ := hp
  obtain ⟨rest', hrest'⟩ := hq
  obtain ⟨s, hs, rfl, rfl⟩ := hrest.ofOffsets hrest'
  have hp : IsPlace text s.start := ⟨rest, hrest⟩
  have hq : IsPlace text s.stop := ⟨rest', hrest'⟩
  -- the span is now read as two places with their names, and no more is needed of it
  obtain ⟨-, ha, hb⟩ := ofOffsets_ok_iff.mp hs
  refine ⟨s, hs, ⟨rfl, rfl⟩, ?_⟩
  constructor
  case ordered =>
    rcases Nat.eq_or_lt_of_le hle with heq | hlt
    · rw [heq] at ha
      exact (congrArg toLex (Except.ok.inj (ha.symm.trans hb))).le
    · exact (position_lt hp hq hlt ha hb).le
  case same =>
    constructor
    · intro heq
      rw [heq] at ha
      exact eq_of_position_eq hp hq ha hb
    · intro heq
      rw [heq] at ha
      exact Except.ok.inj (ha.symm.trans hb)
  case only =>
    intro r r' t hr ht hline hcolumn
    obtain ⟨-, hat, -⟩ := ofOffsets_ok_iff.mp ht
    rw [hline, hcolumn] at hat
    exact eq_of_position_eq hr hp hat ha
  case start => exact located_of_position hp ha
  case stop => exact located_of_position hq hb
  case small =>
    obtain ⟨hline, hcolumn⟩ := position_lt_bound htext hp ha
    obtain ⟨hendLine, hendColumn⟩ := position_lt_bound htext hq hb
    intro n hn
    simp only [List.mem_cons, List.not_mem_nil, or_false] at hn
    rcases hn with rfl | rfl | rfl | rfl
    · exact hline
    · exact hcolumn
    · exact hendLine
    · exact hendColumn

/-- From the beginning of an empty line to behind a character of four bytes in the next one. -/
theorem ofOffsets_names_emptyLine :
    let text := "é\n\n😀x".toList
    (Moderate text ∧ IsPlace text 3 ∧ IsPlace text 8 ∧ 3 ≤ 8) ∧
      ∃ s : Span, ofOffsets text 3 8 = .ok s ∧ s = ⟨3, 8, 2, 1, 3, 2⟩ ∧ s.Named text := by
  intro text
  have htext : Moderate text := by
    constructor
    case lines => decide
    case columns =>
      intro line hline _
      have hlength : line.length ≤ 5 := hline.length_le
      have hbound : 6 < bound := by decide
      omega
  have hp : IsPlace text 3 := ⟨['\n', '😀', 'x'], ['é', '\n'], rfl, by decide⟩
  have hq : IsPlace text 8 := ⟨['x'], ['é', '\n', '\n', '😀'], rfl, by decide⟩
  obtain ⟨s, hs, -, hnamed⟩ := ofOffsets_names htext hp hq (by decide)
  have hwhole : ofOffsets text 3 8 = .ok ⟨3, 8, 2, 1, 3, 2⟩ := by decide +kernel
  exact ⟨⟨htext, hp, hq, by decide⟩, s, hs, Except.ok.inj (hs.symm.trans hwhole), hnamed⟩

end Span

end Bundler

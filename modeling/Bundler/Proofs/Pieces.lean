/-
The pieces of a script, and where its literals lie.

Two readers take a script apart. The one that looks for imports and calls notes where the literals and the
comments lie, as ranges of bytes (`Literals.scan`). The one that writes a bundle cuts the text into pieces
of code, literals and comments (`Piece.cut`). They were written apart from each other, one from character to
character and one from mark to mark, and they agree on every text (`Piece.cut_agrees`): the pieces make up
the text, and those that are not code are the ranges, one for one.

What cutting does is told by three rules (`Piece.Cuts`): for a literal or a comment, for a character of
code, and for the end of the text. What holds of the pieces of all texts is an induction over the rules.
-/
import Mathlib.Data.List.Chain
import Mathlib.Data.List.TakeDrop
import Bundler.Script.Pieces
import Bundler.Proofs.Placement

set_option autoImplicit false

namespace Bundler.Script

open Text

/-- A character leads from code to code if it opens no literal and makes no mark with what follows. -/
theorem Situation.next_code_iff {c : Char} {ahead : Option Char} :
    Situation.code.next c ahead = .code ↔ isQuote c = false ∧ (c = '/' → IsMute ahead) := by
  unfold Situation.next IsMute
  constructor
  · intro h
    simp only at h
    split at h
    · cases h
    split at h
    · cases h
    split at h
    · cases h
    · rename_i hline hblock hquote
      refine ⟨Bool.not_eq_true _ ▸ hquote, ?_⟩
      rintro rfl
      exact ⟨fun heq => hline (by simp [heq]), fun heq => hblock (by simp [heq])⟩
  · rintro ⟨hquote, hmute⟩
    simp only
    rw [if_neg, if_neg, if_neg (by simp [hquote])]
    · rintro hmark
      rw [Bool.and_eq_true, beq_iff_eq, beq_iff_eq] at hmark
      exact (hmute hmark.1).2 hmark.2
    · rintro hmark
      rw [Bool.and_eq_true, beq_iff_eq, beq_iff_eq] at hmark
      exact (hmute hmark.1).1 hmark.2

theorem eq_of_isQuote {c : Char} (h : isQuote c = true) : c = '"' ∨ c = '\'' ∨ c = backquote := by
  simpa [isQuote, or_assoc] using h

namespace Piece

variable {p : Piece} {quote c : Char} {code cs rest : List Char} {ps : List Piece} {pos : Nat}

/-! ## One literal or comment -/

/-- A character that ends a literal, if no backslash stands before it: the quote, or the line break that
cuts it off. -/
def ends (quote c : Char) : Bool := c == quote || (c == '\n' && quote != backquote)

theorem takeLiteral_escaped (quote c : Char) (cs : List Char) : takeLiteral quote true (c :: cs)
    = (c :: (takeLiteral quote false cs).1, (takeLiteral quote false cs).2) := rfl

theorem takeLiteral_end (h : ends quote c = true) (cs : List Char) :
    takeLiteral quote false (c :: cs) = ([c], cs) := if_pos h

theorem takeLiteral_cons (h : ends quote c = false) (cs : List Char) : takeLiteral quote false (c :: cs)
    = (c :: (takeLiteral quote (c == '\\') cs).1, (takeLiteral quote (c == '\\') cs).2) :=
  if_neg (by rw [Bool.not_false, Bool.true_and]; exact ne_true_of_eq_false h)

theorem takeLiteral_append (quote : Char) : ∀ (escaped : Bool) (cs : List Char),
    (takeLiteral quote escaped cs).1 ++ (takeLiteral quote escaped cs).2 = cs
  | _, [] => rfl
  | true, c :: cs => congrArg (c :: ·) (takeLiteral_append quote false cs)
  | false, c :: cs => by
    cases hend : ends quote c with
    | true => rw [takeLiteral_end hend]; rfl
    | false =>
      rw [takeLiteral_cons hend]
      exact congrArg (c :: ·) (takeLiteral_append quote _ cs)

/-- A comment goes on where its mark does not follow. -/
theorem takeComment_cons (h : ¬(c = '*' ∧ cs.head? = some '/')) :
    takeComment (c :: cs) = (c :: (takeComment cs).1, (takeComment cs).2) := by
  have hprefix : ¬['*', '/'].isPrefixOf (c :: cs) = true := by
    intro hmark
    obtain ⟨tail, htail⟩ := List.isPrefixOf_iff_prefix.mp hmark
    obtain ⟨rfl, rfl⟩ := List.cons.inj htail
    exact h ⟨rfl, rfl⟩
  have hstep : splitOnce? ['*', '/'] (c :: cs)
      = (splitOnce? ['*', '/'] cs).map fun parts => (c :: parts.1, parts.2) := if_neg hprefix
  unfold takeComment
  rw [hstep]
  cases splitOnce? ['*', '/'] cs <;> rfl

theorem takeComment_append (cs : List Char) : (takeComment cs).1 ++ (takeComment cs).2 = cs := by
  unfold takeComment
  cases hsplit : splitOnce? ['*', '/'] cs with
  | none => exact List.append_nil cs
  | some parts => rw [of_splitOnce?_eq_some (List.cons_ne_nil _ _) hsplit, List.append_assoc]

/-- What a text can start with: a comment of either kind, a quoted literal, or code. -/
inductive Starts : List Char → Option (Piece × List Char) → Prop where
  | line (inside : List Char) : Starts ('/' :: '/' :: inside)
      (some (⟨.comment, '/' :: '/' :: inside.takeWhile (· != '\n')⟩, inside.dropWhile (· != '\n')))
  | block (inside : List Char) : Starts ('/' :: '*' :: inside)
      (some (⟨.comment, '/' :: '*' :: (takeComment inside).1⟩, (takeComment inside).2))
  | literal {quote : Char} (hquote : isQuote quote = true) (inside : List Char) :
    Starts (quote :: inside)
      (some (⟨.literal, quote :: (takeLiteral quote false inside).1⟩, (takeLiteral quote false inside).2))
  | code {c : Char} {cs : List Char} (h : Situation.code.next c cs.head? = .code) : Starts (c :: cs) none
  | nothing : Starts [] none

theorem starts_special? (cs : List Char) : Starts cs (special? cs) := by
  unfold special?
  split
  · rw [List.span_eq_takeWhile_dropWhile]
    exact .line _
  · exact .block _
  · rename_i c cs hline hblock
    split
    · exact .literal ‹_› _
    · rename_i hquote
      -- a slash is code unless one of the first two cases has taken it
      refine .code (Situation.next_code_iff.mpr ⟨Bool.not_eq_true _ ▸ hquote, ?_⟩)
      rintro rfl
      refine ⟨fun hslash => ?_, fun hstar => ?_⟩
      · obtain ⟨behind, rfl⟩ := List.head?_eq_some_iff.mp hslash
        exact hline behind rfl rfl
      · obtain ⟨behind, rfl⟩ := List.head?_eq_some_iff.mp hstar
        exact hblock behind rfl rfl
  · exact .nothing

/-- A literal or comment is a part of the text it is found in. -/
theorem special?_append (h : special? cs = some (p, rest)) :
    cs = p.text ++ rest ∧ p.text ≠ [] ∧ p.kind ≠ .code := by
  have hstarts := starts_special? cs
  rw [h] at hstarts
  cases hstarts with
  | line inside => exact ⟨by simp, List.cons_ne_nil _ _, PieceKind.noConfusion⟩
  | block inside => exact ⟨by simp [takeComment_append], List.cons_ne_nil _ _, PieceKind.noConfusion⟩
  | literal hquote inside =>
    exact ⟨by simp [takeLiteral_append], List.cons_ne_nil _ _, PieceKind.noConfusion⟩

/-- Neither a literal nor a comment starts with a character that leads from code to code. -/
theorem special?_eq_none_iff : special? (c :: cs) = none ↔ Situation.code.next c cs.head? = .code := by
  have hstarts := starts_special? (c :: cs)
  generalize special? (c :: cs) = found at hstarts
  cases hstarts with
  | line => exact iff_of_false (Option.some_ne_none _) (show Situation.line ≠ .code by decide)
  | block => exact iff_of_false (Option.some_ne_none _) (show Situation.block 1 ≠ .code by decide)
  | literal hquote =>
    refine iff_of_false (Option.some_ne_none _) fun h => ?_
    rw [(Situation.next_code_iff.mp h).1] at hquote
    cases hquote
  | code h => exact iff_of_true rfl h

/-! ## What cutting does -/

/-- The pieces of a text behind code that was gathered newest first. -/
inductive Cuts : List Char → List Char → List Piece → Prop where
  | done (code : List Char) : Cuts code [] (ofCode code)
  | special {code cs rest : List Char} {p : Piece} {ps : List Piece} (h : special? cs = some (p, rest))
      (hrest : Cuts [] rest ps) : Cuts code cs (ofCode code ++ p :: ps)
  | char {code cs : List Char} {c : Char} {ps : List Piece} (h : special? (c :: cs) = none)
      (hrest : Cuts (c :: code) cs ps) : Cuts code (c :: cs) ps

/-- A step takes a character at least, so no more steps are taken than there are characters. -/
theorem cuts_cutFrom : ∀ {fuel : Nat} {cs : List Char}, cs.length ≤ fuel → ∀ code : List Char,
    Cuts code cs (cutFrom fuel code cs)
  | 0, cs, hfuel, code => by
    obtain rfl := List.eq_nil_of_length_eq_zero (Nat.le_zero.mp hfuel)
    exact .done code
  | fuel + 1, cs, hfuel, code => by
    unfold cutFrom
    split
    · rename_i p rest hfound
      obtain ⟨rfl, hne, -⟩ := special?_append hfound
      have hpos := List.length_pos_iff.mpr hne
      rw [List.length_append] at hfuel
      exact .special hfound (cuts_cutFrom (by omega) [])
    · rename_i hnone
      cases cs with
      | nil => exact .done code
      | cons c cs => exact .char hnone (cuts_cutFrom (Nat.le_of_succ_le_succ hfuel) (c :: code))

theorem cuts_cut (js : List Char) : Cuts [] js (cut js) := cuts_cutFrom (Nat.le_refl _) []

/-- The rules leave no choice. -/
theorem Cuts.eq {ps' : List Piece} (h : Cuts code cs ps) (h' : Cuts code cs ps') : ps = ps' := by
  induction h generalizing ps' with
  | done code =>
    cases h' with
    | done => rfl
    | special h => cases h
  | special hfound _ ih =>
    cases h' with
    | done => cases hfound
    | special hfound' hrest' =>
      rw [hfound] at hfound'
      cases hfound'
      rw [ih hrest']
    | char hnone => rw [hfound] at hnone; cases hnone
  | char hnone _ ih =>
    cases h' with
    | special hfound => rw [hnone] at hfound; cases hfound
    | char _ hrest' => exact ih hrest'

/-! ## The pieces make up the text -/

theorem flatMap_ofCode (code : List Char) : (ofCode code).flatMap text = code.reverse := by
  unfold ofCode
  split
  · rename_i hnil
    rw [List.isEmpty_iff.mp hnil]
    rfl
  · simp

theorem mem_ofCode (h : p ∈ ofCode code) : p = ⟨.code, code.reverse⟩ ∧ code ≠ [] := by
  unfold ofCode at h
  split at h
  · cases h
  · rename_i hne
    exact ⟨List.mem_singleton.mp h, fun heq => hne (List.isEmpty_iff.mpr heq)⟩

theorem Cuts.flatMap_text (h : Cuts code cs ps) : ps.flatMap text = code.reverse ++ cs := by
  induction h with
  | done code => rw [flatMap_ofCode, List.append_nil]
  | special hfound _ ih =>
    rw [List.flatMap_append, flatMap_ofCode, List.flatMap_cons, ih, (special?_append hfound).1]
    rfl
  | char _ _ ih => rw [ih, List.reverse_cons, List.append_assoc, List.singleton_append]

theorem Cuts.text_ne_nil (h : Cuts code cs ps) : ∀ p ∈ ps, p.text ≠ [] := by
  have hcode : ∀ {code : List Char}, ∀ p ∈ ofCode code, p.text ≠ [] := by
    intro code p hp
    obtain ⟨rfl, hne⟩ := mem_ofCode hp
    exact fun heq => hne (List.reverse_eq_nil_iff.mp heq)
  induction h with
  | done code => exact hcode
  | special hfound _ ih =>
    intro p hp
    rcases List.mem_append.mp hp with hp | hp
    · exact hcode p hp
    · rcases List.mem_cons.mp hp with rfl | hp
      · exact (special?_append hfound).2.1
      · exact ih p hp
  | char _ _ ih => exact ih

/-- Of two pieces, one at least is not code. -/
def Apart (p q : Piece) : Prop := p.kind ≠ .code ∨ q.kind ≠ .code

/-- Code is gathered as far as it goes. -/
theorem Cuts.isChain (h : Cuts code cs ps) : ps.IsChain Apart := by
  induction h with
  | done code =>
    unfold ofCode
    split
    · exact .nil
    · exact .singleton _
  | special hfound _ ih =>
    obtain ⟨-, -, hkind⟩ := special?_append hfound
    have hbehind : (_ :: _).IsChain Apart := List.isChain_cons.mpr ⟨fun _ _ => .inl hkind, ih⟩
    unfold ofCode
    split
    · exact hbehind
    · exact .cons_cons (.inr hkind) hbehind
  | char _ _ ih => exact ih

/-! ## The pieces and the ranges -/

/-- The ranges of the pieces that are not code, where the first piece starts at an offset. -/
def ranges : Nat → List Piece → List (Nat × Nat)
  | _, [] => []
  | pos, p :: ps =>
    let behind := pos + size p.text
    if p.kind = .code then ranges behind ps else (pos, behind) :: ranges behind ps

theorem ranges_append : ∀ (pos : Nat) (ps qs : List Piece),
    ranges pos (ps ++ qs) = ranges pos ps ++ ranges (pos + size (ps.flatMap text)) qs
  | _, [], _ => rfl
  | pos, p :: ps, qs => by
    rw [List.cons_append, ranges, ranges, ranges_append, List.flatMap_cons, size_append, Nat.add_assoc]
    split <;> rfl

theorem ranges_ofCode (pos : Nat) (code : List Char) : ranges pos (ofCode code) = [] := by
  unfold ofCode
  split <;> rfl

/-- A comment up to the end of the line. -/
theorem literalsFrom_line (start : Nat) : ∀ (pos : Nat) (cs : List Char),
    literalsFrom pos (.line start) cs = (start, pos + size (cs.takeWhile (· != '\n'))) ::
      literalsFrom (pos + size (cs.takeWhile (· != '\n'))) .code (cs.dropWhile (· != '\n'))
  | _, [] => rfl
  | pos, c :: cs => by
    by_cases hbreak : c = '\n'
    · rw [hbreak]
      rfl
    · have hother : (c != '\n') = true := by simp [hbreak]
      rw [List.takeWhile_cons_of_pos (p := (· != '\n')) hother,
        List.dropWhile_cons_of_pos (p := (· != '\n')) hother, size, ← Nat.add_assoc,
        ← literalsFrom_line start (pos + c.utf8Size) cs]
      simp [literalsFrom, hbreak]

/-- A comment between marks, behind the mark that opens it. -/
theorem literalsFrom_block (start : Nat) : ∀ (pos : Nat) (cs : List Char),
    literalsFrom pos (.block start 0) cs = (start, pos + size (takeComment cs).1) ::
      literalsFrom (pos + size (takeComment cs).1) .code (takeComment cs).2
  | _, [] => rfl
  | pos, c :: cs => by
    by_cases hmark : c = '*' ∧ cs.head? = some '/'
    · obtain ⟨rfl, hslash⟩ := hmark
      obtain ⟨behind, rfl⟩ := List.head?_eq_some_iff.mp hslash
      rfl
    · rw [takeComment_cons hmark, size, ← Nat.add_assoc, ← literalsFrom_block start (pos + c.utf8Size) cs]
      simp only [literalsFrom]
      rw [if_neg (by simpa using hmark)]

/-- A quoted literal, behind its opening quote. -/
theorem literalsFrom_literal (start : Nat) (quote : Char) : ∀ (escaped : Bool) (pos : Nat) (cs : List Char),
    literalsFrom pos (.quoted start quote escaped) cs
      = (start, pos + size (takeLiteral quote escaped cs).1) ::
        literalsFrom (pos + size (takeLiteral quote escaped cs).1) .code (takeLiteral quote escaped cs).2
  | _, _, [] => rfl
  | true, pos, c :: cs => by
    rw [takeLiteral_escaped, size, ← Nat.add_assoc]
    exact literalsFrom_literal start quote false (pos + c.utf8Size) cs
  | false, pos, c :: cs => by
    cases hend : ends quote c with
    | true =>
      rw [takeLiteral_end hend, literalsFrom]
      exact if_pos hend
    | false =>
      rw [takeLiteral_cons hend, size, ← Nat.add_assoc, literalsFrom]
      rw [← literalsFrom_literal start quote (c == '\\') (pos + c.utf8Size) cs]
      exact if_neg (ne_true_of_eq_false hend)

theorem size_slash (c : Char) (hc : c.utf8Size = 1) (cs : List Char) :
    size ('/' :: c :: cs) = 1 + 1 + size cs := by
  rw [size, size, hc, ← Nat.add_assoc]
  rfl

/-- What is a literal or a comment to one reader is one to the other. -/
theorem literalsFrom_special (pos : Nat) (h : special? cs = some (p, rest)) :
    literalsFrom pos .code cs = (pos, pos + size p.text) :: literalsFrom (pos + size p.text) .code rest := by
  have hstarts := starts_special? cs
  rw [h] at hstarts
  cases hstarts with
  | line inside =>
    rw [size_slash '/' rfl, ← Nat.add_assoc]
    exact literalsFrom_line pos (pos + (1 + 1)) inside
  | block inside =>
    rw [size_slash '*' rfl, ← Nat.add_assoc]
    exact literalsFrom_block pos (pos + (1 + 1)) inside
  | @literal quote hquote inside =>
    rw [size, ← Nat.add_assoc, ← literalsFrom_literal]
    rcases eq_of_isQuote hquote with rfl | rfl | rfl <;> rfl

/-- So is a character of code. -/
theorem literalsFrom_char (pos : Nat) (h : special? (c :: cs) = none) :
    literalsFrom pos .code (c :: cs) = literalsFrom (pos + c.utf8Size) .code cs := by
  rw [literalsFrom_cons, Mode.eq_code ((Mode.situation_next pos .code c cs.head?).trans
    (special?_eq_none_iff.mp h))]
  rfl

theorem Cuts.ranges_eq (h : Cuts code cs ps) : ∀ pos : Nat,
    ranges pos ps = literalsFrom (pos + size code.reverse) .code cs := by
  -- the offset runs ahead of the pieces by the code that is not yet a piece
  induction h with
  | done code =>
    intro pos
    rw [ranges_ofCode]
    rfl
  | special hfound _ ih =>
    intro pos
    rw [literalsFrom_special _ hfound, ranges_append, ranges_ofCode, flatMap_ofCode, ranges,
      if_neg (special?_append hfound).2.2, ih]
    rfl
  | char hnone _ ih =>
    intro pos
    rw [ih, literalsFrom_char _ hnone, List.reverse_cons, size_append, ← Nat.add_assoc]
    rfl

/-- Where a piece starts that others come before. -/
def offset (before : List Piece) : Nat := size (before.flatMap text)

theorem mem_ranges_iff {r : Nat × Nat} : ∀ {ps : List Piece} {pos : Nat}, r ∈ ranges pos ps ↔
    ∃ before p after, ps = before ++ p :: after ∧ p.kind ≠ .code ∧ r.1 = pos + offset before ∧
      r.2 = pos + offset before + size p.text
  | [], pos => by
    refine iff_of_false List.not_mem_nil ?_
    rintro ⟨before, p, after, heq, -⟩
    cases before <;> cases heq
  | q :: qs, pos => by
    have hfirst : r ∈ ranges pos (q :: qs) ↔
        (q.kind ≠ .code ∧ r = (pos, pos + size q.text)) ∨ r ∈ ranges (pos + size q.text) qs := by
      rw [ranges]
      split
      · simp [*]
      · simp [*]
    rw [hfirst, mem_ranges_iff]
    constructor
    · rintro (⟨hkind, rfl⟩ | ⟨before, p, after, rfl, hkind, hstart, hstop⟩)
      · exact ⟨[], q, qs, rfl, hkind, rfl, rfl⟩
      · refine ⟨q :: before, p, after, rfl, hkind, ?_, ?_⟩
        · rw [hstart, offset, offset, List.flatMap_cons, size_append, Nat.add_assoc]
        · rw [hstop, offset, offset, List.flatMap_cons, size_append]
          simp only [Nat.add_assoc]
    · rintro ⟨before, p, after, heq, hkind, hstart, hstop⟩
      cases before with
      | nil =>
        cases heq
        exact .inl ⟨hkind, Prod.ext hstart hstop⟩
      | cons q' before =>
        cases heq
        rw [offset, List.flatMap_cons, size_append, ← Nat.add_assoc] at hstart hstop
        exact .inr ⟨before, p, after, rfl, hkind, hstart, hstop⟩

/-- The bytes of a piece are cut out between two characters. -/
theorem slice?_cut {js : List Char} {before after : List Piece} (h : cut js = before ++ p :: after) :
    slice? js (offset before) (offset before + size p.text) = some p.text := by
  have hjs : js = before.flatMap text ++ (p.text ++ after.flatMap text) := by
    rw [← List.flatMap_cons, ← List.flatMap_append, ← h, (cuts_cut js).flatMap_text]
    rfl
  exact Stands.slice? ⟨before.flatMap text, hjs, rfl⟩

/-- **The two readers agree.** The pieces of a text are cut out between characters, make up the text, are
not empty, and no two pieces of code follow each other. The literals and comments among them are the ranges
of the text in order, and what is found around a place is the one that the place is in. -/
theorem cut_agrees (js : List Char) :
    (∀ before p after, cut js = before ++ p :: after →
      slice? js (offset before) (offset before + size p.text) = some p.text) ∧
    (cut js).flatMap text = js ∧ (∀ p ∈ cut js, p.text ≠ []) ∧ (cut js).IsChain Apart ∧
    ranges 0 (cut js) = (Literals.scan js).ranges ∧
    ∀ pos stop, (Literals.scan js).containing pos = some stop ↔
      ∃ before p after, cut js = before ++ p :: after ∧ p.kind ≠ .code ∧ offset before ≤ pos ∧
        pos < stop ∧ stop = offset before + size p.text := by
  have hcuts := cuts_cut js
  have hranges : ranges 0 (cut js) = (Literals.scan js).ranges := hcuts.ranges_eq 0
  refine ⟨fun _ _ _ => slice?_cut, hcuts.flatMap_text, hcuts.text_ne_nil, hcuts.isChain, hranges, ?_⟩
  intro pos stop
  rw [Literals.containing_iff, ← hranges]
  constructor
  · rintro ⟨start, hmem, hle, hlt⟩
    obtain ⟨before, p, after, heq, hkind, hstart, hstop⟩ := mem_ranges_iff.mp hmem
    rw [Nat.zero_add] at hstart hstop
    exact ⟨before, p, after, heq, hkind, hstart ▸ hle, hlt, hstop⟩
  · rintro ⟨before, p, after, heq, hkind, hle, hlt, hstop⟩
    refine ⟨offset before, mem_ranges_iff.mpr ⟨before, p, after, heq, hkind, ?_, ?_⟩, hle, hlt⟩
    · rw [Nat.zero_add]
    · rw [Nat.zero_add]
      exact hstop

end Piece

end Bundler.Script

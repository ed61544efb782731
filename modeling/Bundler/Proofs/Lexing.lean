/-
The literals of a text, read part by part.

The ranges of the literals are offsets into one text. A text that is put together from parts, such as a
call with new arguments, is easier to follow without them: `Situation` is where a reader stands, whatever
came before, and `Situation.after` is where a part takes it. `literalsFrom` does the same with offsets:
whether a place of a text belongs to a literal is decided by the situation before it and the characters
at it (`reads_scan`).
-/
import Bundler.Script.Literals
import Bundler.Proofs.Names

set_option autoImplicit false

namespace Bundler.Script

open Bundler.Text

/-! ## Situations -/

/-- The situation at a place of a text, without the offset at which a literal started. -/
inductive Situation where
  | code
  /-- In a comment up to the end of the line. -/
  | line
  /-- In a comment between marks; `skip` characters belong to the opening mark. -/
  | block (skip : Nat)
  /-- At the last character of the mark that ends a comment. -/
  | closing
  /-- In a quoted literal; `escaped` after a backslash. -/
  | quoted (quote : Char) (escaped : Bool)
  deriving DecidableEq

namespace Situation

/-- The situation behind a character, where `ahead` is the character that follows. -/
def next (s : Situation) (c : Char) (ahead : Option Char) : Situation :=
  match s with
  | .code =>
    if c == '/' && ahead == some '/' then .line
    else if c == '/' && ahead == some '*' then .block 1
    else if isQuote c then .quoted c false
    else .code
  | .line => if c == '\n' then .code else .line
  | .block (skip + 1) => .block skip
  | .block 0 => if c == '*' && ahead == some '/' then .closing else .block 0
  | .closing => .code
  | .quoted quote true => .quoted quote false
  | .quoted quote false =>
    if c == quote || (c == '\n' && quote != backquote) then .code else .quoted quote (c == '\\')

/-- Whether a character belongs to a literal. -/
def covers (s : Situation) (c : Char) (ahead : Option Char) : Bool :=
  match s with
  | .code => s.next c ahead != .code
  | .line => c != '\n'
  | _ => true

/-- The situation behind a text, where `ahead` is the character that follows. -/
def after (s : Situation) (ahead : Option Char) : List Char → Situation
  | [] => s
  | c :: cs => (s.next c (cs.head?.or ahead)).after ahead cs

theorem after_cons (s : Situation) (ahead : Option Char) (c : Char) (cs : List Char) :
    s.after ahead (c :: cs) = (s.next c (cs.head?.or ahead)).after ahead cs := rfl

theorem after_append (ahead : Option Char) (bs : List Char) :
    ∀ (s : Situation) (as : List Char),
      s.after ahead (as ++ bs) = (s.after (bs.head?.or ahead) as).after ahead bs
  | _, [] => rfl
  | s, a :: as => by
    rw [List.cons_append, after_cons, after_cons, after_append ahead bs, List.head?_append,
      Option.or_assoc]

/-- A character that has no part in starting or ending a literal. -/
def IsCalm (c : Char) : Prop := c ≠ '/' ∧ isQuote c = false

instance (c : Char) : Decidable (IsCalm c) := inferInstanceAs (Decidable (_ ∧ _))

theorem next_calm {c : Char} (h : IsCalm c) (ahead : Option Char) :
    code.next c ahead = .code := by
  have hslash : (c == '/') = false := beq_eq_false_iff_ne.mpr h.1
  simp [next, hslash, h.2]

theorem covers_calm {c : Char} (h : IsCalm c) (ahead : Option Char) :
    code.covers c ahead = false := by
  simp [covers, next_calm h]

/-- A character that belongs to no literal leads from code to code, or it ends a comment. -/
theorem code_of_not_covers {s : Situation} {c : Char} {ahead : Option Char}
    (h : s.covers c ahead = false) : s.next c ahead = .code := by
  cases s with
  | code => simpa [covers] using h
  | line =>
    have hc : c = '\n' := by simpa [covers] using h
    simp [next, hc]
  | block skip => simp [covers] at h
  | closing => simp [covers] at h
  | quoted quote escaped => simp [covers] at h

/-- A character that belongs to no literal stands in code, unless it is the line break behind a comment. -/
theorem eq_code_of_not_covers {s : Situation} {c : Char} {ahead : Option Char}
    (h : s.covers c ahead = false) (hc : c ≠ '\n') : s = .code := by
  cases s with
  | code => rfl
  | line => exact absurd (by simpa [covers] using h) hc
  | block | closing | quoted => cases h

end Situation

/-! ## The ranges of a text, character by character -/

namespace Mode

/-- The situation that a mode stands for. -/
def situation : Mode → Situation
  | .code => .code
  | .line _ => .line
  | .block _ skip => .block skip
  | .closing _ => .closing
  | .quoted _ quote escaped => .quoted quote escaped

/-- The offset at which the literal of a mode started. -/
def start? : Mode → Option Nat
  | .code => none
  | .line start | .block start _ | .closing start | .quoted start _ _ => some start

/-- The mode behind the character at an offset. -/
def next (pos : Nat) (m : Mode) (c : Char) (ahead : Option Char) : Mode :=
  match m.start?.getD pos, m.situation.next c ahead with
  | _, .code => .code
  | start, .line => .line start
  | start, .block skip => .block start skip
  | start, .closing => .closing start
  | start, .quoted quote escaped => .quoted start quote escaped

/-- The literal that the character at an offset completes: the line break behind a comment does not
belong to it. -/
def completed (pos : Nat) (m : Mode) (c : Char) (ahead : Option Char) : List (Nat × Nat) :=
  match m.start?, m.situation.next c ahead with
  | some start, .code => [(start, if m.situation = .line then pos else pos + c.utf8Size)]
  | _, _ => []

variable {pos : Nat} {m : Mode} {c : Char} {ahead : Option Char}

theorem start?_code (pos : Nat) : ∀ start ∈ code.start?, start ≤ pos :=
  fun _ h => by cases h

theorem eq_code (h : m.situation = .code) : m = .code := by
  cases m <;> first | rfl | cases h

theorem situation_next (pos : Nat) (m : Mode) (c : Char) (ahead : Option Char) :
    (m.next pos c ahead).situation = m.situation.next c ahead := by
  unfold next
  split <;> simp_all [situation]

/-- No literal starts behind the place that its mode is at. -/
theorem start?_next (h : ∀ start ∈ m.start?, start ≤ pos) (c : Char) (ahead : Option Char) :
    ∀ start ∈ (m.next pos c ahead).start?, m.start?.getD pos ≤ start ∧ start ≤ pos + c.utf8Size := by
  have hle : m.start?.getD pos ≤ pos := by
    cases hm : m.start? with
    | none => exact Nat.le_refl _
    | some start => exact h start hm
  intro start hstart
  unfold next at hstart
  split at hstart
  · cases hstart
  all_goals
    cases hstart
    omega

/-- What is completed is the literal of the mode, and it reaches to the place or over the character. -/
theorem mem_completed {r : Nat × Nat} (h : r ∈ m.completed pos c ahead) :
    m.start? = some r.1 ∧ pos ≤ r.2 ∧ r.2 ≤ pos + c.utf8Size := by
  unfold completed at h
  split at h
  · rename_i start hstart _
    obtain rfl := List.mem_singleton.mp h
    refine ⟨hstart, ?_, ?_⟩
    · dsimp only
      split <;> omega
    · dsimp only
      split <;> omega
  · cases h

/-- A character completes the literal that is open, or leaves it open. -/
theorem completed_cases (pos : Nat) (c : Char) (ahead : Option Char) {start : Nat}
    (hstart : m.start? = some start) :
    (∃ stop, m.completed pos c ahead = [(start, stop)] ∧ pos ≤ stop) ∨
      (m.completed pos c ahead = [] ∧ (m.next pos c ahead).start? = some start) := by
  by_cases hcode : m.situation.next c ahead = .code
  · refine .inl ⟨if m.situation = .line then pos else pos + c.utf8Size, ?_, by split <;> omega⟩
    unfold completed
    rw [hstart, hcode]
  · refine .inr ⟨?_, ?_⟩
    · unfold completed
      split
      · contradiction
      · rfl
    · unfold next
      rw [hstart]
      split <;> first | contradiction | rfl

end Mode

/-- One character on, the literal that it completes is listed. -/
theorem literalsFrom_cons (pos : Nat) (m : Mode) (c : Char) (cs : List Char) :
    literalsFrom pos m (c :: cs)
      = m.completed pos c cs.head? ++ literalsFrom (pos + c.utf8Size) (m.next pos c cs.head?) cs := by
  cases m with
  | code =>
    simp only [literalsFrom, Mode.completed, Mode.next, Mode.start?, Mode.situation, Situation.next,
      List.nil_append, Option.getD_none]
    split
    · rfl
    split
    · rfl
    split <;> rfl
  | line start =>
    by_cases hbreak : c = '\n'
    · simp [literalsFrom, Mode.completed, Mode.next, Mode.start?, Mode.situation, Situation.next, hbreak]
    · simp [literalsFrom, Mode.completed, Mode.next, Mode.start?, Mode.situation, Situation.next, hbreak]
  | block start skip =>
    cases skip with
    | succ skip => rfl
    | zero =>
      simp only [literalsFrom, Mode.completed, Mode.next, Mode.start?, Mode.situation, Situation.next]
      split <;> rfl
  | closing start => rfl
  | quoted start quote escaped =>
    cases escaped with
    | true => rfl
    | false =>
      simp only [literalsFrom, Mode.completed, Mode.next, Mode.start?, Mode.situation, Situation.next]
      split <;> rfl

/-- The literals that follow start behind the place, the one that is open apart. -/
theorem le_of_mem_literalsFrom :
    ∀ {pos : Nat} {m : Mode}, (∀ start ∈ m.start?, start ≤ pos) → ∀ {cs : List Char} {r : Nat × Nat},
      r ∈ literalsFrom pos m cs → m.start?.getD pos ≤ r.1
  | pos, m, _, [], r, hr => by
    cases m <;> simp_all [literalsFrom, Mode.start?]
  | pos, m, hm, c :: cs, r, hr => by
    rw [literalsFrom_cons] at hr
    rcases List.mem_append.mp hr with hr | hr
    · rw [(Mode.mem_completed hr).1]
      exact Nat.le_refl _
    · have hnext := Mode.start?_next hm c cs.head?
      have hrest := le_of_mem_literalsFrom (fun start h => (hnext start h).2) hr
      cases hopen : (m.next pos c cs.head?).start? with
      | some start =>
        rw [hopen] at hrest
        exact Nat.le_trans (hnext start hopen).1 hrest
      | none =>
        rw [hopen] at hrest
        have : m.start?.getD pos ≤ pos := by
          cases hstart : m.start? with
          | none => exact Nat.le_refl _
          | some start => exact hm start hstart
        simp only [Option.getD_none] at hrest
        omega

/-- The literal that is open is the first to be complete. -/
theorem exists_literalsFrom_open :
    ∀ (pos : Nat) {start : Nat} {m : Mode}, m.start? = some start → ∀ (cs : List Char),
      ∃ stop rest, literalsFrom pos m cs = (start, stop) :: rest ∧ pos ≤ stop
  | pos, start, m, hm, [] => by
    cases m <;> cases hm <;> exact ⟨pos, [], rfl, Nat.le_refl _⟩
  | pos, start, m, hm, c :: cs => by
    rw [literalsFrom_cons]
    rcases Mode.completed_cases pos c cs.head? hm with ⟨stop, hstop, hle⟩ | ⟨hnone, hopen⟩
    · exact ⟨stop, _, by rw [hstop]; rfl, hle⟩
    · obtain ⟨stop, rest, heq, hle⟩ :=
        exists_literalsFrom_open (pos + c.utf8Size) hopen cs
      exact ⟨stop, rest, by rw [hnone, heq]; rfl, by omega⟩

/-- A part on, the literals that are complete end there or before. -/
theorem literalsFrom_append (here : List Char) :
    ∀ {pos : Nat} {m : Mode}, (∀ start ∈ m.start?, start ≤ pos) → ∀ (before : List Char),
    ∃ (closed : List (Nat × Nat)) (m' : Mode),
      literalsFrom pos m (before ++ here) = closed ++ literalsFrom (pos + size before) m' here ∧
      m'.situation = m.situation.after here.head? before ∧ ∀ r ∈ closed, r.2 ≤ pos + size before
  | pos, m, _, [] => ⟨[], m, rfl, rfl, fun r hr => absurd hr List.not_mem_nil⟩
  | pos, m, hm, c :: before => by
    have hnext := Mode.start?_next hm c (before ++ here).head?
    obtain ⟨closed, m', heq, hafter, hclosed⟩ :=
      literalsFrom_append here (fun start h => (hnext start h).2) before
    refine ⟨m.completed pos c (before ++ here).head? ++ closed, m', ?_, ?_, fun r hr => ?_⟩
    · rw [List.cons_append, literalsFrom_cons, heq, List.append_assoc, size, Nat.add_assoc]
    · rw [hafter, Mode.situation_next, List.head?_append, Situation.after_cons]
    · rw [size, ← Nat.add_assoc]
      rcases List.mem_append.mp hr with hr | hr
      · exact Nat.le_add_right_of_le (Mode.mem_completed hr).2.2
      · exact hclosed r hr

/-! ## Places in literals -/

namespace Literals

/-- Literals that end before a place are not around it. -/
theorem containing_append {pos : Nat} {closed rs : List (Nat × Nat)} (h : ∀ r ∈ closed, r.2 ≤ pos) :
    containing ⟨closed ++ rs⟩ pos = containing ⟨rs⟩ pos := by
  unfold containing
  rw [List.dropWhile_append_of_pos fun r hr => decide_eq_true (h r hr)]

/-- Literals that start behind a place are not around it. -/
theorem containing_eq_none {pos : Nat} {rs : List (Nat × Nat)} (h : ∀ r ∈ rs, pos < r.1) :
    containing ⟨rs⟩ pos = none := by
  unfold containing
  split
  · rfl
  · rename_i r rest heq
    have hmem : r ∈ rs := (List.dropWhile_sublist _).subset (heq ▸ List.mem_cons_self)
    rw [if_neg (by have := h r hmem; omega)]

theorem containing_cons {pos start stop : Nat} {rs : List (Nat × Nat)} (hstart : start ≤ pos)
    (hstop : pos < stop) : containing ⟨(start, stop) :: rs⟩ pos = some stop := by
  unfold containing
  rw [List.dropWhile_cons_of_neg (by simpa using hstop)]
  exact if_pos hstart

/-- Where code is reached, the literals before do not matter. -/
theorem containing_of_code {before : List Char} (here : List Char)
    (h : Situation.code.after here.head? before = .code) :
    (scan (before ++ here)).containing (size before)
      = containing ⟨literalsFrom (size before) .code here⟩ (size before) := by
  obtain ⟨closed, m, heq, hafter, hclosed⟩ := literalsFrom_append here (Mode.start?_code 0) before
  rw [Nat.zero_add] at heq hclosed
  unfold scan
  rw [heq, containing_append hclosed, Mode.eq_code (hafter.trans h)]

/-- Where a character leads to code, its place is in a literal just if that literal ends with it. -/
private theorem contains_here_of_code {pos : Nat} {m : Mode} (hm : ∀ start ∈ m.start?, start ≤ pos)
    {c : Char} {cs : List Char} (hcode : m.situation.next c cs.head? = .code) :
    contains ⟨literalsFrom pos m (c :: cs)⟩ pos = m.situation.covers c cs.head? := by
  have hsize := c.utf8Size_pos
  have hbehind : ∀ r ∈ literalsFrom (pos + c.utf8Size) (m.next pos c cs.head?) cs, pos < r.1 := by
    intro r hr
    rw [Mode.eq_code ((Mode.situation_next pos m c cs.head?).trans hcode)] at hr
    have hle := le_of_mem_literalsFrom (Mode.start?_code _) hr
    change pos + c.utf8Size ≤ r.1 at hle
    omega
  rw [literalsFrom_cons, contains]
  cases hopen : m.start? with
  | none =>
    have hnone : m.completed pos c cs.head? = [] := by simp [Mode.completed, hopen]
    obtain rfl : m = .code := by cases m <;> first | rfl | cases hopen
    rw [hnone, List.nil_append, containing_eq_none hbehind]
    simp [Situation.covers, Mode.situation, show Situation.code.next c cs.head? = .code from hcode]
  | some start =>
    have hone : m.completed pos c cs.head?
        = [(start, if m.situation = .line then pos else pos + c.utf8Size)] := by
      simp [Mode.completed, hopen, hcode]
    rw [hone]
    by_cases hline : m.situation = .line
    · have hbreak : c = '\n' := by simpa [hline, Situation.next] using hcode
      rw [if_pos hline, containing_append fun r hr => Nat.le_of_eq (by rw [List.mem_singleton.mp hr]),
        containing_eq_none hbehind, hline]
      simp [Situation.covers, hbreak]
    · rw [if_neg hline, List.singleton_append, containing_cons (hm start hopen) (by omega)]
      cases m with
      | code => cases hopen
      | line _ => exact absurd rfl hline
      | block _ _ | closing _ | quoted _ _ _ => rfl

/-- Where a character leads into a literal or on in it, its place is in that literal. -/
private theorem contains_here_of_open {pos : Nat} {m : Mode} (hm : ∀ start ∈ m.start?, start ≤ pos)
    {c : Char} {cs : List Char} (hopen : m.situation.next c cs.head? ≠ .code) :
    contains ⟨literalsFrom pos m (c :: cs)⟩ pos = m.situation.covers c cs.head? := by
  have hsize := c.utf8Size_pos
  obtain ⟨start, hstart, hle⟩ : ∃ start, (m.next pos c cs.head?).start? = some start ∧ start ≤ pos := by
    refine ⟨m.start?.getD pos, ?_, ?_⟩
    · unfold Mode.next
      split <;> first | contradiction | rfl
    · cases hstart : m.start? with
      | none => exact Nat.le_refl _
      | some start => exact hm start hstart
  have hnone : m.completed pos c cs.head? = [] := by
    unfold Mode.completed
    split <;> first | contradiction | rfl
  obtain ⟨stop, rest, heq, hstop⟩ := exists_literalsFrom_open (pos + c.utf8Size) hstart cs
  rw [literalsFrom_cons, contains, hnone, List.nil_append, heq, containing_cons hle (by omega)]
  cases m with
  | code => simpa [Situation.covers, Mode.situation] using hopen
  | line _ => simpa [Situation.covers, Situation.next, Mode.situation] using hopen
  | block _ _ | closing _ | quoted _ _ _ => rfl

/-- The place of a character is in a literal just if the situation says so. -/
theorem contains_here {pos : Nat} {m : Mode} (hm : ∀ start ∈ m.start?, start ≤ pos) (c : Char)
    (cs : List Char) :
    contains ⟨literalsFrom pos m (c :: cs)⟩ pos = m.situation.covers c cs.head? := by
  by_cases hcode : m.situation.next c cs.head? = .code
  · exact contains_here_of_code hm hcode
  · exact contains_here_of_open hm hcode

/-- From an offset on, the literals are those that a reader in a situation finds in a text, where `ahead`
is the character that follows. -/
def Reads (ls : Literals) (ahead : Option Char) : Nat → Situation → List Char → Prop
  | _, _, [] => True
  | pos, s, c :: cs => ls.contains pos = s.covers c (cs.head?.or ahead) ∧
      Reads ls ahead (pos + c.utf8Size) (s.next c (cs.head?.or ahead)) cs

/-- A text is read part by part. -/
theorem reads_append {ls : Literals} {ahead : Option Char} {bs : List Char} :
    ∀ {as : List Char} {pos : Nat} {s : Situation}, ls.Reads ahead pos s (as ++ bs) ↔
      ls.Reads (bs.head?.or ahead) pos s as ∧
        ls.Reads ahead (pos + size as) (s.after (bs.head?.or ahead) as) bs
  | [], _, _ => ⟨fun h => ⟨trivial, h⟩, And.right⟩
  | a :: as, pos, s => by
    rw [List.cons_append, Reads, Reads, reads_append, List.head?_append, Option.or_assoc, and_assoc, size,
      Situation.after_cons, ← Nat.add_assoc]

private theorem reads_literalsFrom :
    ∀ {pos : Nat} {m : Mode}, (∀ start ∈ m.start?, start ≤ pos) → ∀ (closed : List (Nat × Nat)),
      (∀ r ∈ closed, r.2 ≤ pos) → ∀ (cs : List Char),
      Reads ⟨closed ++ literalsFrom pos m cs⟩ none pos m.situation cs
  | _, _, _, _, _, [] => trivial
  | pos, m, hm, closed, hclosed, c :: cs => by
    have hnext := Mode.start?_next hm c cs.head?
    rw [Reads, Option.or_none]
    refine ⟨?_, ?_⟩
    · unfold contains
      rw [containing_append hclosed]
      exact contains_here hm c cs
    · rw [literalsFrom_cons, ← List.append_assoc, ← Mode.situation_next pos]
      refine reads_literalsFrom (fun start h => (hnext start h).2) _ (fun r hr => ?_) cs
      rcases List.mem_append.mp hr with hr | hr
      · exact Nat.le_add_right_of_le (hclosed r hr)
      · exact (Mode.mem_completed hr).2.2

/-- The literals of a text are those that a reader finds who starts in code. -/
theorem reads_scan (text : List Char) : (scan text).Reads none 0 .code text :=
  reads_literalsFrom (Mode.start?_code 0) [] (fun _ h => absurd h List.not_mem_nil) text

end Literals

end Bundler.Script

/-
Spans: where a node stands in its file.

A span holds two byte offsets and, for people, the line and column of each. Lines and columns
count from one, a line ends behind its line feed, and a column counts characters and not bytes.
Offsets are turned into lines and columns by looking at the text before them, so an offset inside
a character has no position, while an offset behind the end counts as the end.

Lines and columns are numbers of 32 bits; a span that is put together from parts can exceed them.
-/
import Bundler.Fault
import Bundler.Number.Power
import Bundler.Text.Basic

set_option autoImplicit false

namespace Bundler

/-- A stretch of a file. -/
structure Span where
  /-- The byte offset of the first character. -/
  start : Nat
  /-- The byte offset behind the last character. -/
  stop : Nat
  line : Nat
  column : Nat
  endLine : Nat
  endColumn : Nat
  deriving DecidableEq

namespace Span

open Bundler.Text

/-- The first number that a line or column cannot be. -/
def bound : Nat := pow2 32

/-- The span of nothing, used where a message has no place in a text. -/
def none : Span := ⟨0, 0, 0, 0, 0, 0⟩

instance : Inhabited Span := ⟨none⟩

/-- A span on one line, whose end column follows from its length in bytes. -/
def onLine (start stop line column : Nat) : Except Fault Span :=
  let endColumn := column + (stop - start) % bound
  if endColumn < bound then .ok ⟨start, stop, line, column, line, endColumn⟩
  else .error .overflow

/-- The characters behind the last line break. -/
def lastLine (before : List Char) : List Char :=
  match splitLast? (· == '\n') before with
  | some (_, rest) => rest
  | Option.none => before

/-- Line and column of the place behind `before`. -/
def positionAfter (before : List Char) : Nat × Nat :=
  (lineBreaks before + 1, (lastLine before).length + 1)

/-- Line and column of a byte offset. -/
def position (text : List Char) (offset : Nat) : Except Fault (Nat × Nat) := do
  let before ← Fault.ofCut (takeBytes? (min offset (size text)) text)
  return positionAfter before

/-- The span between two byte offsets of a text. -/
def ofOffsets (text : List Char) (start stop : Nat) : Except Fault Span := do
  let (line, column) ← position text start
  let (endLine, endColumn) ← position text stop
  return ⟨start, stop, line, column, endLine, endColumn⟩

/-! ## Order of places -/

/-- Puts an element in front of the first one whose place is not before its own. -/
def insertInOrder {α : Type} (place : α → Nat) (a : α) : List α → List α
  | [] => [a]
  | b :: bs => if place a ≤ place b then a :: b :: bs else b :: insertInOrder place a bs

/-- A list in the order of places. Elements of one place stay in the order that they had. -/
def inOrder {α : Type} (place : α → Nat) (as : List α) : List α :=
  as.foldr (insertInOrder place) []

/-- Line and column, as messages give them. -/
def render (s : Span) : String :=
  toString s.line ++ ":" ++ toString s.column

end Span

end Bundler

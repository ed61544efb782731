/-
String literals and comments of a script, as ranges of bytes.

A script is searched for patterns, and a pattern inside a string or a comment does not count. The
ranges are found in one pass over the text that knows four situations: code, a comment to the end
of the line, a comment in marks, and a quoted literal. A quoted literal in single or double quotes
ends at its quote or with the line break that cuts it off; one in backquotes goes on over line
breaks; a backslash takes the next character with it. What is not ended goes to the end.

Brackets are matched over the code only, which gives the end of a call, the pieces between the
commas of an argument list, and the end of a statement.
-/
import Bundler.Text.Basic

set_option autoImplicit false

namespace Bundler.Script

open Bundler.Text

/-- The backquote. -/
def backquote : Char := '\x60'

/-- A character that opens a quoted literal. -/
def isQuote (c : Char) : Bool :=
  c == '"' || c == '\'' || c == backquote

/-! ## The ranges -/

/-- The situation at a place of the text. -/
inductive Mode where
  | code
  /-- In a comment up to the end of the line. -/
  | line (start : Nat)
  /-- In a comment between marks; `skip` characters belong to the opening mark. -/
  | block (start skip : Nat)
  /-- At the last character of the mark that ends a comment. -/
  | closing (start : Nat)
  /-- In a quoted literal; `escaped` after a backslash. -/
  | quoted (start : Nat) (quote : Char) (escaped : Bool)

/-- The ranges of the literals from a place on, given the offset and the situation there. -/
def literalsFrom (pos : Nat) : Mode → List Char → List (Nat × Nat)
  | .code, [] => []
  | .line start, [] => [(start, pos)]
  | .block start _, [] => [(start, pos)]
  | .closing start, [] => [(start, pos)]
  | .quoted start _ _, [] => [(start, pos)]
  | .code, c :: cs =>
    let next := pos + c.utf8Size
    if c == '/' && cs.head? == some '/' then literalsFrom next (.line pos) cs
    else if c == '/' && cs.head? == some '*' then literalsFrom next (.block pos 1) cs
    else if isQuote c then literalsFrom next (.quoted pos c false) cs
    else literalsFrom next .code cs
  | .line start, c :: cs =>
    let next := pos + c.utf8Size
    if c == '\n' then (start, pos) :: literalsFrom next .code cs
    else literalsFrom next (.line start) cs
  | .block start (skip + 1), c :: cs =>
    literalsFrom (pos + c.utf8Size) (.block start skip) cs
  | .block start 0, c :: cs =>
    let next := pos + c.utf8Size
    if c == '*' && cs.head? == some '/' then literalsFrom next (.closing start) cs
    else literalsFrom next (.block start 0) cs
  | .closing start, c :: cs =>
    let next := pos + c.utf8Size
    (start, next) :: literalsFrom next .code cs
  | .quoted start quote true, c :: cs =>
    literalsFrom (pos + c.utf8Size) (.quoted start quote false) cs
  | .quoted start quote false, c :: cs =>
    let next := pos + c.utf8Size
    if c == quote || (c == '\n' && quote != backquote) then
      (start, next) :: literalsFrom next .code cs
    else literalsFrom next (.quoted start quote (c == '\\')) cs

/-- The literals of a text: start and end of each, in order. -/
structure Literals where
  ranges : List (Nat × Nat)

namespace Literals

/-- The literals of a text. -/
def scan (text : List Char) : Literals :=
  ⟨literalsFrom 0 .code text⟩

/-- The end of the literal around a place, if there is one. -/
def containing (ls : Literals) (pos : Nat) : Option Nat :=
  match ls.ranges.dropWhile fun r => r.2 ≤ pos with
  | [] => none
  | r :: _ => if r.1 ≤ pos then some r.2 else none

/-- Whether a place is inside a literal. -/
def contains (ls : Literals) (pos : Nat) : Bool :=
  (ls.containing pos).isSome

/-! ## Brackets -/

/-- An opening bracket of any kind. -/
def isOpening (c : Char) : Bool :=
  c == '(' || c == '[' || c == '\x7b'

/-- A closing bracket of any kind. -/
def isClosing (c : Char) : Bool :=
  c == ')' || c == ']' || c == '\x7d'

/-- The offset of the bracket that brings the depth back to zero. The kinds of the brackets are
not compared, and a closing bracket at depth zero counts as one that brings it back. -/
def findClose (ls : Literals) (pos depth : Nat) : List Char → Option Nat
  | [] => none
  | c :: cs =>
    let next := pos + c.utf8Size
    if ls.contains pos then findClose ls next depth cs
    else if isOpening c then findClose ls next (depth + 1) cs
    else if isClosing c then
      if depth ≤ 1 then some pos else findClose ls next (depth - 1) cs
    else findClose ls next depth cs

/-- A piece of a text: where it starts, and its characters. -/
abbrev Piece := Nat × List Char

/-- The pieces between the commas at depth zero. -/
def splitCommas (ls : Literals) (pos depth : Nat) : List Char → List Piece
  | [] => [(pos, [])]
  | c :: cs =>
    let next := pos + c.utf8Size
    let extend (rest : List Piece) : List Piece :=
      match rest with
      | [] => [(pos, [c])]
      | (_, piece) :: pieces => (pos, c :: piece) :: pieces
    if ls.contains pos then extend (splitCommas ls next depth cs)
    else if isOpening c then extend (splitCommas ls next (depth + 1) cs)
    else if isClosing c then extend (splitCommas ls next (depth - 1) cs)
    else if c == ',' && depth == 0 then (pos, []) :: splitCommas ls next depth cs
    else extend (splitCommas ls next depth cs)

/-- A piece without the white space around it; of one that is all white space, its start. -/
def trimPiece (p : Piece) : Piece :=
  let inner := trim p.2
  if inner.isEmpty then (p.1, [])
  else (p.1 + size (p.2.takeWhile isBlank), inner)

/-- The arguments between two parentheses: the trimmed pieces, without an empty last one. -/
def splitArguments (ls : Literals) (pos : Nat) (inside : List Char) : List Piece :=
  let pieces := (ls.splitCommas pos 0 inside).map trimPiece
  match pieces.getLast? with
  | some (_, []) => pieces.dropLast
  | _ => pieces

/-- The characters of a statement from a place on: up to a semicolon or line break at depth
zero. -/
def statement (ls : Literals) (pos depth : Nat) : List Char → List Char
  | [] => []
  | c :: cs =>
    let next := pos + c.utf8Size
    if ls.contains pos then c :: statement ls next depth cs
    else if isOpening c then c :: statement ls next (depth + 1) cs
    else if isClosing c then c :: statement ls next (depth - 1) cs
    else if (c == ';' || c == '\n') && depth == 0 then []
    else c :: statement ls next depth cs

end Literals

end Bundler.Script

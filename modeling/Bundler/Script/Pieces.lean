/-
A script as pieces of code, literals and comments.

For a merged bundle a script is written anew without its comments, and with values for some of its
names. Neither looks at more than the pieces: comments are dropped whole, literals are kept whole,
and names are looked for in code alone.

A name that follows a point is a member and not free, so it is kept. The point is looked for in
the same piece, behind any blanks.
-/
import Bundler.Expr
import Bundler.OrderedMap
import Bundler.Text.Basic

set_option autoImplicit false

namespace Bundler.Script

open Bundler.Text

/-- What a piece of a script is. -/
inductive PieceKind where
  | code
  | literal
  | comment
  deriving DecidableEq

/-- A piece of a script. -/
structure Piece where
  kind : PieceKind
  text : List Char
  deriving DecidableEq

namespace Piece

/-! ## Cutting -/

/-- The inside of a literal with its end, and what follows. A literal that is not in backquotes
ends with its line. -/
def takeLiteral (quote : Char) : Bool → List Char → List Char × List Char
  | _, [] => ([], [])
  | escaped, c :: cs =>
    if !escaped && (c == quote || (c == '\n' && quote != '\x60')) then ([c], cs)
    else
      let (taken, rest) := takeLiteral quote (!escaped && c == '\\') cs
      (c :: taken, rest)

/-- The inside of a comment in marks with its end, and what follows. -/
def takeComment (cs : List Char) : List Char × List Char :=
  match splitOnce? ['*', '/'] cs with
  | some (inside, rest) => (inside ++ ['*', '/'], rest)
  | none => (cs, [])

/-- The literal or comment at the start of a text, and what follows it. -/
def special? : List Char → Option (Piece × List Char)
  | '/' :: '/' :: cs =>
    let (inside, rest) := cs.span (· != '\n')
    some (⟨.comment, '/' :: '/' :: inside⟩, rest)
  | '/' :: '*' :: cs =>
    let (inside, rest) := takeComment cs
    some (⟨.comment, '/' :: '*' :: inside⟩, rest)
  | c :: cs =>
    if c == '"' || c == '\'' || c == '\x60' then
      let (inside, rest) := takeLiteral c false cs
      some (⟨.literal, c :: inside⟩, rest)
    else none
  | [] => none

/-- The code gathered so far as a piece; no code is no piece. -/
def ofCode (code : List Char) : List Piece :=
  if code.isEmpty then [] else [⟨.code, code.reverse⟩]

/-- The pieces of a text behind code that was gathered newest first. Every step takes a character
at least, so the length of the text is enough of them. -/
def cutFrom : Nat → List Char → List Char → List Piece
  | 0, code, _ => ofCode code
  | fuel + 1, code, cs =>
    match special? cs with
    | some (piece, rest) => ofCode code ++ piece :: cutFrom fuel [] rest
    | none =>
      match cs with
      | [] => ofCode code
      | c :: rest => cutFrom fuel (c :: code) rest

/-- The pieces of a script. -/
def cut (js : List Char) : List Piece :=
  cutFrom js.length [] js

end Piece

/-! ## Without comments -/

/-- A line without the blanks it ends with, as long as something is left. -/
def strippedLine (line : List Char) : List Char :=
  let kept := trimEnd line
  if kept.isEmpty then [] else kept ++ ['\n']

/-- A script without comments, blank lines and blanks at the ends of lines. -/
def stripComments (js : String) : String :=
  let kept := (Piece.cut js.toList).filter fun p => p.kind != .comment
  String.ofList ((lines (kept.flatMap Piece.text)).flatMap strippedLine)

/-! ## Values for names -/

/-- Whether a character can start a name. -/
def startsName (c : Char) : Bool :=
  c.isAlpha || c == '_' || c == '$'

/-- Whether a character can go on a name. -/
def continuesName (c : Char) : Bool :=
  startsName c || c.isDigit

/-- What a name is written as, given the code before it, newest first. -/
def substituteName (defines : OrderedMap String Json) (before name : List Char) : List Char :=
  match defines.get? (String.ofList name) with
  | some value =>
    if (before.dropWhile isBlank).head? == some '.' then name
    else (Expr.ofJson value).render.toList
  | none => name

/-- The code with values for names. `name` is the name at hand and `before` the code in front of
it, both newest first. -/
def substituteFrom (defines : OrderedMap String Json) (before name : List Char) :
    List Char → List Char
  | [] => if name.isEmpty then [] else substituteName defines before name.reverse
  | c :: cs =>
    if !name.isEmpty && continuesName c then substituteFrom defines before (c :: name) cs
    else
      let done := if name.isEmpty then [] else substituteName defines before name.reverse
      if startsName c then done ++ substituteFrom defines (name ++ before) [c] cs
      else done ++ c :: substituteFrom defines (c :: (name ++ before)) [] cs

/-- A piece with values for names, if it is code. -/
def substitutePiece (defines : OrderedMap String Json) (p : Piece) : List Char :=
  if p.kind == .code then substituteFrom defines [] [] p.text else p.text

/-- A script with values for free names. -/
def substituteDefines (js : String) (defines : OrderedMap String Json) : String :=
  if defines.toList.isEmpty then js
  else String.ofList ((Piece.cut js.toList).flatMap (substitutePiece defines))

end Bundler.Script

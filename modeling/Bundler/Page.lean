/-
The head of a page, with the names of assets filled in.

A template names an asset between two pairs of angle brackets. The name is replaced by the output
name, and the asset is delivered. A name has at least one character and no closing bracket; what
does not fit this stays as it is.
-/
import Bundler.Workspace

set_option autoImplicit false

namespace Bundler

namespace Page

/-- A piece of a template. -/
inductive Piece where
  | text (cs : List Char)
  | asset (name : List Char)
  deriving DecidableEq

/-- The name of an asset at the start of a text. -/
def placeholder? : List Char → Option (List Char)
  | '<' :: '<' :: cs =>
    let (name, rest) := cs.span (· != '>')
    match name, rest with
    | _ :: _, '>' :: '>' :: _ => some name
    | _, _ => none
  | _ => none

/-- Puts a character in front of pieces. -/
def consChar (c : Char) : List Piece → List Piece
  | .text cs :: ps => .text (c :: cs) :: ps
  | ps => .text [c] :: ps

/-- The pieces of a text, of which `skip` characters belong to a name before. -/
def piecesFrom : Nat → List Char → List Piece
  | _, [] => []
  | skip + 1, _ :: cs => piecesFrom skip cs
  | 0, c :: cs =>
    match placeholder? (c :: cs) with
    | some name => .asset name :: piecesFrom (name.length + 3) cs
    | none => consChar c (piecesFrom 0 cs)

/-- The pieces of a template. -/
def pieces (template : String) : List Piece := piecesFrom 0 template.toList

/-- The text of a piece, with the output name for an asset. -/
def expandPiece : Piece → Step Project (List Char)
  | .text cs => return cs
  | .asset name => do
    let name := String.ofList name
    let output ← modifyGet fun p => p.shorten name
    modify fun p => p.addAsset name output
    return output.toList

/-- Fills in the page head of a project. Without a template it is empty. -/
def expandHead : Step Project Unit := do
  match (← get).config.htmlHead with
  | none => modify fun p => { p with htmlHead := "" }
  | some template =>
    let texts ← (pieces template).mapM expandPiece
    modify fun p => { p with htmlHead := String.ofList texts.flatten }

end Page

end Bundler

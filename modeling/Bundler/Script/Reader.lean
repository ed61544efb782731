/-
Reading a script.

Imports and exports are statements, so their patterns are tried at the start of each line, and a
match that reaches over several lines uses them up. Calls are tried at every place whose letter
does not go on a name. In all cases a place inside a string or a comment does not count.

A call ends at the parenthesis that closes its own; calls inside another call are part of its
arguments and not nodes of their own. A call that is never closed is reported, and no call behind
it is looked for, because it would swallow them all. A call right behind the word `function` is a
definition and no call.
-/
import Bundler.Diagnostic
import Bundler.Script.Literal
import Bundler.Script.Pattern

set_option autoImplicit false

namespace Bundler.Script

open Bundler.Text

/-! ## Places -/

/-- The places behind the line breaks of a text, each as the text from there on. -/
def behindBreaks : List Char → List (List Char)
  | [] => []
  | c :: cs => if c == '\n' then cs :: behindBreaks cs else behindBreaks cs

/-- The text from the start of each line on. -/
def lineStarts (text : List Char) : List (List Char) :=
  text :: behindBreaks text

/-- A match of a pattern: its first and last byte offset, without the indent before it, and what
the pattern answered. -/
structure Match (α : Type) where
  start : Nat
  stop : Nat
  value : α

/-- The matches of a pattern at the starts of lines, none of which overlaps the one before.
`total` is the size of the whole text, from which the offset of what is left follows. -/
def lineMatches {α : Type} (pattern : List Char → Option (α × List Char)) (total : Nat) :
    Nat → List (List Char) → List (Match α)
  | _, [] => []
  | done, line :: lines =>
    if total - size line < done then lineMatches pattern total done lines
    else
      let text := Pattern.indent line
      match pattern text with
      | some (value, rest) =>
        let stop := total - size rest
        ⟨total - size text, stop, value⟩ :: lineMatches pattern total stop lines
      | none => lineMatches pattern total done lines

/-- The matches of a statement pattern outside of literals. -/
def statements {α : Type} (text : List Char) (ls : Literals)
    (pattern : List Char → Option (α × List Char)) : List (Match α) :=
  (lineMatches pattern (size text) 0 (lineStarts text)).filter fun m => !ls.contains m.start

/-- Every place of a text: the characters before it, newest first, and those from it on. -/
def places (before : List Char) : List Char → List (List Char × List Char)
  | [] => [(before, [])]
  | c :: cs => (before, c :: cs) :: places (c :: before) cs

/-! ## Imports and exports -/

/-- The import node of a match. -/
def importOf (text : List Char) (m : Match (Binding × String)) : Except Fault Import := do
  return ⟨m.value.2, m.value.1, ← Span.ofOffsets text m.start m.stop⟩

/-- The import statements in the order of the text. -/
def readImports (text : List Char) (ls : Literals) : Except Fault (List Import) := do
  let named ← (statements text ls Pattern.importFrom?).mapM (importOf text)
  let bare ← (statements text ls Pattern.importBare?).mapM (importOf text)
  return Span.inOrder (·.span.start) (named ++ bare)

/-- The span of the keyword of an export, given what is left behind it. -/
def keywordSpan (text : List Char) (start : Nat) (behind : List Char) : Except Fault Span :=
  Span.ofOffsets text start (size text - size behind)

/-- The constant of a match, unless nothing is written behind its equals sign. -/
def constantOf? (text : List Char) (ls : Literals) (m : Match (List Char × String)) :
    Except Fault (Option ExportedConstant) := do
  let behind ← Fault.ofCut (dropBytes? m.stop text)
  let (start, init) := Literals.trimPiece (m.stop, ls.statement m.stop 0 behind)
  if init.isEmpty then return none
  return some
    { name := m.value.2
      init := readExpr ls start init
      keyword := ← keywordSpan text m.start m.value.1
      initSpan := ← Span.ofOffsets text start (start + size init)
      edited := false }

/-- The exported constants. -/
def readConstants (text : List Char) (ls : Literals) : Except Fault (List ExportedConstant) := do
  return (← (statements text ls Pattern.exportConst?).mapM (constantOf? text ls)).filterMap id

/-- The exported functions. -/
def readFunctions (text : List Char) (ls : Literals) : Except Fault (List ExportedFunction) :=
  (statements text ls Pattern.exportFunction?).mapM fun m => do
    return ⟨m.value.2, ← keywordSpan text m.start m.value.1⟩

/-! ## Calls -/

/-- Whether a call may start behind a character. -/
def startsFresh : List Char → Bool
  | [] => true
  | c :: _ => !(isWord c || isOtherAlphanumeric c || c == '.' || c == '$')

/-- Whether the last word before a place is the one that defines functions. -/
def behindFunction (before : List Char) : Bool :=
  "function".toList.reverse.isPrefixOf (before.dropWhile isBlank)

/-- The calls from a list of places on. `done` is the end of the last call. -/
def readCallsFrom (file : String) (text : List Char) (ls : Literals) (done : Nat) :
    List (List Char × List Char) → Except Fault (List Call × List Diagnostic)
  | [] => .ok ([], [])
  | (before, here) :: rest =>
    let pos := size text - size here
    match Pattern.call? here with
    | none => readCallsFrom file text ls done rest
    | some ((object, method), paren) =>
      if pos < done || ls.contains pos || !startsFresh before || behindFunction before then
        readCallsFrom file text ls done rest
      else do
        let opening := size text - size paren
        match ls.findClose opening 0 paren with
        | none =>
          let word ← Fault.ofCut (slice? text pos opening)
          let span ← Span.ofOffsets text pos (opening + 1)
          return ([], [{
            severity := .error
            file
            span
            code := Diagnostic.unterminatedCall
            message := "Unterminated call to " ++ String.ofList (trimEnd word) }])
        | some closing =>
          let inside ← Fault.ofCut (slice? text (opening + 1) closing)
          let call : Call :=
            { object, method
              args := (ls.splitArguments (opening + 1) inside).map fun p => readExpr ls p.1 p.2
              span := ← Span.ofOffsets text pos (closing + 1)
              binding := Pattern.assigned? (before.takeWhile (· != '\n')).reverse
              edited := false }
          let (calls, diagnostics) ← readCallsFrom file text ls (closing + 1) rest
          return (call :: calls, diagnostics)

/-! ## Scripts -/

/-- Reads a source file: its nodes, and what is wrong with its form. -/
def read (file source : String) : Except Fault (Script × List Diagnostic) := do
  let text := source.toList
  let ls := Literals.scan text
  let imports ← readImports text ls
  let constants ← readConstants text ls
  let functions ← readFunctions text ls
  let (calls, diagnostics) ← readCallsFrom file text ls 0 (places [] text)
  return ({ file, source, imports, calls, constants, functions }, diagnostics)

/-! ## Checks over a program -/

/-- The error for a second export of a name. -/
def duplicateExport (file : String) (e : String × Span) : Diagnostic :=
  { severity := .error
    file
    span := e.2
    code := Diagnostic.duplicateExport
    message := "Duplicate export '" ++ e.1 ++ "'" }

/-- The exports whose name was met before, where `seen` are the names met. -/
def repeated (seen : List String) : List (String × Span) → List (String × Span)
  | [] => []
  | e :: es =>
    if seen.contains e.1 then e :: repeated seen es else repeated (e.1 :: seen) es

/-- What is wrong with the scripts of a program: every export of a name that its script has
exported before. -/
def check (scripts : List Script) : List Diagnostic :=
  scripts.flatMap fun s => (repeated [] s.exports).map (duplicateExport s.file)

end Bundler.Script

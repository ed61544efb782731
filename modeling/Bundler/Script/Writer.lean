/-
Writing a script.

The text of a script is written as it stands, except for a number of replaced spans: every import
statement becomes a call of `require`, the two words of an export become the plain word for a
variable or function, and the edited initializers and calls are written anew. An import, an
initializer or a call is filled up with line breaks to those of the text that it stands for, so that
what follows can stay on its line, and a map sends each line to the line of the same number. The two
words of an export are not: where they stand on two lines, what follows moves up.

The replacements are made from left to right. One that starts inside another has no place of its
own any more and is left out: a call inside an edited initializer, for one. Behind the text
follows an assignment for each exported name.
-/
import Bundler.Script.Basic
import Bundler.SourceMap.Concat

set_option autoImplicit false

namespace Bundler.Script

open Bundler.Text

/-! ## Replacements -/

/-- New text for the bytes from `start` up to `stop`. -/
structure Replacement where
  start : Nat
  stop : Nat
  text : List Char
  deriving DecidableEq

/-- A text with line breaks added until it has as many as another. -/
def padLines (text replaced : List Char) : List Char :=
  text ++ List.replicate (lineBreaks replaced - lineBreaks text) '\n'

/-- The replacement of a span, padded to the lines of what stood there. -/
def padded (source : List Char) (span : Span) (text : String) : Except Fault Replacement := do
  let replaced ← Fault.ofCut (slice? source span.start span.stop)
  return ⟨span.start, span.stop, padLines text.toList replaced⟩

/-- The text with replacements made, from the offset `cursor` on, which is where `rest` starts.
The replacements come in the order of their starts. -/
def replaceSpans (cursor : Nat) (rest : List Char) : List Replacement → Except Fault (List Char)
  | [] => .ok rest
  | r :: rs =>
    if r.start < cursor then replaceSpans cursor rest rs
    else do
      let before ← Fault.ofCut (takeBytes? (r.start - cursor) rest)
      let behind ← Fault.ofCut (dropBytes? (r.start - cursor) rest)
      let behind ← Fault.ofCut (dropBytes? (r.stop - r.start) behind)
      return before ++ r.text ++ (← replaceSpans r.stop behind rs)

/-! ## Statements -/

/-- The call that loads a module. -/
def requireCall (id : String) : String :=
  "require(" ++ Json.quote id ++ ")"

/-- The variable that holds the module of an import with names. -/
def holder (index : Nat) : String :=
  "__import" ++ toString index

/-- The statement that an import becomes, given its place among the imports. -/
def importStatement (index : Nat) (b : Binding) (id : String) : String :=
  match b with
  | .bare => requireCall id ++ ";"
  | .whole name => "var " ++ name ++ " = " ++ requireCall id ++ ";"
  | .default name => "var " ++ name ++ " = " ++ requireCall id ++ ".default;"
  | .named names =>
    let declared := names.map fun (imported, lcl) =>
      ", " ++ lcl ++ " = " ++ holder index ++ "." ++ imported
    "var " ++ holder index ++ " = " ++ requireCall id ++ String.join declared ++ ";"

/-- What a script is written with. -/
structure WriteOptions where
  sourceMap : Bool
  declaration : Bool
  /-- The name of the written file. -/
  jsName : String
  sourceRoot : Option String
  /-- The module id for a specifier; a specifier that is not there stands for itself. -/
  moduleNames : OrderedMap String String
  deriving DecidableEq

/-- The plainest options. -/
def WriteOptions.default : WriteOptions := ⟨false, false, "", none, .empty⟩

instance : Inhabited WriteOptions := ⟨.default⟩

/-- The replacements of the imports, where `index` counts them. -/
def importReplacements (o : WriteOptions) (source : List Char) :
    Nat → List Import → Except Fault (List Replacement)
  | _, [] => .ok []
  | index, i :: is => do
    let id := (o.moduleNames.get? i.specifier).getD i.specifier
    let r ← padded source i.span (importStatement index i.binding id)
    return r :: (← importReplacements o source (index + 1) is)

/-- The replacements of a constant. -/
def constantReplacements (source : List Char) (c : ExportedConstant) :
    Except Fault (List Replacement) := do
  let word : Replacement := ⟨c.keyword.start, c.keyword.stop, "var".toList⟩
  if c.edited then return [word, ← padded source c.initSpan c.init.render]
  else return [word]

/-- All replacements of a script, in the order of their starts. Of two with one start the import
comes before the constant, the constant before the function, and the function before the call. -/
def replacements (s : Script) (o : WriteOptions) : Except Fault (List Replacement) := do
  let source := s.source.toList
  let imports ← importReplacements o source 0 s.imports
  let constants ← s.constants.mapM (constantReplacements source)
  let functions := s.functions.map fun f =>
    (⟨f.keyword.start, f.keyword.stop, "function".toList⟩ : Replacement)
  let calls ← (s.calls.filter (·.edited)).mapM fun c => padded source c.span c.render
  return Span.inOrder Replacement.start (imports ++ constants.flatten ++ functions ++ calls)

/-! ## The written script -/

/-- The files that a script becomes. -/
structure Written where
  js : String
  sourceMap : Option String
  declaration : Option String
  deriving DecidableEq

/-- The line that exports a name. -/
def exportLine (name : String) : String :=
  "exports." ++ name ++ " = " ++ name ++ ";\n"

/-- The lines that follow the text: a line break if the text lacks one, then the exports. -/
def exportLines (names : List String) (text : List Char) : String :=
  let ending := if names.isEmpty || text.getLast? == some '\n' then "" else "\n"
  ending ++ String.join (names.map exportLine)

/-- The map that sends each line of the source to the line of the same number. -/
def lineMap (s : Script) (o : WriteOptions) : SourceMap :=
  let start : SourceMap.Builder :=
    { SourceMap.Builder.ofSource s.file with file := some o.jsName, sourceRoot := o.sourceRoot }
  let lines := splitWhere (· == '\n') s.source.toList
  let b := lines.zipIdx.foldl (fun b (line, index) =>
    ((b.map 0 index 0 none).advance line).advance ['\n']) start
  b.build

/-- The declarations of the exported names. -/
def declarations (s : Script) : String :=
  let constants := s.constants.map fun c => "export declare const " ++ c.name ++ ": any;\n"
  let functions := s.functions.map fun f =>
    "export declare function " ++ f.name ++ "(...args: any[]): any;\n"
  let text := String.join (constants ++ functions)
  if text.isEmpty then "export \x7b\x7d;\n" else text

/-- Writes a script. -/
def write (s : Script) (o : WriteOptions) : Except Fault Written := do
  let body ← replaceSpans 0 s.source.toList (← replacements s o)
  let names := s.exports.map Prod.fst
  let js := String.ofList body ++ exportLines names body
  let url := SourceMap.urlComment ++ Path.fileName o.jsName ++ ".map\n"
  return {
    js := if o.sourceMap then js ++ url else js
    sourceMap := if o.sourceMap then some (lineMap s o).toJson else none
    declaration := if o.declaration then some s.declarations else none }

end Bundler.Script

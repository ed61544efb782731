/-
Building a source map along with a generated text.

The builder follows the text as it is written: `advance` moves its place, and a mapping ties the
current place to a place in a source. Sources and names are listed once each, in order of first
mention. `build` writes the mappings in the order in which they were made, each counted from the
one before; a semicolon is written for every line that is left behind, and never one back.
-/
import Bundler.SourceMap.Basic
import Bundler.Span

set_option autoImplicit false

namespace Bundler.SourceMap

/-- A mapping in absolute numbers. -/
structure Mapping where
  line : Nat
  column : Nat
  source : Nat
  sourceLine : Nat
  sourceColumn : Nat
  name : Option Nat
  deriving DecidableEq

/-- A source map under construction. -/
structure Builder where
  file : Option String
  sourceRoot : Option String
  sources : List String
  sourcesContent : List (Option String)
  names : List String
  /-- The mappings made so far, oldest first. -/
  mappings : List Mapping
  /-- The line reached in the generated text. -/
  line : Nat
  /-- The column reached in the generated text. -/
  column : Nat
  deriving DecidableEq

namespace Builder

/-- A builder without sources. -/
def empty : Builder := ⟨none, none, [], [], [], [], 0, 0⟩

/-- A builder for a text made from one source. -/
def ofSource (source : String) : Builder := { empty with sources := [source] }

/-- The place of a text in a list, where it is appended if it is new. -/
def intern (s : String) (list : List String) : Nat × List String :=
  match list.findIdx? (· == s) with
  | some i => (i, list)
  | none => (list.length, list ++ [s])

/-- Lists a source: its index. -/
def addSource (b : Builder) (source : String) : Nat × Builder :=
  let (i, sources) := intern source b.sources
  (i, { b with sources })

/-- Lists a name, if there is one: its index. -/
def addName (b : Builder) : Option String → Option Nat × Builder
  | none => (none, b)
  | some name =>
    let (i, names) := intern name b.names
    (some i, { b with names })

/-- Keeps the text of a source in the map. -/
def setContent (b : Builder) (index : Nat) (content : String) : Builder :=
  let padded :=
    b.sourcesContent ++ List.replicate (index + 1 - b.sourcesContent.length) none
  { b with sourcesContent := padded.set index (some content) }

/-- Ties the current place to a place in a source, both counted from zero. -/
def map (b : Builder) (source line column : Nat) (name : Option String) : Builder :=
  let (name, b) := b.addName name
  { b with mappings := b.mappings ++ [⟨b.line, b.column, source, line, column, name⟩] }

/-- Ties the current place to the start of a span of the first source. A span without a place
counts as the first place. -/
def mapSpan (b : Builder) (span : Span) (name : Option String) : Builder :=
  b.map 0 (span.line - 1) (span.column - 1) name

/-- The place behind one more character. -/
def step (b : Builder) (c : Char) : Builder :=
  if c == '\n' then { b with line := b.line + 1, column := 0 }
  else { b with column := b.column + 1 }

/-- Moves the current place behind a text. -/
def advance (b : Builder) (text : List Char) : Builder :=
  text.foldl step b

/-! ## Writing the mappings -/

/-- The numbers of the last mapping written, and whether one was written on this line. -/
structure Written where
  line : Nat
  column : Nat
  source : Nat
  sourceLine : Nat
  sourceColumn : Nat
  name : Nat
  started : Bool

/-- The numbers before the first mapping. -/
def Written.start : Written := ⟨0, 0, 0, 0, 0, 0, false⟩

/-- The difference of two natural numbers. -/
def delta (now before : Nat) : Int := (now : Int) - (before : Int)

/-- Moves to the line of a mapping: a semicolon for each line left behind. -/
def Written.toLine (w : Written) (line : Nat) : List Char × Written :=
  if w.line < line then
    (List.replicate (line - w.line) ';', { w with line, column := 0, started := false })
  else ([], w)

/-- The written form of one mapping. -/
def encodeMapping (w : Written) (m : Mapping) : List Char × Written :=
  let (breaks, w) := w.toLine m.line
  let separator := if w.started then [','] else []
  let name :=
    match m.name with
    | some n => Vlq.encode (delta n w.name)
    | none => []
  let text := breaks ++ separator ++ Vlq.encode (delta m.column w.column) ++
    Vlq.encode (delta m.source w.source) ++ Vlq.encode (delta m.sourceLine w.sourceLine) ++
    Vlq.encode (delta m.sourceColumn w.sourceColumn) ++ name
  (text, ⟨w.line, m.column, m.source, m.sourceLine, m.sourceColumn, m.name.getD w.name, true⟩)

/-- The written form of mappings in order. -/
def encodeFrom : Written → List Mapping → List Char
  | _, [] => []
  | w, m :: ms =>
    let (text, w) := encodeMapping w m
    text ++ encodeFrom w ms

/-- The finished map. -/
def build (b : Builder) : SourceMap :=
  { version := 3
    file := b.file
    sourceRoot := b.sourceRoot
    sources := b.sources
    sourcesContent := b.sourcesContent
    names := b.names
    mappings := String.ofList (encodeFrom .start b.mappings) }

end Builder

end Bundler.SourceMap

/-
Composite source maps: many texts with their maps, written one behind the other.

Every piece is ended by a line break if it does not end with one. A piece with a map brings its
segments along, moved down by the number of lines before it; its sources are listed under their
resolved names and its own names are listed anew. A comment at the end of a piece that points to
the piece's own map is left out, since the composite map takes its place.
-/
import Bundler.SourceMap.Builder

set_option autoImplicit false

namespace Bundler.SourceMap

/-- The start of the comment that names the map of a script. -/
def urlComment : String := "//# sourceMappingURL="

/-- A text without the comment at its end that names its map. -/
def stripUrlComment (content : List Char) : List Char :=
  let isComment (line : List Char) : Bool := urlComment.toList.isPrefixOf line
  match Text.splitLast? (· == '\n') (Text.trimEnd content) with
  | some (before, line) => if isComment line then before ++ ['\n'] else content
  | none => if isComment (Text.trimEnd content) then [] else content

/-- Texts written one behind the other, and the map of them all. -/
structure Concat where
  /-- The text written so far. -/
  content : String
  builder : Builder
  deriving DecidableEq

namespace Concat

/-- Nothing written yet. -/
def empty : Concat := ⟨"", .empty⟩

/-- Writes a text and ends its last line. -/
def push (c : Concat) (text : List Char) : Concat :=
  let ended := if text.getLast? == some '\n' then text else text ++ ['\n']
  ⟨c.content ++ String.ofList ended, c.builder.advance ended⟩

/-- Writes a line without a source. -/
def addLine (c : Concat) (line : String) : Concat :=
  c.push line.toList

/-- Writes lines without a source; no lines leave no trace. -/
def addLines (c : Concat) (text : String) : Concat :=
  if text.isEmpty then c else c.push text.toList

/-- Lists the sources of a map, with their texts: the index of each in the composite map. -/
def listSources (m : SourceMap) (b : Builder) : List Nat → List Nat × Builder
  | [] => ([], b)
  | i :: is =>
    let (index, b) := b.addSource ((m.resolvedSource? i).getD "")
    let b :=
      match m.sourcesContent[i]? with
      | some (some text) => b.setContent index text
      | _ => b
    let (indices, b) := listSources m b is
    (index :: indices, b)

/-- Takes over one segment on a line of the composite text. Segments without a source are left
out; one whose source the map does not list ends the work. -/
def addSegment (m : SourceMap) (indices : List Nat) (line : Nat) (b : Builder) (s : Segment) :
    Builder × Except Failure Unit :=
  match s.origin with
  | none => (b, .ok ())
  | some origin =>
    match indices[origin.source]? with
    | none =>
      let text := "source index " ++ toString origin.source ++ " out of range"
      (b, .error (.error (.mapping text)))
    | some source =>
      let (name, b) := b.addName (origin.name.bind fun n => m.names[n]?)
      let mapping : Mapping := ⟨line, s.column, source, origin.line, origin.column, name⟩
      ({ b with mappings := b.mappings ++ [mapping] }, .ok ())

/-- Takes over segments, each with its line, until one of them ends the work. -/
def addSegments (m : SourceMap) (indices : List Nat) (b : Builder) :
    List (Nat × Segment) → Builder × Except Failure Unit
  | [] => (b, .ok ())
  | (line, s) :: rest =>
    match addSegment m indices line b s with
    | (b, .ok ()) => addSegments m indices b rest
    | (b, .error e) => (b, .error e)

/-- The segments of consecutive lines, each with the number of its line. -/
def numbered (line : Nat) : List (List Segment) → List (Nat × Segment)
  | [] => []
  | segments :: lines => segments.map (line, ·) ++ numbered (line + 1) lines

/-- Takes over a map for the text that comes next. -/
def addMap (b : Builder) (m : SourceMap) : Builder × Except Failure Unit :=
  match decodeMappings m.mappings with
  | .error e => (b, .error e)
  | .ok lines =>
    let (indices, b) := listSources m b (List.range m.sources.length)
    addSegments m indices b (numbered b.line lines)

/-- Writes a text with its map. If the map cannot be taken over to the end, what was taken over
stays and the text is not written. -/
def addSource (c : Concat) (content : String) (m : Option SourceMap) :
    Concat × Except Failure Unit :=
  let text := stripUrlComment content.toList
  match m with
  | none => (c.push text, .ok ())
  | some m =>
    match addMap c.builder m with
    | (b, .error e) => ({ c with builder := b }, .error e)
    | (b, .ok ()) => (({ c with builder := b } : Concat).push text, .ok ())

/-- Sets the source root of the composite map. -/
def setSourceRoot (c : Concat) (root : String) : Concat :=
  { c with builder := { c.builder with sourceRoot := some root } }

/-- The text and its map, under a file name if one is given. -/
def finish (c : Concat) (file : Option String) : String × SourceMap :=
  let b := { c.builder with file := file.or c.builder.file }
  (c.content, b.build)

end Concat

end Bundler.SourceMap

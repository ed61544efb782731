/-
Source maps: which place of a source each place of a generated text comes from.

A map lists its sources and names and holds one segment for each mapped place. The segments are
written by generated line, a semicolon between lines and a comma between segments, and each number
of a segment is the difference to the same number of the segment before, the generated column
starting anew on each line. A segment has one number, for a place without a source, or four, or
five with a name.

`decodeMappings` reads that text back into absolute numbers. A difference may be negative, a
place may not. Only the index of a name is never looked at: where it is negative, it is reported
as the unsigned word with the same bits.
-/
import Bundler.Failure
import Bundler.Json.Decoder
import Bundler.SourceMap.Vlq
import Bundler.Text.Basic

set_option autoImplicit false

namespace Bundler

/-- A source map. -/
structure SourceMap where
  version : Nat
  file : Option String
  sourceRoot : Option String
  sources : List String
  /-- The texts of the sources, as far as they are part of the map. -/
  sourcesContent : List (Option String)
  names : List String
  /-- The segments in their written form. -/
  mappings : String
  deriving DecidableEq

namespace SourceMap

/-! ## Segments -/

/-- A place in a source, counted from zero. -/
structure Origin where
  source : Nat
  line : Nat
  column : Nat
  name : Option Nat
  deriving DecidableEq

/-- A mapped place of a generated line. -/
structure Segment where
  column : Nat
  origin : Option Origin
  deriving DecidableEq

/-- The numbers of the last segment read, from which the next is counted. -/
structure Running where
  source : Int
  line : Int
  column : Int
  name : Int

/-- The numbers before the first segment. -/
def Running.start : Running := ⟨0, 0, 0, 0⟩

/-- The failure for a segment that cannot be read. -/
def badSegment {α : Type} (text : List Char) : Except Failure α :=
  .error (.error (.mapping (String.ofList text)))

/-- Reads one segment: the running numbers and the generated column behind it, and the segment. -/
def decodeSegment (r : Running) (generated : Int) (text : List Char) :
    Except Failure (Running × Int × Segment) := do
  let some values := Vlq.decode? text | badSegment text
  let first :: more := values | throw (.fault .outOfRange)
  let generated ← Vlq.addWords generated first
  let (r, name) ←
    match more with
    | [] => pure (r, none)
    | [source, line, column] =>
      pure (⟨← Vlq.addWords r.source source, ← Vlq.addWords r.line line,
        ← Vlq.addWords r.column column, r.name⟩, some none)
    | [source, line, column, name] => do
      let r : Running := ⟨← Vlq.addWords r.source source, ← Vlq.addWords r.line line,
        ← Vlq.addWords r.column column, ← Vlq.addWords r.name name⟩
      pure (r, some (some (Vlq.toUnsigned r.name)))
    | _ => badSegment text
  if generated < 0 || r.source < 0 || r.line < 0 || r.column < 0 then badSegment text
  let origin := name.map fun (name : Option Nat) =>
    (⟨r.source.toNat, r.line.toNat, r.column.toNat, name⟩ : Origin)
  return (r, generated, ⟨generated.toNat, origin⟩)

/-- Reads the segments of one line. -/
def decodeLine : Running → Int → List (List Char) → Except Failure (Running × List Segment)
  | r, _, [] => .ok (r, [])
  | r, generated, text :: texts => do
    let (r, generated, segment) ← decodeSegment r generated text
    let (r, segments) ← decodeLine r generated texts
    return (r, segment :: segments)

/-- Reads the segments of several lines. -/
def decodeLines : Running → List (List Char) → Except Failure (List (List Segment))
  | _, [] => .ok []
  | r, line :: lines => do
    let texts := (Text.splitWhere (· == ',') line).filter fun t => !t.isEmpty
    let (r, segments) ← decodeLine r 0 texts
    return segments :: (← decodeLines r lines)

/-- The segments of each generated line, in absolute numbers. -/
def decodeMappings (mappings : String) : Except Failure (List (List Segment)) :=
  decodeLines .start (Text.splitWhere (· == ';') mappings.toList)

/-! ## Sources -/

/-- The path of a source with the source root in front, when there is one. -/
def resolvedSource? (m : SourceMap) (index : Nat) : Option String :=
  m.sources[index]?.map fun source =>
    match m.sourceRoot with
    | some root => if root.isEmpty then source else Text.trimSlashes root ++ "/" ++ source
    | none => source

/-! ## JSON -/

/-- The JSON text of a map. Absent fields and empty lists are left out, except the sources. -/
def toJson (m : SourceMap) : String :=
  let field (name : String) (value : String) : List (String × String) := [(name, value)]
  let texts (ss : List String) : String := Json.renderList (ss.map Json.quote)
  Json.renderFields (
    field "version" (toString m.version) ++
    (m.file.map fun s => ("file", Json.quote s)).toList ++
    (m.sourceRoot.map fun s => ("sourceRoot", Json.quote s)).toList ++
    field "sources" (texts m.sources) ++
    (if m.sourcesContent.isEmpty then []
      else field "sourcesContent" (Json.renderList (m.sourcesContent.map Json.quoteOption))) ++
    (if m.names.isEmpty then [] else field "names" (texts m.names)) ++
    field "mappings" (Json.quote m.mappings))

/-- The map without content that reading starts from. -/
def blank : SourceMap := ⟨0, none, none, [], [], [], ""⟩

open Json.Decoder in
/-- The fields of a map. -/
def fields : List (RecordField SourceMap) :=
  [ .mandatory "version" byteNumber fun v m => { m with version := v },
    .withDefault "file" (option string) fun v m => { m with file := v },
    .withDefault "sourceRoot" (option string) fun v m => { m with sourceRoot := v },
    .mandatory "sources" (list string) fun v m => { m with sources := v },
    .withDefault "sourcesContent" (list (option string)) fun v m => { m with sourcesContent := v },
    .withDefault "names" (list string) fun v m => { m with names := v },
    .mandatory "mappings" string fun v m => { m with mappings := v } ]

/-- Reads the JSON text of a map. -/
def ofJson (text : String) : Except Failure SourceMap :=
  match (Json.Decoder.record "struct SourceMap" fields blank).run text with
  | .ok m => .ok m
  | .error e => .error (.error (.mapText e))

end SourceMap

end Bundler

/-
Fast bundles: the modules as they are, one behind the other, with a composite source map.

Nothing is reordered or changed, so a build that changes one script has little to do. The map is
put together along with the text.
-/
import Bundler.Bundle.Module
import Bundler.SourceMap.Concat
import Bundler.Text.Utf8

set_option autoImplicit false

namespace Bundler.Bundle

/-- A script with the text of its source map. -/
structure FastBundle where
  js : String
  map : String
  deriving DecidableEq

/-- Adds texts with their maps, as long as the maps can be read. -/
def addSources (c : SourceMap.Concat) : List (String × Option SourceMap) →
    Except Failure SourceMap.Concat
  | [] => .ok c
  | (text, m) :: rest =>
    match c.addSource text m with
    | (c, .ok ()) => addSources c rest
    | (_, .error e) => .error e

/-- Adds a module. -/
def addModule (c : SourceMap.Concat) (m : Module) : Except Failure SourceMap.Concat := do
  let c := c.addLine (moduleHead ("'" ++ m.id ++ "'"))
  let c ← addSources c [(m.js, m.sourceMap)]
  return c.addLine moduleEnd

/-- Puts a fast bundle together, given its name and the name of its map. -/
def fast (modules : Modules) (entries : List String) (blobs : List Bytes)
    (bundleName mapName : String) (sourceRoot : Option String) : Except Failure FastBundle := do
  let c := SourceMap.Concat.empty.addLines loader
  let c ← addSources c (blobs.map fun blob => (Text.ofBytes blob, none))
  let c ← modules.values.foldlM addModule c
  let c := (entries.filter modules.contains).foldl (fun c id => c.addLine (start id)) c
  let c := c.addLine (SourceMap.urlComment ++ mapName)
  let c :=
    match sourceRoot with
    | some root => c.setSourceRoot root
    | none => c
  let (js, map) := c.finish (some bundleName)
  return ⟨js, map.toJson⟩

end Bundler.Bundle

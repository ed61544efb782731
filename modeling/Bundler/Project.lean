/-
A project: the settings of a build and what lasts from one cycle to the next.

Besides the configuration a project holds the collaborators of a build (resolvers, the atlas and
its encoder, the catalogue of messages) and what was found on the way: modules, scripts to be
taken over, assets, and the scripts kept for a bundle. What the build says goes to the log, and
what it writes to the output, where a write can fail; a failed write is logged and the build goes
on.

Names of files are relative to the project directory. A resource that a source file mentions is
looked for beside that file, unless it comes from a package or the configuration says otherwise.
-/
import Bundler.Bundle.Module
import Bundler.Catalogue
import Bundler.Failure
import Bundler.Resolver
import Bundler.Sprite.Atlas

set_option autoImplicit false

namespace Bundler

/-! ## Output -/

/-- What was written. -/
structure Output where
  /-- The last content of each file, in the order of their first writes. -/
  files : OrderedMap String Bytes
  /-- All writes, oldest first. -/
  writes : List (String × Bytes)
  /-- Names that cannot be written, and why. -/
  failing : List (String × String)
  deriving DecidableEq

namespace Output

/-- Nothing written. -/
def empty : Output := ⟨.empty, [], []⟩

instance : Inhabited Output := ⟨empty⟩

/-- Writes a file, or says why it cannot be written. -/
def write (o : Output) (path : String) (content : Bytes) : Except String Output :=
  match o.failing.lookup path with
  | some reason => .error reason
  | none =>
    .ok { o with files := o.files.insert path content, writes := o.writes ++ [(path, content)] }

end Output

/-! ## Projects -/

/-- Where an imported module was found. -/
structure ModuleInfo where
  /-- The file that says what the module exports. -/
  definition : String
  js : String
  /-- The script is taken over and not written by the build. -/
  declarationOnly : Bool
  /-- The module is imported by a relative path. -/
  relative : Bool
  deriving DecidableEq

/-- A message that could be translated: its text, its hint, and the file. -/
abbrev Report := String × Option String × String

/-- The settings of a build and what lasts between its cycles. -/
structure Project where
  config : Config
  /-- The project directory as it was given. -/
  dir : String
  modules : OrderedMap String ModuleInfo
  /-- Scripts to be taken over: source and output name. -/
  depJs : OrderedMap String String
  /-- Assets to be delivered: source and output name. -/
  depAssets : OrderedMap String String
  /-- What the asset calls of this cycle become. -/
  assetValues : OrderedMap String String
  /-- The style sheets that a page has to link. -/
  cssToLink : List String
  emitted : Modules
  bundleJs : Option String
  bundlePng : Option String
  /-- The page head with the names of assets filled in. -/
  htmlHead : String
  shortNames : ShortNames
  resolvers : List Resolver
  atlas : Atlas
  encoder : Option AtlasEncoder
  catalogue : Option Catalogue
  /-- Whether messages that could be translated are reported. -/
  reporting : Bool
  reports : List Report
  output : Output
  log : List String

namespace Project

/-- A project before the first cycle. -/
def ofConfig (config : Config) (dir : String) : Project :=
  { config, dir
    modules := .empty
    depJs := .empty
    depAssets := .empty
    assetValues := .empty
    cssToLink := []
    emitted := .empty
    bundleJs := none
    bundlePng := none
    htmlHead := ""
    shortNames := .ofConfig config
    resolvers := []
    atlas := .empty
    encoder := none
    catalogue := none
    reporting := false
    reports := []
    output := .empty
    log := [] }

instance : Inhabited Project := ⟨ofConfig .default ""⟩

/-! ## Names -/

/-- The project directory in normal form. -/
def directory (p : Project) : String := Path.normalize p.dir

/-- The path without the project directory. -/
def relativize (p : Project) (path : String) : Except Fault String :=
  Path.relativize p.directory path

/-- The path of a name in the project directory. -/
def absolute (p : Project) (name : String) : String := Path.join p.directory name

/-- The directory in which a resource is looked for that a source file mentions. -/
def resourceDir (p : Project) (source text : String) : String :=
  if p.config.resourcesInProjectDir || Text.startsWith text "node_modules/" then p.directory
  else Path.dirname (p.absolute source)

/-- The name of a resource that a source file mentions. -/
def resourceName (p : Project) (source text : String) : Except Fault String :=
  p.relativize (Path.join (p.resourceDir source text) text)

/-! ## Changes -/

/-- Says something. -/
def say (p : Project) (line : String) : Project := { p with log := p.log ++ [line] }

/-- Says that a file was not written, and why. -/
def refuse (p : Project) (path reason : String) : Project :=
  p.say ("Error: Cannot write " ++ path ++ ": " ++ reason)

/-- Writes a file. -/
def write (p : Project) (path : String) (content : Bytes) : Project :=
  match p.output.write path content with
  | .ok output => { p with output }
  | .error reason => p.refuse path reason

/-- The output name of a name. -/
def shorten (p : Project) (name : String) : String × Project :=
  let (short, shortNames) := p.shortNames.shorten name
  (short, { p with shortNames })

/-- The short name of a name. -/
def shortName (p : Project) (name : String) : String × Project :=
  let (short, shortNames) := p.shortNames.shortName name
  (short, { p with shortNames })

/-- Notes a script to be taken over under its own name. -/
def addDepJs (p : Project) (file : String) : Project :=
  { p with depJs := p.depJs.insert file file }

/-- Notes an asset to be delivered. -/
def addAsset (p : Project) (name output : String) : Project :=
  { p with depAssets := p.depAssets.insert name output }

/-- Starts a cycle: what belongs to one cycle is forgotten, and the bundle gets its name. -/
def beginCycle (p : Project) : Project :=
  let p := { p with assetValues := .empty, cssToLink := [] }
  if p.config.bundle == .none then { p with bundleJs := none }
  else
    let (name, p) := p.shorten "bundle.js"
    { p with bundleJs := some name }

/-- Forgets all modules, scripts and assets that were found, and all short names. -/
def clearMaps (p : Project) : Project :=
  { p with
    modules := .empty
    depJs := .empty
    depAssets := .empty
    emitted := .empty
    shortNames := .ofConfig p.config }

end Project

end Bundler

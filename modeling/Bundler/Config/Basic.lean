/-
The configuration of a build.

A configuration is a record with a default for every field, so that a file has to mention only
what differs. Values from the command line are laid over it. Two settings are read through a
function and not directly: the style policy, which takes its prefix from another field, and the
question whether scripts are written with source maps, which the bundle mode can answer alone.
-/
import Bundler.Json.Value
import Bundler.OrderedMap
import Bundler.Style

set_option autoImplicit false

namespace Bundler

/-- How scripts are packed. -/
inductive BundleMode where
  /-- A written file for each source file. -/
  | none
  /-- One file without a source map, dependencies first. -/
  | merged
  /-- One file with a composite source map. -/
  | fast
  deriving DecidableEq

/-- The name of a bundle mode. -/
def BundleMode.name : BundleMode → String
  | .none => "none"
  | .merged => "merged"
  | .fast => "fast"

/-- The bundle modes with their names. -/
def BundleMode.table : List (String × BundleMode) :=
  [BundleMode.none, .merged, .fast].map fun m => (m.name, m)

/-- Which style policy is asked for. -/
inductive StyleMode where
  | none
  | liveReload
  | debug
  | release
  | prefixed
  deriving DecidableEq

/-- The name of a style mode. -/
def StyleMode.name : StyleMode → String
  | .none => "none"
  | .liveReload => "liveReload"
  | .debug => "debug"
  | .release => "release"
  | .prefixed => "prefix"

/-- The style modes with their names. -/
def StyleMode.table : List (String × StyleMode) :=
  [StyleMode.none, .liveReload, .debug, .release, .prefixed].map fun m => (m.name, m)

/-- Values for exported constants, by name. -/
abbrev Constants := OrderedMap String Json

/-- The settings of a build. -/
structure Config where
  /-- The entry files, relative to the project directory. -/
  main : List String
  /-- The project directory. -/
  dir : Option String
  bundle : BundleMode
  /-- Put all sprites into one image. -/
  spriteMerge : Bool
  styleDefs : StyleMode
  /-- The prefix for the style modes that know one. -/
  stylePrefix : Option String
  /-- Write numbers for translated messages. -/
  compileMessages : Bool
  /-- Report every message that could be translated. -/
  reportUntranslated : Bool
  /-- Read the names of resources in the project directory, not beside the source file. -/
  resourcesInProjectDir : Bool
  /-- Leave comments and blank lines out of a merged bundle. -/
  compress : Bool
  /-- Give short names to the modules of a merged bundle. -/
  mangle : Bool
  /-- Leave the layout of a merged bundle as it is. -/
  beautify : Bool
  /-- The directory for shortened names. -/
  outputSubDir : Option String
  sourceMap : Bool
  /-- Write declaration files. -/
  declaration : Bool
  sourceRoot : Option String
  /-- Values for the free names of a merged bundle. -/
  defines : Constants
  /-- Values for exported constants, by module. -/
  constantOverrides : OrderedMap String Constants
  /-- The template of the page head. -/
  htmlHead : Option String
  /-- Where the command line writes to. -/
  outDir : Option String

namespace Config

/-- The settings where nothing is set. -/
def default : Config :=
  { main := []
    dir := none
    bundle := .none
    spriteMerge := false
    styleDefs := .none
    stylePrefix := none
    compileMessages := false
    reportUntranslated := false
    resourcesInProjectDir := false
    compress := true
    mangle := false
    beautify := false
    outputSubDir := none
    sourceMap := false
    declaration := false
    sourceRoot := none
    defines := .empty
    constantOverrides := .empty
    htmlHead := none
    outDir := none }

instance : Inhabited Config := ⟨default⟩

/-- Values that take the place of those of a file. -/
structure Overrides where
  main : Option (List String)
  dir : Option String
  bundle : Option BundleMode
  spriteMerge : Option Bool
  compress : Option Bool
  mangle : Option Bool
  beautify : Option Bool
  sourceMap : Option Bool
  outDir : Option String
  deriving DecidableEq

/-- No values. -/
def Overrides.none : Overrides :=
  ⟨.none, .none, .none, .none, .none, .none, .none, .none, .none⟩

/-- Lays values over a configuration. -/
def merge (c : Config) (o : Overrides) : Config :=
  { c with
    main := o.main.getD c.main
    dir := o.dir.or c.dir
    bundle := o.bundle.getD c.bundle
    spriteMerge := o.spriteMerge.getD c.spriteMerge
    compress := o.compress.getD c.compress
    mangle := o.mangle.getD c.mangle
    beautify := o.beautify.getD c.beautify
    sourceMap := o.sourceMap.getD c.sourceMap
    outDir := o.outDir.or c.outDir }

/-- The style policy of a configuration. -/
def stylePolicy (c : Config) : StylePolicy :=
  match c.styleDefs with
  | .none => .keep
  | .liveReload => .liveReload
  | .debug => .debug c.stylePrefix
  | .release => .release
  | .prefixed =>
    match c.stylePrefix with
    | some before => .prefixed before
    | none => .keep

/-- Whether scripts are written with source maps: never for a merged bundle, always for a fast
one. -/
def emitsSourceMaps (c : Config) : Bool :=
  match c.bundle with
  | .merged => false
  | .fast => true
  | .none => c.sourceMap

end Config

end Bundler

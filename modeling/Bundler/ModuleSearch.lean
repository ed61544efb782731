/-
Where an imported module is found.

A module is looked for under a base name, to which the known extensions are put in turn: a source
file of either kind, a declaration file whose script is there too, and a script alone. The last
two are not written by the build but taken over.

The base of a relative import is its path from the importing file. Any other import is looked for
in the directory of the importing file and then in each directory above it. Where nothing is found
the description of a package of that name says what its main file is, and that is the last base.
-/
import Bundler.Json.Decoder
import Bundler.Workspace

set_option autoImplicit false

namespace Bundler

/-- A module that was found. -/
structure FoundModule where
  /-- The file that says what the module exports. -/
  file : String
  /-- The name of the module in a bundle. -/
  id : String
  declarationOnly : Bool
  deriving DecidableEq

namespace ModuleSearch

open Workspace

/-! ## Directories and packages -/

/-- A directory and those above it, in `steps` steps at most. -/
def upwards : Nat → String → List String
  | 0, dir => [dir]
  | steps + 1, dir =>
    let above := Path.dirname dir
    if above == dir then [dir] else dir :: upwards steps above

/-- A directory and all above it. -/
def ancestors (dir : String) : List String := upwards dir.length dir

/-- The description of a package: its main file, if it names one. -/
def packageFields : List (Json.Decoder.RecordField (Option String)) :=
  [{ Json.Decoder.RecordField.withDefault "main" (Json.Decoder.option Json.Decoder.string)
      (fun v _ => v) with optional := false }]

/-- Reads the description of a package. -/
def readPackage (text : String) : Except Json.ReadError (Option String) :=
  (Json.Decoder.record "struct PackageJson" packageFields none).run text

/-! ## Candidates -/

/-- Notes under which name a module was found. -/
def record (key : String) (info : ModuleInfo) : Step Workspace Unit :=
  changeProject fun p => { p with modules := p.modules.insert key info }

/-- Notes a module whose script is taken over. -/
def recordTakenOver (key base definition js : String) (relative : Bool) :
    Step Workspace FoundModule := do
  changeProject (·.addDepJs js)
  record key ⟨definition, js, true, relative⟩
  return ⟨definition, base, true⟩

/-- Looks for a source file under a base name. -/
def findSource (key base js : String) (relative : Bool) :
    List String → Step Workspace (Option FoundModule)
  | [] => return none
  | ext :: exts => do
    let file := base ++ ext
    if ← exists? file then
      record key ⟨file, js, false, relative⟩
      return some ⟨file, base, false⟩
    else findSource key base js relative exts

/-- Looks for a module under a base name. -/
def findAt (key base : String) (relative : Bool) : Step Workspace (Option FoundModule) := do
  let js := base ++ ".js"
  if let some found ← findSource key base js relative [".ts", ".tsx"] then return some found
  let declaration := base ++ ".d.ts"
  if ← exists? declaration then
    if ← exists? js then return some (← recordTakenOver key base declaration js relative)
  if ← exists? js then return some (← recordTakenOver key base js js relative)
  return none

/-- Looks for a module in directories. -/
def findIn (specifier : String) : List String → Step Workspace (Option FoundModule)
  | [] => return none
  | dir :: dirs => do
    if let some found ← findAt specifier (Path.join dir specifier) false then return some found
    findIn specifier dirs

/-! ## Imports -/

/-- Says that a module was not found, if it was not. -/
def orSay (specifier file : String) (found : Option FoundModule) :
    Step Workspace (Option FoundModule) := do
  if found.isNone then say ("Module " ++ specifier ++ " is not valid in " ++ file)
  return found

/-- Looks for a module by its path from the importing file. -/
def findRelative (specifier file : String) : Step Workspace (Option FoundModule) := do
  if Text.occursIn ['/', '/'] specifier.toList then
    say ("Import " ++ specifier ++ " contains two slashes in row in " ++ file)
  let base := Path.join (Path.dirname file) specifier
  orSay specifier file (← findAt base base true)

/-- Looks for a module by the description of its package. Without a description nothing is said. -/
def findPackage (specifier file : String) : Step Workspace (Option FoundModule) := do
  let package := "node_modules/" ++ specifier ++ "/package.json"
  match (← entry (← content package)).text? with
  | none => return none
  | some text =>
    match readPackage text with
    | .error e =>
      say ("Cannot parse " ++ package ++ " " ++ e.message)
      return none
    | .ok main =>
      let base := Path.join ("node_modules/" ++ specifier)
        (Path.stripExtension (main.getD "index.js"))
      orSay specifier file (← findAt specifier base false)

/-- Looks for the module that a file imports. -/
def find (specifier file : String) : Step Workspace (Option FoundModule) := do
  if Text.startsWith specifier "." then findRelative specifier file
  else
    if let some found ← findIn specifier (ancestors (Path.dirname file)) then return some found
    findPackage specifier file

end ModuleSearch

end Bundler

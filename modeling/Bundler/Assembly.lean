/-
Assembly: what is delivered beside the written scripts.

When all scripts are written, three things are left. Scripts that are taken over are copied, or
become modules of the bundle. Style sheets get their references looked through, and all assets are
copied; a merged bundle has one style sheet, made of all. Then the bundle itself is written.

A file is copied when it is newer than its copy, which its stamp tells. References of style sheets
are assets too, found while the style sheets are processed, and copied along with the others.
-/
import Bundler.Bundle.Fast
import Bundler.Bundle.Merged
import Bundler.Stylesheet
import Bundler.Workspace

set_option autoImplicit false

namespace Bundler

namespace Assembly

open Workspace

/-! ## Scripts that are taken over -/

/-- Takes over the text of a script: as a module of the bundle, or as a copy. -/
def takeOver (bundled : Bool) (source output text : String) : Step Workspace Unit := do
  if bundled then
    let id ← Path.moduleId source
    changeProject fun p =>
      { p with emitted := p.emitted.insert id ⟨id, text, none, [], true⟩ }
  else write output (Text.toBytes text)

/-- Takes over one script, if there is reason to. -/
def copyScript (bundled : Bool) (script : String × String) : Step Workspace Unit := do
  let (source, output) := script
  let id ← existence source
  let e ← entry id
  if !e.found then say ("Error: Dependent " ++ source ++ " not found")
  else if bundled || e.needsCopy then
    onCache fun disk _ c => ((), c.ensureText disk id)
    match (← entry id).text? with
    | none => say ("Error: Dependent " ++ source ++ " failed to load")
    | some text =>
      takeOver bundled source output text
      changeEntry id fun e => { e with outputTime := e.textTime }

/-- Takes over all scripts. -/
def copyDependencyJs : Step Workspace Unit := do
  enter .dependencyCopy
  let p := (← get).project
  let bundled := p.config.bundle != .none
  p.depJs.toList.forM (copyScript bundled)

/-! ## Style sheets -/

/-- A style sheet that is there: its name, its entry, and whether it is newer than its copy. -/
structure Sheet where
  name : String
  id : Nat
  stale : Bool

/-- The style sheets among names that are there. -/
def findSheets : List String → Step Workspace (List Sheet)
  | [] => return []
  | name :: names => do
    if ← Path.isCss name then
      let id ← existence name
      let e ← entry id
      let rest ← findSheets names
      return if e.found then ⟨name, id, e.needsCopy⟩ :: rest else rest
    else findSheets names

/-- The text of a style sheet. -/
def sheetText (id : Nat) : Step Workspace (Option String) := do
  onCache fun disk _ c => ((), c.ensureBuffer disk id)
  return (← entry id).buffer?.map Text.ofBytes

/-- A reference of a style sheet: the file it leads to, and what follows the path. -/
def target (url sheet : String) : String × String :=
  let (path, suffix) := Stylesheet.splitSuffix url.toList
  (Path.join (Path.dirname sheet) (String.ofList path), String.ofList suffix)

/-- The reference of a merged style sheet to a file, which becomes an asset under its short
name. -/
def mergedReference (url sheet : String) : Step Project String := do
  let (file, suffix) := target url sheet
  let output ← modifyGet fun p => p.shorten file
  modify fun p => p.addAsset file output
  let short ← modifyGet fun p => p.shortName file
  return short ++ suffix

/-- The reference of a style sheet of its own, which stays; the file becomes an asset under its
own name, unless it is one already. -/
def plainReference (url sheet : String) : Step Project String := do
  let (file, _) := target url sheet
  modify fun p => { p with depAssets := p.depAssets.insertNew file file }
  return url

/-- The texts of style sheets that can be read, by name. -/
def sheetTexts : List Sheet → Step Workspace (List (String × String))
  | [] => return []
  | s :: ss => do
    let text ← sheetText s.id
    let rest ← sheetTexts ss
    match text with
    | some text => return (s.name, text) :: rest
    | none => return rest

/-- Writes the one style sheet of a merged bundle, if one of its parts is stale. -/
def mergeSheets (sheets : List Sheet) : Step Workspace Unit := do
  if sheets.isEmpty then return
  let output ← onProject (modifyGet fun p => p.shorten "bundle.css")
  if sheets.any (·.stale) then
    let sources ← sheetTexts sheets
    let css ← onProject (Stylesheet.concatenate sources mergedReference)
    write output (Text.toBytes css)
  changeProject fun p => { p with cssToLink := p.cssToLink ++ [output] }

/-- Writes a style sheet of its own, if it is stale. -/
def copySheet (s : Sheet) : Step Workspace Unit := do
  let output := ((← get).project.depAssets.get? s.name).getD s.name
  changeProject fun p => { p with cssToLink := p.cssToLink ++ [output] }
  if s.stale then
    match ← sheetText s.id with
    | none => return
    | some text =>
      let css ← onProject (Stylesheet.mapUrls text fun url => plainReference url s.name)
      write output (Text.toBytes css)

/-! ## Assets -/

/-- Copies an asset, if there is reason to. Style sheets and scripts are delivered elsewhere and
get their stamps here. -/
def copyAsset (asset : String × String) : Step Workspace Unit := do
  let (name, output) := asset
  let id ← existence name
  let e ← entry id
  if !e.found then say ("Error: Dependent " ++ name ++ " not found")
  else if e.needsCopy then
    onCache fun disk _ c => ((), c.ensureBuffer disk id)
    match (← entry id).buffer? with
    | none => say ("Error: Dependent " ++ name ++ " failed to load")
    | some bytes =>
      let elsewhere ← if ← Path.isCss name then pure true else Path.isJs name
      if !elsewhere then write output bytes
      changeEntry id fun e => { e with outputTime := e.current }

/-- Processes the style sheets and copies the assets. -/
def processAssets : Step Workspace Unit := do
  enter .assetProcessing
  let p := (← get).project
  let sheets ← findSheets p.depAssets.keys
  if p.config.bundle == .merged then mergeSheets sheets else sheets.forM copySheet
  (← get).project.depAssets.toList.forM copyAsset

/-! ## The bundle -/

/-- The scripts among assets, in order of discovery. -/
def scriptAssets : List String → Step Workspace (List Bytes)
  | [] => return []
  | name :: names => do
    if ← Path.isJs name then
      let id ← existence name
      onCache fun disk _ c => ((), c.ensureBuffer disk id)
      let bytes := (← entry id).buffer?
      let rest ← scriptAssets names
      return bytes.toList ++ rest
    else scriptAssets names

/-- The modules that a bundle runs: the entry files, without those that only declare. -/
def entryModules : List String → Except Fault (List String)
  | [] => .ok []
  | main :: mains => do
    if ← Path.isDeclaration main then entryModules mains
    else return (← Path.moduleId (Path.normalize main)) :: (← entryModules mains)

/-- Writes a merged bundle. -/
def writeMerged (output : String) (entries : List String) (blobs : List Bytes) :
    Step Workspace Unit := do
  let p := (← get).project
  let o : Bundle.MergedOptions :=
    ⟨p.config.compress, p.config.mangle, p.config.beautify, p.config.defines⟩
  write output (Bundle.merged p.emitted entries blobs o)

/-- Writes a fast bundle and its map. -/
def writeFast (output : String) (entries : List String) (blobs : List Bytes) :
    Step Workspace Unit := do
  let short ← onProject (modifyGet fun p => p.shortName "bundle.js")
  let p := (← get).project
  match Bundle.fast p.emitted entries blobs (Path.fileName output) (short ++ ".map")
      p.config.sourceRoot with
  | .error e => throw e
  | .ok bundle =>
    write (output ++ ".map") (Text.toBytes bundle.map)
    write output (Text.toBytes bundle.js)

/-- Writes the bundle, if there is to be one. -/
def assemble : Step Workspace Unit := do
  enter .bundleAssembly
  let p := (← get).project
  match p.bundleJs with
  | none => return
  | some output =>
    let entries ← entryModules p.config.main
    let blobs ← scriptAssets p.depAssets.keys
    match p.config.bundle with
    | .none => return
    | .merged => writeMerged output entries blobs
    | .fast => writeFast output entries blobs

end Assembly

end Bundler

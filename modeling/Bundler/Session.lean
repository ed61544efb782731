/-
Sessions: building again and again with as little work as possible.

A session runs cycles. A cycle first asks which entry files are stale, that is older than their
output or in a changed configuration; if none is, it ends. Otherwise the program is loaded, which
is every file that the entries lead to, imports before the files that import them. Its diagnostics
are gathered, and an error among them ends the cycle before anything is written. Then the
references of the whole program are collected, and the files whose output is not up to date are
written one by one, with edits that are taken back. At the end come assets and the bundle.

Loading goes down the imports and follows each file once. Every file further down is named by
an import of a file above it, so the number of imports in all texts bounds how far down it goes.
-/
import Bundler.Assembly
import Bundler.Config.Text
import Bundler.ModuleSearch
import Bundler.Page
import Bundler.Resources
import Bundler.Script.Reader
import Bundler.Script.Writer

set_option autoImplicit false

namespace Bundler

/-- What a cycle did. -/
structure CycleReport where
  /-- The entry files found stale. -/
  stale : List String
  /-- The files written, in order. -/
  emitted : List String
  errors : Nat
  warnings : Nat
  deriving DecidableEq

/-- Whether there was nothing to do. -/
def CycleReport.isUpToDate (r : CycleReport) : Bool := r.stale.isEmpty

/-- A workspace with what a session keeps between its cycles. -/
structure Session extends Workspace where
  messages : Messages
  /-- Whether the next cycle builds everything anew. -/
  force : Bool
  /-- The configuration of the last cycle, as a text. -/
  configText : Option String
  /-- The number of cycles without errors. -/
  liveReloadIndex : Nat

namespace Session

/-- A session before the first cycle. -/
def start (disk : Disk) (project : Project) : Session :=
  { Workspace.start disk project with
    messages := .empty
    force := false
    configText := none
    liveReloadIndex := 0 }

/-- A step of the workspace. -/
def onWorkspace {α : Type} (step : Step Workspace α) : Step Session α :=
  step.on (·.toWorkspace) fun s toWorkspace => { s with toWorkspace }

instance : MonadLift (EStateM Failure Workspace) (EStateM Failure Session) := ⟨onWorkspace⟩

/-- Changes the messages. -/
def changeMessages (f : Messages → Messages) : Step Session Unit :=
  modify fun s => { s with messages := f s.messages }

/-- Adds a message. -/
def tell (d : Diagnostic) : Step Session Unit := changeMessages (·.add d)

/-- Has everything built anew in the next cycle. -/
def forceNext (s : Session) : Session := { s with force := true }

/-- Forgets what was seen of the files, so that changes on the disk are noticed. -/
def clearProbes (s : Session) : Session := { s with cache := s.cache.clearProbes }

open Workspace

/-! ## Loading the program -/

/-- The error for a file that cannot be read. -/
def missingSource (file : String) : Diagnostic :=
  ⟨.error, file, .none, Diagnostic.missingSource, "Cannot read " ++ file⟩

/-- Reads the script of an entry anew, unless it is current. -/
def refreshScript (file : String) (id : Nat) : Step Workspace Unit := do
  let e ← entry id
  if !e.isSourceCurrent then
    let (script, diagnostics) ← Script.read file (e.text.getD "")
    changeEntry id fun e =>
      { e with script := some script, diagnostics, sourceTime := e.textTime }

/-- The imports of a script that are found. -/
def findImports (file : String) : List String → Step Workspace (List (String × String))
  | [] => return []
  | specifier :: rest => do
    let found ← ModuleSearch.find specifier file
    let others ← findImports file rest
    match found with
    | some m => return (specifier, m.file) :: others
    | none => return others

/-- Gathers the references of an entry anew, unless they are current. -/
def refreshReferences (file : String) (id : Nat) : Step Workspace Unit := do
  let e ← entry id
  if !e.isInfoCurrent then
    let imports := (e.script?.map (·.imports)).getD []
    let sourceDeps ← findImports file (imports.map (·.specifier))
    let p := (← get).project
    match (← entry id).script with
    | none => return
    | some script =>
      let refs ← References.gather script sourceDeps (p.resourceName file)
      changeEntry id fun e => { e with references := some refs, infoTime := e.current }

/-- Brings text, script and references of a file up to date: the files that it imports, or
nothing if it cannot be read. -/
def loadFile (file : String) : Step Session (Option (List String)) := do
  let id ← content file
  if !(← entry id).isTextCurrent then
    tell (missingSource file)
    return none
  refreshScript file id
  refreshReferences file id
  return some (((← entry id).references?.map References.files).getD [])

/-- The files met so far, in lower case, and the program so far. -/
structure Loaded where
  met : List String
  program : List String

/-- Loads a file behind those it imports, going down a number of steps at most. A script that is
imported is not part of the program. -/
def visit : Nat → Loaded → String → Step Session Loaded
  | 0, l, _ => return l
  | depth + 1, l, file => do
    if l.met.contains (Text.lower file) then return l
    let l := { l with met := Text.lower file :: l.met }
    changeMessages (·.clearFile file)
    match ← loadFile file with
    | none => return l
    | some deps =>
      let l ← deps.foldlM (fun l dep => do
        if ← Path.isJs dep then return l else visit depth l dep) l
      return { l with program := l.program ++ [file] }

/-- The number of imports that a text of some length can have: two kinds of them are looked for
at the start of each line. -/
def importBound (length : Nat) : Nat := 2 * (length + 1)

/-- The number of imports that an entry can lead to by what is cached of it. -/
def importsOf (e : Entry) : Nat :=
  ((e.references.map fun r => r.sourceDeps.length).getD 0) +
    ((e.script.map fun s => s.imports.length).getD 0) +
    ((e.text.map fun t => importBound t.length).getD 0)

/-- What the members of a list come to together. -/
def total {α : Type} (size : α → Nat) (xs : List α) : Nat := xs.foldr (fun x n => size x + n) 0

/-- The number of imports that the files of a disk can have. -/
def importsOn (disk : Disk) : Nat :=
  total (fun f : DiskFile => importBound f.content.length) disk.files.values

/-- A bound for the number of files that a program can have: the entry files, and the imports of
all that is cached and of all that is on the disk. -/
def fileBound (mains : List String) (w : Workspace) : Nat :=
  mains.length + total importsOf w.cache.entries + importsOn w.disk + 1

/-- Loads the program, and drops the messages of files that left it. -/
def loadProgram (mains : List String) : Step Session (List String) := do
  let depth := fileBound mains (← get).toWorkspace
  let l ← mains.foldlM (visit depth) ⟨[], []⟩
  changeMessages (·.retainFiles fun file => l.met.contains (Text.lower file))
  return l.program

/-- Gathers the diagnostics of a program. -/
def checkProgram (program : List String) : Step Session Unit := do
  let s ← get
  let entries := program.filterMap fun file =>
    (s.cache.find? s.project.dir file).map s.cache.entry
  changeMessages (·.addAll (entries.flatMap Entry.diagnostics))
  changeMessages (·.addAll (Script.check (entries.filterMap Entry.script?)))

/-! ## Values for constants -/

/-- A value for an exported constant of a file. -/
structure Override where
  constant : Nat
  value : Expr
  deriving DecidableEq

/-- Values for the constants of files. -/
abbrev FileOverrides := List (String × Override)

/-- The file with a module id. -/
def fileOfModule? (id : String) : List String → Except Fault (Option String)
  | [] => .ok none
  | file :: files => do
    if (← Path.moduleId file) == id then return some file else fileOfModule? id files

/-- The file that an override names by its module. -/
def overriddenFile? (program : List String) (module : String) : Step Workspace (Option String) := do
  match (← get).project.modules.get? module with
  | some info => return some info.definition
  | none => fileOfModule? module program

/-- The overrides of one file by the names of the constants. -/
def constantOverrides (script : Script) (file module : String) :
    List (String × Json) → Step Workspace FileOverrides
  | [] => return []
  | (name, value) :: rest => do
    match script.findConstant? name with
    | some constant =>
      return (file, ⟨constant, .ofJson value⟩) :: (← constantOverrides script file module rest)
    | none =>
      say ("Override " ++ name ++ " not found in " ++ module)
      constantOverrides script file module rest

/-- The overrides of one module. -/
def moduleOverrides (program : List String) (m : String × Constants) :
    Step Workspace FileOverrides := do
  let (module, constants) := m
  match ← overriddenFile? program module with
  | none =>
    say ("Override module " ++ module ++ " not found")
    return []
  | some file =>
    let w ← get
    let script := (w.cache.find? w.project.dir file).bind fun id => (w.cache.entry id).script?
    match script with
    | none => return []
    | some script => constantOverrides script file module constants.toList

/-- The constants that the configuration sets. -/
def prepareOverrides (program : List String) : Step Workspace FileOverrides := do
  let modules := (← get).project.config.constantOverrides
  return (← modules.toList.mapM (moduleOverrides program)).flatten

/-! ## The first pass -/

/-- Collects the references of a program. -/
def collectFrom : List String → Step Session Resources.Collected
  | [] => return .none
  | file :: files => do
    if ← Path.isDeclaration file then collectFrom files
    else
      let id ← onWorkspace (onCache fun _ dir c => c.get dir file)
      let e ← entry id
      let first ←
        match e.script?, e.references? with
        | some script, some refs => onWorkspace (onProject (Resources.collect file script refs))
        | _, _ => pure .none
      return first.append (← collectFrom files)

/-- Collects the references of a program and looks at the answers of the resolvers. -/
def collectProgram (program : List String) : Step Session Unit := do
  let collected ← collectFrom program
  changeMessages (·.addAll collected.diagnostics)
  let said ← onWorkspace <| onProject <| modifyGet fun p =>
    let (p, said) := Resources.settle p collected.pending
    (said, p)
  changeMessages (·.addAll said)

/-! ## The atlas -/

/-- The sizes of images by name. -/
def imageSizes : List String → Step Workspace (List (String × Nat × Nat))
  | [] => return []
  | name :: names => do
    let id ← bytes name
    let size := (← entry id).buffer?.bind pngSize?
    let rest ← imageSizes names
    return (size.map fun s => (name, s)).toList ++ rest

/-- Has the image of the sprites made and writes it. -/
def encodeAtlas (image : AtlasImage) (output : String) : Step Workspace Unit := do
  let w ← get
  match w.project.encoder with
  | none => return
  | some encode =>
    let read (name : String) : Option Bytes :=
      (w.cache.find? w.project.dir name).bind fun id => (w.cache.entry id).buffer?
    match encode image read with
    | .ok png => write output png
    | .error message => throw (.error (.atlas message))

/-- Lays the sprites out and writes their image, if they have changed. -/
def buildAtlas : Step Workspace Bool := do
  let p := (← get).project
  if !p.config.spriteMerge || !p.atlas.changed then return false
  let sizes ← imageSizes (p.atlas.current.map SpriteKey.name)
  let (image, atlas) ← p.atlas.build fun name => sizes.lookup name
  changeProject fun p => { p with atlas }
  let output ← onProject (modifyGet fun p => p.shorten "bundle.png")
  changeProject fun p => { p with bundlePng := some output }
  encodeAtlas image output
  return true

/-! ## The second pass -/

/-- How a file is written. In a bundle a module asks for the others by their module ids. -/
def writeOptions (config : Config) (refs : References) (jsName : String) :
    Except Fault Script.WriteOptions := do
  let moduleNames ←
    if config.bundle == .none then pure OrderedMap.empty
    else refs.sourceDeps.foldlM (fun (m : OrderedMap String String) d => do
      return m.insert d.1 (← Path.moduleId d.2)) .empty
  return {
    sourceMap := config.emitsSourceMaps
    declaration := config.declaration
    jsName
    sourceRoot := config.sourceRoot
    moduleNames }

/-- Sets the constants of a file. -/
def applyOverrides (e : Editing) : List Override → Except Fault Editing
  | [] => .ok e
  | o :: os => do applyOverrides (← e.setInit o.constant o.value) os

/-- Edits a script and writes it; the script itself stays as it is. -/
def render (file : String) (script : Script) (refs : References) (overrides : List Override)
    (o : Script.WriteOptions) : Step Project Script.Written := do
  let e ← applyOverrides (Editing.start script) overrides
  let e ← Resources.apply file refs e
  e.script.write o

/-- Keeps a written script as a module of the bundle. -/
def keepModule (file : String) (refs : References) (written : Script.Written) :
    Step Workspace Unit := do
  let sourceMap ←
    match written.sourceMap with
    | none => pure none
    | some text =>
      match SourceMap.ofJson text with
      | .ok m => pure (some m)
      | .error e => throw e
  let id ← Path.moduleId file
  let deps ← (refs.files.mapM Path.moduleId : Except Fault (List String))
  changeProject fun p =>
    { p with emitted := p.emitted.insert id ⟨id, written.js, sourceMap, deps, false⟩ }

/-- Delivers a written script. -/
def deliver (file jsName : String) (refs : References) (written : Script.Written) :
    Step Workspace Unit := do
  if let some text := written.declaration then
    write (Path.stripExtension jsName ++ ".d.ts") (Text.toBytes text)
  if (← get).project.config.bundle != .none then keepModule file refs written
  else
    if let some text := written.sourceMap then write (jsName ++ ".map") (Text.toBytes text)
    write jsName (Text.toBytes written.js)

/-- Writes a file. -/
def emitFile (id : Nat) (file : String) (overrides : List Override) : Step Workspace Unit := do
  let jsName ← Path.withJsExtension file
  let e ← entry id
  match e.references, e.script with
  | some refs, some script =>
    let o ← writeOptions (← get).project.config refs jsName
    let written ← onProject (render file script refs overrides o)
    deliver file jsName refs written
    changeEntry id Entry.stampOutput
  | _, _ => return

/-- Whether a file of the program has to be written. -/
def needsEmit (force atlasChanged : Bool) (e : Entry) : Bool :=
  let hasSprites := (e.references?.map fun r => !r.sprites.isEmpty).getD false
  force || !e.isOutputCurrent || (atlasChanged && hasSprites)

/-- Writes the files of the program that have to be written: which they were. Declaration files
and scripts are noted as done. -/
def emitProgram (force atlasChanged : Bool) (overrides : FileOverrides) :
    List String → Step Workspace (List String)
  | [] => return []
  | file :: files => do
    let id ← onCache fun _ dir c => c.get dir file
    let asIs ← if ← Path.isDeclaration file then pure true else Path.isJs file
    if asIs then
      changeEntry id Entry.stampOutput
      emitProgram force atlasChanged overrides files
    else if needsEmit force atlasChanged (← entry id) then
      emitFile id file ((overrides.filter fun o => o.1 == file).map Prod.snd)
      return file :: (← emitProgram force atlasChanged overrides files)
    else emitProgram force atlasChanged overrides files

/-! ## Cycles -/

/-- Works the freshness of files out in a new pass, whether they were written or not. -/
def refreshProgram (program : List String) : Step Workspace Unit := do
  onCache fun _ _ c => ((), c.clearFreshness)
  program.forM fun file => onCache fun disk dir c =>
    let (id, c) := c.get dir file
    let (_, c) := c.freshness disk dir true id
    ((), c)

/-- The entry files that are stale. -/
def staleMains (force : Bool) (mains : List String) : Step Workspace (List String) := do
  onCache fun _ _ c => ((), c.clearFreshness)
  mains.filterM fun main => onCache fun disk dir c =>
    let (id, c) := c.get dir main
    c.isStale disk dir false force id

/-- Forgets everything that a new build must not take over. -/
def startAnew : Step Session Unit := do
  modify fun s =>
    { s with
      cache := s.cache.forceRebuild
      messages := .empty
      project := s.project.clearMaps }

/-- Notes the configuration, and says whether everything is to be built anew: by request, or
because the configuration is not that of the last cycle. -/
def takeForce : Step Session Bool :=
  modifyGet fun s =>
    let text := s.project.config.toJson
    let differs := s.configText.any fun before => before != text
    (s.force || differs, { s with configText := some text, force := false })

/-- Ends a cycle. -/
def finish (stale emitted : List String) : Step Session CycleReport := do
  enter .done
  let messages := (← get).messages
  return ⟨stale, emitted, messages.errors, messages.warnings⟩

/-- Drops the modules of files that left the program. -/
def dropModules (program : List String) : Step Workspace Unit := do
  let ids ← (program.mapM Path.moduleId : Except Fault (List String))
  changeProject fun p =>
    { p with emitted := p.emitted.filter fun id m => m.copied || ids.contains id }

/-- Writes the program, its assets and its bundle: the files written. -/
def emitAll (force : Bool) (program : List String) : Step Session (List String) := do
  let overrides ← prepareOverrides program
  changeProject fun p =>
    if p.config.spriteMerge then { p with atlas := p.atlas.begin } else p
  collectProgram program
  let atlasChanged ← buildAtlas
  onWorkspace (onProject Page.expandHead)
  refreshProgram program
  enter .emit
  let emitted ← emitProgram force atlasChanged overrides program
  Assembly.copyDependencyJs
  Assembly.processAssets
  if (← get).project.config.bundle != .none then Assembly.assemble
  return emitted

/-- Runs a cycle. -/
def compile : Step Session CycleReport := do
  let force ← takeForce
  if force then startAnew
  enter .entrySelection
  changeProject Project.beginCycle
  let mains := (← get).project.config.main.map Path.normalize
  let stale ← staleMains force mains
  if stale.isEmpty then return ← finish [] []
  let program ← loadProgram mains
  dropModules program
  checkProgram program
  if (← get).messages.hasErrors then return ← finish stale []
  let emitted ← emitAll force program
  if !(← get).messages.hasErrors then
    modify fun s => { s with liveReloadIndex := s.liveReloadIndex + 1 }
  finish stale emitted

end Session

end Bundler

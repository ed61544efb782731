/-
A workspace: a project, the disk it is on, and what is cached of it.

The steps of a build change a workspace. A step can end early, by a fault or an error; what was
changed up to then stays changed. Steps that concern the project alone, or the cache alone, are
written for that part and used on the whole.

What a build writes is kept in the project. It can have a destination on the disk as well; then
every file is put there as soon as it is written, and a later step of the same build may read it.
-/
import Bundler.Cache.Freshness
import Bundler.Disk.Tree
import Bundler.Project

set_option autoImplicit false

namespace Bundler

/-- Where a cycle is. -/
inductive Phase where
  | idle
  | entrySelection
  | emit
  | dependencyCopy
  | assetProcessing
  | bundleAssembly
  | done
  deriving DecidableEq

/-- The name of a phase. -/
def Phase.name : Phase → String
  | .idle => "Idle"
  | .entrySelection => "EntrySelection"
  | .emit => "Emit"
  | .dependencyCopy => "DependencyCopy"
  | .assetProcessing => "AssetProcessing"
  | .bundleAssembly => "BundleAssembly"
  | .done => "Done"

/-- Where the output goes on the disk: the directory that one is in, and the output directory. -/
structure Destination where
  here : Place
  root : String
  deriving DecidableEq

/-- A path read in a directory: an absolute one stands for itself. -/
def Destination.under (dir path : String) : String :=
  if Text.startsWith path "/" then path else dir ++ "/" ++ path

/-- Puts a file below the output directory. -/
def Destination.put (t : Destination) (d : Disk) (path : String) (content : Bytes) :
    Except DiskError Disk :=
  d.create t.here (under t.root path) content

/-- What the steps of a build work on. -/
structure Workspace where
  disk : Disk
  cache : Cache
  project : Project
  phase : Phase
  /-- Where on the disk the output goes, if it goes there. -/
  destination : Option Destination

/-- A step that changes a state and may end early. -/
abbrev Step (σ α : Type) := EStateM Failure σ α

instance {σ : Type} : MonadLift (Except Fault) (EStateM Failure σ) where
  monadLift
    | .ok a => pure a
    | .error f => throw (.fault f)

/-- A step on a part of a state, as a step on the state. -/
def Step.on {σ τ α : Type} (part : τ → σ) (put : τ → σ → τ) (step : Step σ α) : Step τ α :=
  fun t =>
    match step (part t) with
    | .ok a s => .ok a (put t s)
    | .error e s => .error e (put t s)

namespace Workspace

/-- A workspace before the first step. -/
def start (disk : Disk) (project : Project) : Workspace :=
  ⟨disk, .empty, project, .idle, none⟩

/-- A step on the project. -/
def onProject {α : Type} (step : Step Project α) : Step Workspace α :=
  step.on (·.project) fun w project => { w with project }

/-- Changes the project. -/
def changeProject (f : Project → Project) : Step Workspace Unit :=
  modify fun w => { w with project := f w.project }

/-- A change of the cache with an answer. -/
def onCache {α : Type} (f : Disk → String → Cache → α × Cache) : Step Workspace α :=
  modifyGet fun w =>
    let (a, cache) := f w.disk w.project.dir w.cache
    (a, { w with cache })

/-- Changes the entry with a number. -/
def changeEntry (id : Nat) (f : Entry → Entry) : Step Workspace Unit :=
  modify fun w => { w with cache := w.cache.modify id f }

/-- The entry with a number. -/
def entry (id : Nat) : Step Workspace Entry := do return (← get).cache.entry id

/-- The entry of a name, looked at. -/
def existence (name : String) : Step Workspace Nat :=
  onCache fun disk dir c => c.existence disk dir name

/-- The entry of a name with its text. -/
def content (name : String) : Step Workspace Nat :=
  onCache fun disk dir c => c.content disk dir name

/-- The entry of a name with its bytes. -/
def bytes (name : String) : Step Workspace Nat :=
  onCache fun disk dir c => c.bytes disk dir name

/-- Whether there is a file of that name. -/
def exists? (name : String) : Step Workspace Bool := do
  return (← entry (← existence name)).found

/-- Says something. -/
def say (line : String) : Step Workspace Unit := changeProject (·.say line)

/-- Writes a file. A file that cannot be put in its place on the disk is not written, and the
build goes on. -/
def write (path : String) (content : Bytes) : Step Workspace Unit :=
  modify fun w =>
    match w.destination.mapM fun t => t.put w.disk path content with
    | .ok disk => { w with disk := disk.getD w.disk, project := w.project.write path content }
    | .error e => { w with project := w.project.refuse path e.message }

/-- Goes on to a phase. -/
def enter (phase : Phase) : Step Workspace Unit := modify fun w => { w with phase }

end Workspace

end Bundler

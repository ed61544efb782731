/-
What a build knows about one file.

An entry holds what was made of a file: its text, its bytes, the script and its diagnostics, and
the references. Each of them carries a stamp that says from which state of the file it was made,
and it is handed out only as long as the stamp is the current one. Nothing has to be deleted when
a file changes: its time moves on, and what was made before falls silent.

Two more values tie a file to its imports. The output stamp says up to which time of the file and
its imports the written file is good, and the freshness is the newest of those times, worked out
once in every pass.
-/
import Bundler.Diagnostic
import Bundler.Reference
import Bundler.Text.Utf8

set_option autoImplicit false

namespace Bundler

/-- The state of a file at a time. -/
inductive Stamp where
  /-- Not looked at. -/
  | unset
  /-- There was no file, or it could not be read. -/
  | missing
  | at (time : Nat)
  deriving DecidableEq

namespace Stamp

/-- The time of a stamp that has one. -/
def time? : Stamp → Option Nat
  | .at t => some t
  | _ => none

/-- Whether the file was looked at. -/
def isSet : Stamp → Bool
  | .unset => false
  | _ => true

end Stamp

/-- The newest time of a file and all that it imports, as far as a pass knows it. -/
inductive Freshness where
  | unset
  /-- Being worked out further up; the time is the file's own. -/
  | inProgress (time : Nat)
  /-- A file is missing, or was never written. -/
  | unresolvable
  | at (time : Nat)
  deriving DecidableEq

namespace Freshness

/-- The time known so far. -/
def time? : Freshness → Option Nat
  | .inProgress t | .at t => some t
  | _ => none

end Freshness

/-- What is known about a file. -/
structure Entry where
  /-- The full path in the spelling that was met first, by which the file is read. -/
  fullName : String
  /-- The full path in lower case, by which the entry is found. -/
  key : String
  /-- The time of the file, once it was looked at. -/
  current : Stamp
  textTime : Stamp
  bufferTime : Stamp
  sourceTime : Stamp
  infoTime : Stamp
  outputTime : Stamp
  freshness : Freshness
  text : Option String
  buffer : Option Bytes
  script : Option Script
  diagnostics : List Diagnostic
  references : Option References
  deriving DecidableEq

namespace Entry

/-- An entry of which nothing is known. -/
def blank (fullName key : String) : Entry :=
  { fullName, key
    current := .unset
    textTime := .unset
    bufferTime := .unset
    sourceTime := .unset
    infoTime := .unset
    outputTime := .unset
    freshness := .unset
    text := none
    buffer := none
    script := none
    diagnostics := []
    references := none }

/-! ## What is current -/

/-- Whether there was a file when it was looked at. -/
def found (e : Entry) : Bool := e.current.time?.isSome

/-- Whether the text is that of the file. -/
def isTextCurrent (e : Entry) : Bool :=
  e.found && e.textTime == e.current && e.text.isSome

/-- Whether the bytes are those of the file. -/
def isBufferCurrent (e : Entry) : Bool :=
  e.found && e.bufferTime == e.current && e.buffer.isSome

/-- Whether the script is that of the file. -/
def isSourceCurrent (e : Entry) : Bool :=
  e.isTextCurrent && e.sourceTime == e.textTime && e.script.isSome

/-- Whether the references are those of the file. -/
def isInfoCurrent (e : Entry) : Bool :=
  e.found && e.infoTime == e.current && e.references.isSome

/-- The text, if it is current. -/
def text? (e : Entry) : Option String := if e.isTextCurrent then e.text else none

/-- The bytes, if they are current. -/
def buffer? (e : Entry) : Option Bytes := if e.isBufferCurrent then e.buffer else none

/-- The script, if it is current. -/
def script? (e : Entry) : Option Script := if e.isSourceCurrent then e.script else none

/-- The references, if they are current. -/
def references? (e : Entry) : Option References := if e.isInfoCurrent then e.references else none

/-- Whether the written file is as new as the file and all that it imports. -/
def isOutputCurrent (e : Entry) : Bool :=
  match e.freshness.time?, e.outputTime.time? with
  | some deps, some output => deps ≤ output
  | _, _ => false

/-- Whether the file is newer than its copy. -/
def needsCopy (e : Entry) : Bool :=
  match e.current.time?, e.outputTime.time? with
  | some now, some output => output < now
  | some _, none => true
  | none, _ => false

/-- Notes that the file was written, good up to the freshness or else to its own time. -/
def stampOutput (e : Entry) : Entry :=
  { e with
    outputTime :=
      match e.freshness.time? with
      | some t => .at t
      | none => e.current }

end Entry

end Bundler

/-
The cache: an entry for each file that a build has met.

A file is met by a name, which is completed with the project directory and brought into normal
form. Names that then differ in case only are one file. Entries are numbered in the order in which
they were met and are never taken away, so a number stays good.

Between two clearings a file is looked at once, and what was read of it is read again only when
the time has changed. The cache counts how often it read.
-/
import Bundler.Cache.Entry
import Bundler.Disk.Basic
import Bundler.Path

set_option autoImplicit false

namespace Bundler

/-- The entries of a build. -/
structure Cache where
  entries : List Entry
  /-- How many contents were asked for. -/
  reads : Nat
  deriving DecidableEq

namespace Cache

/-- A cache without entries. -/
def empty : Cache := ⟨[], 0⟩

instance : Inhabited Cache := ⟨empty⟩

/-! ## Entries -/

/-- The full path of a name in a directory. -/
def canonicalName (dir name : String) : String :=
  if Path.isAbsolute name then Path.normalize name else Path.join (Path.toSlash dir) name

/-- The number of the entry with a key. -/
def indexOf? (c : Cache) (key : String) : Option Nat :=
  c.entries.findIdx? fun e => e.key == key

/-- The number of the entry for a name, if there is one. -/
def find? (c : Cache) (dir name : String) : Option Nat :=
  c.indexOf? (Text.lower (canonicalName dir name))

/-- The number of the entry for a name, which is made if there is none. -/
def get (c : Cache) (dir name : String) : Nat × Cache :=
  let fullName := canonicalName dir name
  let key := Text.lower fullName
  match c.indexOf? key with
  | some id => (id, c)
  | none => (c.entries.length, { c with entries := c.entries ++ [.blank fullName key] })

/-- The entry with a number. -/
def entry (c : Cache) (id : Nat) : Entry :=
  c.entries[id]?.getD (.blank "" "")

/-- Changes the entry with a number. -/
def modify (c : Cache) (id : Nat) (f : Entry → Entry) : Cache :=
  { c with entries := c.entries.modify id f }

/-- Changes all entries. -/
def mapEntries (c : Cache) (f : Entry → Entry) : Cache :=
  { c with entries := c.entries.map f }

/-! ## Looking and reading -/

/-- Looks at the file of an entry, unless that was done since the last clearing. -/
def probe (disk : Disk) (c : Cache) (id : Nat) : Cache :=
  c.modify id fun e =>
    if e.current.isSet then e
    else
      match disk.modified? e.fullName with
      | some time => { e with current := .at time }
      | none => { e with current := .missing }

/-- Counts a read of a path, unless it fails at once. -/
def countRead (disk : Disk) (c : Cache) (path : String) : Cache :=
  if disk.refuses path then c else { c with reads := c.reads + 1 }

/-- Reads the text of an entry, unless it is current. -/
def ensureText (disk : Disk) (c : Cache) (id : Nat) : Cache :=
  let e := c.entry id
  if !e.found then c.modify id fun e => { e with textTime := .missing }
  else if e.isTextCurrent then c
  else
    let c := c.countRead disk e.fullName
    match disk.read? e.fullName with
    | some bytes =>
      c.modify id fun e => { e with text := some (Text.ofBytes bytes), textTime := e.current }
    | none => c.modify id fun e => { e with textTime := .missing }

/-- Reads the bytes of an entry, unless they are current. -/
def ensureBuffer (disk : Disk) (c : Cache) (id : Nat) : Cache :=
  let e := c.entry id
  if !e.found then c.modify id fun e => { e with bufferTime := .missing }
  else if e.isBufferCurrent then c
  else
    let c := c.countRead disk e.fullName
    match disk.read? e.fullName with
    | some bytes => c.modify id fun e => { e with buffer := some bytes, bufferTime := e.current }
    | none => c.modify id fun e => { e with bufferTime := .missing }

/-- The entry of a name, looked at. -/
def existence (disk : Disk) (dir : String) (c : Cache) (name : String) : Nat × Cache :=
  let (id, c) := c.get dir name
  (id, c.probe disk id)

/-- The entry of a name with its text. -/
def content (disk : Disk) (dir : String) (c : Cache) (name : String) : Nat × Cache :=
  let (id, c) := c.existence disk dir name
  (id, c.ensureText disk id)

/-- The entry of a name with its bytes. -/
def bytes (disk : Disk) (dir : String) (c : Cache) (name : String) : Nat × Cache :=
  let (id, c) := c.existence disk dir name
  (id, c.ensureBuffer disk id)

/-! ## Clearing -/

/-- Forgets what was seen of the files, so that they are looked at again. -/
def clearProbes (c : Cache) : Cache :=
  c.mapEntries fun e => { e with current := .unset }

/-- Forgets the freshness of all files, for a new pass. -/
def clearFreshness (c : Cache) : Cache :=
  c.mapEntries fun e => { e with freshness := .unset }

/-- Forgets references and output stamps, so that everything is built anew. -/
def forceRebuild (c : Cache) : Cache :=
  c.mapEntries fun e => { e with infoTime := .unset, outputTime := .unset }

end Cache

end Bundler

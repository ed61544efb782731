/-
The disk: files with contents and times.

A file is found by its path, where only the components count: separators in a row, a separator at
the end, and single dots behind the start make no difference, but case does. Every change takes
the next time of a clock, so a file written later is newer than all files written before.

Some files can be seen and not read. A read of such a file fails at once and is not counted as
one.
-/
import Bundler.OrderedMap
import Bundler.Text.Utf8

set_option autoImplicit false

namespace Bundler

/-- A path by its components. -/
structure DiskPath where
  absolute : Bool
  parts : List String
  deriving DecidableEq

/-- The components of a path. A dot at the start of a relative path is one. -/
def DiskPath.ofString (path : String) : DiskPath :=
  let absolute := path.toList.head? == some '/'
  let all := (Text.splitWhere (· == '/') path.toList).map String.ofList
  let parts := all.filter fun p => p != "" && p != "."
  if !absolute && all.head? == some "." then ⟨false, "." :: parts⟩ else ⟨absolute, parts⟩

/-- A file: when it was changed, and its content. -/
structure DiskFile where
  time : Nat
  content : Bytes
  deriving DecidableEq

/-- The files of a disk. -/
structure Disk where
  files : OrderedMap DiskPath DiskFile
  /-- The time of the last change. -/
  clock : Nat
  /-- Files that can be seen and not read. -/
  unreadable : List DiskPath
  deriving DecidableEq

namespace Disk

/-- A disk without files. -/
def empty : Disk := ⟨.empty, 0, []⟩

instance : Inhabited Disk := ⟨empty⟩

/-- Puts a file in a place. -/
def put (d : Disk) (place : DiskPath) (content : Bytes) : Disk :=
  let time := d.clock + 1
  { d with clock := time, files := d.files.insert place ⟨time, content⟩ }

/-- Writes a file. -/
def write (d : Disk) (path : String) (content : Bytes) : Disk :=
  d.put (.ofString path) content

/-- Makes a file new without changing its content. The clock goes on without a file, too. -/
def touch (d : Disk) (path : String) : Disk :=
  let time := d.clock + 1
  let key := DiskPath.ofString path
  match d.files.get? key with
  | some file =>
    { d with clock := time, files := d.files.insert key { file with time } }
  | none => { d with clock := time }

/-- Takes a file away. -/
def remove (d : Disk) (path : String) : Disk :=
  { d with files := d.files.filter fun key _ => key != .ofString path }

/-- Says which files cannot be read. -/
def setUnreadable (d : Disk) (paths : List String) : Disk :=
  { d with unreadable := paths.map DiskPath.ofString }

/-- When a file was changed. -/
def modified? (d : Disk) (path : String) : Option Nat :=
  (d.files.get? (.ofString path)).map DiskFile.time

/-- Whether a read of the path fails at once. -/
def refuses (d : Disk) (path : String) : Bool :=
  d.unreadable.contains (.ofString path)

/-- The content of a file. -/
def read? (d : Disk) (path : String) : Option Bytes :=
  if d.refuses path then none else (d.files.get? (.ofString path)).map DiskFile.content

end Disk

end Bundler

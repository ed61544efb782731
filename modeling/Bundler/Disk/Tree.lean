/-
The disk as a tree of directories.

A path is followed one name at a time, from the top or from the directory that one is in. An empty
name and a single dot stay, two dots go up, every other name goes down. What the path goes through
has to be a directory; only the place it ends at may be anything.

There is a directory wherever a file lies below it, and there are the directory that one is in and
all above it. A write makes the directories that it goes through, but it cannot make one out of a
file, nor a file out of a directory.

Names and paths are bounded in bytes, and no path has a zero character in it. A path out of these
bounds is refused as a whole, a name out of them where it is come to.
-/
import Bundler.Disk.Basic

set_option autoImplicit false

namespace Bundler

/-- Why a file cannot be read or written. -/
inductive DiskError where
  | notFound
  | alreadyThere
  | notDirectory
  | isDirectory
  /-- A name or a path is longer than can be. -/
  | nameTooLong
  /-- There is a zero character in the path. -/
  | zeroInPath
  /-- The content is no text. -/
  | notText
  deriving DecidableEq

/-- The message of an error. -/
def DiskError.message : DiskError → String
  | .notFound => "No such file or directory (os error 2)"
  | .alreadyThere => "File exists (os error 17)"
  | .notDirectory => "Not a directory (os error 20)"
  | .isDirectory => "Is a directory (os error 21)"
  | .nameTooLong => "File name too long (os error 36)"
  | .zeroInPath => "file name contained an unexpected NUL byte"
  | .notText => "stream did not contain valid UTF-8"

/-- A place in the tree: the names on the way to it from the top. -/
abbrev Place := List String

namespace Disk

/-! ## What is in a place -/

/-- The file in a place. -/
def file? (d : Disk) (place : Place) : Option DiskFile :=
  d.files.get? ⟨true, place⟩

/-- Whether a place is a directory, for someone who is in the directory `here`. -/
def isDirectory (d : Disk) (here place : Place) : Bool :=
  place.isPrefixOf here ||
    d.files.keys.any fun key => key.absolute && place.isPrefixOf key.parts && place != key.parts

/-! ## Following a path -/

/-- The place that a name leads to. -/
def next (place : Place) (name : String) : Place :=
  if name == "" || name == "." then place
  else if name == ".." then place.dropLast
  else place ++ [name]

/-- The number of bytes in the longest name. -/
def maxName : Nat := 255

/-- The number of bytes that no path reaches. -/
def pathBound : Nat := 4096

/-- Refuses a name that is too long. -/
def checkName (name : String) : Except DiskError Unit :=
  if maxName < name.utf8ByteSize then .error .nameTooLong else .ok ()

/-- Refuses a path that leads nowhere, whatever is on the disk. -/
def checkPath (path : String) : Except DiskError Unit :=
  if path.toList.contains (Char.ofNat 0) then .error .zeroInPath
  else if path.isEmpty then .error .notFound
  else if pathBound ≤ path.utf8ByteSize then .error .nameTooLong
  else .ok ()

/-- Goes through a place. With `make` a directory that is not there is made. -/
def enter (d : Disk) (here : Place) (make : Bool) (place : Place) : Except DiskError Unit :=
  if d.isDirectory here place then .ok ()
  else if (d.file? place).isSome then .error .notDirectory
  else if make then .ok ()
  else .error .notFound

/-- The place that names lead to from another place. -/
def follow (d : Disk) (here : Place) (make : Bool) : Place → List String → Except DiskError Place
  | place, [] => .ok place
  | place, [name] => do
    checkName name
    return next place name
  | place, name :: names => do
    checkName name
    d.enter here make (next place name)
    follow d here make (next place name) names

/-- The names of a path. -/
def names (path : String) : List String :=
  (Text.splitWhere (· == '/') path.toList).map String.ofList

/-- The place that a path leads to from the directory `here`. -/
def locate (d : Disk) (here : Place) (make : Bool) (path : String) : Except DiskError Place := do
  checkPath path
  d.follow here make (if Text.startsWith path "/" then [] else here) (names path)

/-! ## Reading and writing -/

/-- The content of the file that a path leads to. -/
def readFrom (d : Disk) (here : Place) (path : String) : Except DiskError Bytes := do
  let place ← d.locate here false path
  match d.file? place with
  | some file => return file.content
  | none => throw (if d.isDirectory here place then .isDirectory else .notFound)

/-- The text of the file that a path leads to. -/
def readText (d : Disk) (here : Place) (path : String) : Except DiskError String := do
  match Text.decode? (← d.readFrom here path) with
  | some cs => return String.ofList cs
  | none => throw .notText

/-- Whether a path leads to a file or a directory. -/
def leadsSomewhere (d : Disk) (here : Place) (path : String) : Bool :=
  match d.readFrom here path with
  | .ok _ | .error .isDirectory => true
  | .error _ => false

/-- Writes a file, where the directories on the way are made. -/
def create (d : Disk) (here : Place) (path : String) (content : Bytes) : Except DiskError Disk := do
  let place ← d.locate here true path
  if d.isDirectory here place || [some "", some ".", some ".."].contains (names path).getLast? then
    throw .isDirectory
  else return d.put ⟨true, place⟩ content

/-- The files that are new since another state of the disk or have another content, by name. -/
def changesSince (d before : Disk) : List (DiskPath × Bytes) :=
  (d.files.toList.map fun e => (e.1, e.2.content)).filter fun e =>
    (before.files.get? e.1).map DiskFile.content != some e.2

end Disk

end Bundler

/-
The program.

The build itself is a function of the disk. Here the disk is read as far as the answer depends on
it: the build is run with the files known so far, the files that it looked for are read, and this
is repeated until it looks for nothing new. Then the changes are written and the texts printed.
-/
import Bundler.CommandLine.Build

set_option autoImplicit false

namespace Bundler.Main

open CommandLine

/-- The content of a file, if it can be read. -/
def readFile? (path : String) : IO (Option Bytes) := do
  try
    return some (← IO.FS.readBinFile path).toList
  catch _ => return none

/-- Reads files onto a disk. -/
def load (disk : Disk) (paths : List String) : IO Disk :=
  paths.foldlM (fun disk path => do
    match ← readFile? path with
    | some content => return disk.write path content
    | none => return disk) disk

/-- Runs the program with all files that it looks for. -/
partial def runLoaded (s : Setting) (known words : List String) : IO (Disk × Outcome) := do
  let outcome := run s words
  let wanted := (outcome.probed.filter fun path => !known.contains path).eraseDups
  if wanted.isEmpty then return (s.disk, outcome)
  else runLoaded { s with disk := ← load s.disk wanted } (known ++ wanted) words

/-- Writes a file with the directories above it. A file that cannot be written is passed over. -/
def writeFile (place : DiskPath) (content : Bytes) : IO Unit := do
  try
    IO.FS.createDirAll ("/" ++ Text.join "/" place.parts.dropLast)
    IO.FS.writeBinFile ("/" ++ Text.join "/" place.parts) (ByteArray.mk content.toArray)
  catch _ => return

end Bundler.Main

/-- Runs the program on the arguments of the command line. -/
def main (words : List String) : IO UInt32 := do
  let here ← IO.currentDir
  let s : Bundler.CommandLine.Setting := ⟨Bundler.CommandLine.steps here.toString, .empty⟩
  let (disk, outcome) ← Bundler.Main.runLoaded s [] words
  for (place, content) in outcome.disk.changesSince disk do
    Bundler.Main.writeFile place content
  (← IO.getStdout).putStr outcome.stdout
  (← IO.getStderr).putStr outcome.stderr
  return outcome.code.toUInt32

/-
Paths of the files of a build, as texts with forward slashes.

A path is read as a list of components. `normalize` folds the components over a stack, where an
empty component or a single dot changes nothing and a double dot takes the last component away,
unless there is none left to take: then it stays in front of a relative path and is dropped from
an absolute one. `join` is `normalize` of the two paths with a slash between them, except that an
absolute second path stands for itself.

Two functions cut a path at a number of bytes counted from somewhere else: the test for an
extension counts the bytes of the extension back from the end, and `relativize` counts the bytes
of a lower-cased directory from the start. Both cuts can fall inside a character, and both are
then a fault.
-/
import Bundler.Fault
import Bundler.Text.Basic
import Bundler.Text.LowerCase

set_option autoImplicit false

namespace Bundler.Path

open Bundler.Text

/-! ## Separators and components -/

/-- A component of a path: the characters between two separators. -/
abbrev Component := List Char

/-- The component that names the directory above. -/
def above : Component := ['.', '.']

/-- The characters of a path with every backslash turned forward. -/
def slashed (p : List Char) : List Char :=
  p.map fun c => if c == '\\' then '/' else c

/-- The path with every backslash turned forward. -/
def toSlash (p : String) : String :=
  String.ofList (slashed p.toList)

/-- Whether a path starts at a root: a slash of either kind, or a drive letter and a colon. -/
def isAbsolute (p : String) : Bool :=
  match p.toList with
  | [] => false
  | c :: rest => c == '/' || c == '\\' || (c.isAlpha && rest.head? == some ':')

/-! ## Normal form -/

/-- Puts one component on the stack of those read so far, newest first. -/
def push (absolute : Bool) (stack : List Component) (part : Component) : List Component :=
  if part == [] || part == ['.'] then stack
  else if part == above then
    match stack with
    | [] => if absolute then [] else [above]
    | last :: rest => if last == above then above :: stack else rest
  else part :: stack

/-- The components of a path in normal form. -/
def components (absolute : Bool) (p : List Char) : List Component :=
  ((splitWhere (· == '/') p).foldl (push absolute) []).reverse

/-- The normal form of a path, on characters. -/
def normalizeChars (p : List Char) : List Char :=
  let p := slashed p
  let absolute := p.head? == some '/'
  let joined := List.intercalate ['/'] (components absolute p)
  if absolute then '/' :: joined else joined

/-- The path without empty components, single dots, and double dots that can be resolved. -/
def normalize (p : String) : String :=
  String.ofList (normalizeChars p.toList)

/-- The path that `relative` names when read in the directory `base`. -/
def join (base relative : String) : String :=
  if base.isEmpty || isAbsolute relative then normalize relative
  else normalize (base ++ "/" ++ relative)

/-! ## Parts of a path -/

/-- The directory of a path on characters: what stands before the last slash. -/
def dirnameChars (p : List Char) : List Char :=
  match splitLast? (· == '/') (slashed p) with
  | none => []
  | some ([], _) => ['/']
  | some (directory, _) => directory

/-- The directory of a path; empty for a bare file name. -/
def dirname (p : String) : String :=
  String.ofList (dirnameChars p.toList)

/-- The last component, behind the last separator of either kind. -/
def fileNameChars (p : List Char) : List Char :=
  match splitLast? (fun c => c == '/' || c == '\\') p with
  | some (_, name) => name
  | none => p

/-- The last component of a path. -/
def fileName (p : String) : String :=
  String.ofList (fileNameChars p.toList)

/-- The extension with its dot: from the last dot of the file name on, when something stands
before that dot; else empty. -/
def extension (p : String) : String :=
  match splitLast? (· == '.') (fileNameChars p.toList) with
  | some (_ :: _, ext) => String.ofList ('.' :: ext)
  | _ => ""

/-- The path up to the last dot behind its last slash, when something stands between them. -/
def stripExtension (p : String) : String :=
  let (directory, name) :=
    match splitLast? (· == '/') p.toList with
    | some (directory, name) => (directory ++ ['/'], name)
    | none => ([], p.toList)
  match splitLast? (· == '.') name with
  | some (c :: stem, _) => String.ofList (directory ++ c :: stem)
  | _ => p

/-! ## Tests for an extension -/

/-- Whether the last bytes of the path, as many as the extension has, are the extension with
case set aside. -/
def hasExtension (p ext : String) : Except Fault Bool :=
  let cs := p.toList
  let total := size cs
  let wanted := size ext.toList
  if wanted ≤ total then do
    let tail ← Fault.ofCut (dropBytes? (total - wanted) cs)
    return eqIgnoringAsciiCase tail ext.toList
  else return false

/-- A style sheet. -/
def isCss (p : String) : Except Fault Bool :=
  hasExtension p ".css"

/-- A file that is a script as it stands. -/
def isJs (p : String) : Except Fault Bool :=
  hasExtension p ".js"

/-- A file of type declarations only. -/
def isDeclaration (p : String) : Except Fault Bool :=
  hasExtension p ".d.ts"

/-- The path without its last `n` bytes. -/
def dropLastBytes (p : String) (n : Nat) : Except Fault String := do
  let cs := p.toList
  let kept ← Fault.ofCut (takeBytes? (size cs - n) cs)
  return String.ofList kept

/-- Whether the path ends in `ext` and is no declaration file. The second question is asked only
where the answer to the first is yes. -/
def isSource (p ext : String) : Except Fault Bool := do
  if ← hasExtension p ext then return !(← isDeclaration p)
  else return false

/-- The name of the script made from a source file: a trailing `.ts` or `.tsx` becomes `.js`,
but a declaration file keeps its name. -/
def withJsExtension (p : String) : Except Fault String := do
  if ← isSource p ".tsx" then
    return (← dropLastBytes p 4) ++ ".js"
  if ← isSource p ".ts" then
    return (← dropLastBytes p 3) ++ ".js"
  return p

/-- The name under which a file is known to the modules of a bundle: its path without the
extension, where the whole of `.d.ts` counts as one. -/
def moduleId (p : String) : Except Fault String := do
  if ← isDeclaration p then dropLastBytes p 5
  else return stripExtension p

/-! ## Relative to a directory -/

/-- The path without the directory in front of it, where case does not matter. A path outside
the directory stays as it is. As many bytes are cut off as the lower-cased directory has. -/
def relativize (directory p : String) : Except Fault String :=
  let head := lower (normalize directory) ++ "/"
  let p := toSlash p
  if startsWith (lower p) head then do
    let rest ← Fault.ofCut (dropBytes? (size head.toList) p.toList)
    return String.ofList rest
  else return p

end Bundler.Path

/-
Style definitions: what becomes of the names of styles.

A style call has the style, its hover form and its name as arguments, behind the parent style
where it has one. A policy decides about the name. For a release it is dropped; for debugging the
variable that holds the style names it; a prefix is put before every name, as text where the name
is known and as a sum where it is not; and for live reload the style is wrapped in a function, so
that it can be asked for again.
-/
import Bundler.Reference
import Bundler.Script.Edits

set_option autoImplicit false

namespace Bundler

/-- What becomes of style definitions. -/
inductive StylePolicy where
  | keep
  | liveReload
  | debug (before : Option String)
  | release
  | prefixed (before : String)
  deriving DecidableEq

namespace StylePolicy

/-- Puts a text before the name, as far as there is one. -/
def addPrefix (before : String) (call : Nat) (s : StyleUse) (e : Editing) :
    Except Fault Editing := do
  let index := References.styleNameIndex s.hasParent
  match s.name with
  | some name => e.setArgument call index (.str (before ++ name))
  | none =>
    let c ← e.call call
    match c.args[index]? with
    | some arg => e.setArgument call index (.concat (.str before) arg)
    | none => return e

/-- Sets the name as the last argument. -/
def setName (name : String) (call : Nat) (s : StyleUse) (e : Editing) : Except Fault Editing := do
  let index := References.styleNameIndex s.hasParent
  (← e.setArgumentCount call (index + 1)).setArgument call index (.str name)

/-- Edits one style call. -/
def apply (policy : StylePolicy) (call : Nat) (s : StyleUse) (e : Editing) :
    Except Fault Editing := do
  let c ← e.call call
  let skip := if s.hasParent then 1 else 0
  match policy with
  | .keep => return e
  | .liveReload =>
    let captured := (c.args.drop skip).take 2
    (← e.setArgument call skip (.lambda captured)).setArgument call (skip + 1) .null
  | .debug (some before) =>
    match s.name with
    | some name => setName (before ++ name) call s e
    | none => addPrefix before call s e
  | .debug none =>
    match s.name with
    | some name => if s.named then return e else setName name call s e
    | none => return e
  | .release =>
    if skip + 2 < c.args.length then e.setArgumentCount call (skip + 2) else return e
  | .prefixed before => addPrefix before call s e

end StylePolicy

end Bundler

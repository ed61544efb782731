/-
Reversible edits of a script.

A script is read once and written many times, each time with other values in its calls. So every
edit first puts on record what it is about to change. Undoing takes the records back from the
newest to the oldest, and after the last of them the script is what it was before the first edit,
whatever was edited, how often, and in which order.

An edit of a node that the script does not have is a fault; it changes nothing and leaves no
record.
-/
import Bundler.Script.Basic

set_option autoImplicit false

namespace Bundler

/-- What an edit was about to change. -/
inductive EditRecord where
  /-- A call as it was. -/
  | call (id : Nat) (before : Call)
  /-- The initializer of a constant as it was, and whether it had been edited. -/
  | constant (id : Nat) (init : Expr) (edited : Bool)
  deriving DecidableEq

/-- A script under edit, with the records of its edits, newest first. -/
structure Editing where
  script : Script
  records : List EditRecord
  deriving DecidableEq

namespace Editing

/-- A script before the first edit. -/
def start (s : Script) : Editing := ⟨s, []⟩

/-- The number of edits that can be undone. -/
def pending (e : Editing) : Nat := e.records.length

/-- The call with a number. -/
def call (e : Editing) (id : Nat) : Except Fault Call :=
  match e.script.calls[id]? with
  | some c => .ok c
  | none => .error .outOfRange

/-- The script with another call under a number. -/
def putCall (s : Script) (id : Nat) (c : Call) : Script :=
  { s with calls := s.calls.set id c }

/-- The script with another initializer under a number. -/
def putInit (s : Script) (id : Nat) (init : Expr) (edited : Bool) : Script :=
  { s with constants := s.constants.modify id fun c => { c with init, edited } }

/-- Edits a call. -/
def editCall (e : Editing) (id : Nat) (change : Call → Call) : Except Fault Editing := do
  let before ← e.call id
  return ⟨putCall e.script id { change before with edited := true }, .call id before :: e.records⟩

/-- A list cut or filled up with `null` to a length. -/
def resize (args : List Expr) (n : Nat) : List Expr :=
  args.take n ++ List.replicate (n - args.length) .null

/-- Renames the method of a call. -/
def setMethod (e : Editing) (id : Nat) (method : String) : Except Fault Editing :=
  e.editCall id fun c => { c with method }

/-- Replaces an argument of a call; arguments that are missing before it become `null`. -/
def setArgument (e : Editing) (id index : Nat) (value : Expr) : Except Fault Editing :=
  e.editCall id fun c =>
    let args := if c.args.length ≤ index then resize c.args (index + 1) else c.args
    { c with args := args.set index value }

/-- Cuts the arguments of a call, or fills them up with `null`, to a number. -/
def setArgumentCount (e : Editing) (id count : Nat) : Except Fault Editing :=
  e.editCall id fun c => { c with args := resize c.args count }

/-- Replaces the initializer of a constant. -/
def setInit (e : Editing) (id : Nat) (value : Expr) : Except Fault Editing :=
  match e.script.constants[id]? with
  | none => .error .outOfRange
  | some c =>
    .ok ⟨putInit e.script id value true, .constant id c.init c.edited :: e.records⟩

/-- Takes one edit back. -/
def undo (s : Script) : EditRecord → Script
  | .call id before => putCall s id before
  | .constant id init edited => putInit s id init edited

/-- The script with all edits taken back, the newest first. -/
def restored (e : Editing) : Script :=
  e.records.foldl undo e.script

/-- Takes all edits back. -/
def restore (e : Editing) : Editing := start e.restored

end Editing

end Bundler

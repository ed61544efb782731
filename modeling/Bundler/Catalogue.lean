/-
The catalogue of messages.

Every message with its hint has a number, given at its first use and never again to another. A
message also knows which files use it. That is counted anew for a file each time the file is
written: starting a file takes it off all messages, and each use puts it back on one.
-/

set_option autoImplicit false

namespace Bundler

/-- A message of the catalogue. -/
structure Message where
  message : String
  hint : Option String
  /-- Whether some use had parameters. -/
  withParams : Bool
  /-- The files that use the message. -/
  files : List String
  deriving DecidableEq

/-- Notes a use of a message in the current file, if there is one. -/
def Message.use (m : Message) (current : Option String) (withParams : Bool) : Message :=
  let files :=
    match current with
    | some file => if m.files.contains file then m.files else m.files ++ [file]
    | none => m.files
  { m with withParams := m.withParams || withParams, files }

/-- Messages by number. -/
structure Catalogue where
  /-- The messages in the order of their numbers. -/
  toList : List Message
  /-- The file that is being written. -/
  current : Option String
  deriving DecidableEq

namespace Catalogue

/-- A catalogue without messages. -/
def empty : Catalogue := ⟨[], none⟩

instance : Inhabited Catalogue := ⟨empty⟩

/-- The number of messages. -/
def size (c : Catalogue) : Nat := c.toList.length

/-- The message with a number. -/
def message? (c : Catalogue) (id : Nat) : Option Message := c.toList[id]?

/-- The number of a message. -/
def idOf? (c : Catalogue) (message : String) (hint : Option String) : Option Nat :=
  c.toList.findIdx? fun m => m.message == message && m.hint == hint

/-- Starts a file, which from now on uses no message. -/
def startFile (c : Catalogue) (file : String) : Catalogue :=
  { toList := c.toList.map fun m => { m with files := m.files.filter (· != file) }
    current := some file }

/-- Ends the file. -/
def finishFile (c : Catalogue) : Catalogue := { c with current := none }

/-- Notes a use: the number of the message. -/
def add (c : Catalogue) (message : String) (withParams : Bool) (hint : Option String) :
    Nat × Catalogue :=
  match c.idOf? message hint with
  | some id => (id, { c with toList := c.toList.modify id fun m => m.use c.current withParams })
  | none =>
    let m := Message.use ⟨message, hint, withParams, []⟩ c.current withParams
    (c.size, { c with toList := c.toList ++ [m] })

end Catalogue

end Bundler

/-
Diagnostics: what a build has to say about the user's files.

A diagnostic names a file and a span in it, a code and a text. The messages of a build are kept
in one list in the order in which they came, together with the numbers of errors and warnings
among them. The messages of a file leave the list when the file is looked at again, so no message
outlives the text that it speaks of; the counters go down by as many as leave.
-/
import Bundler.Span

set_option autoImplicit false

namespace Bundler

/-- How grave a diagnostic is. An error keeps the build from writing anything. -/
inductive Severity where
  | error
  | warning
  deriving DecidableEq

/-- A message about a place in a file. -/
structure Diagnostic where
  severity : Severity
  file : String
  span : Span
  /-- A short stable name for the kind of message. -/
  code : String
  message : String
  deriving DecidableEq

namespace Diagnostic

/-! ## The codes -/

/-- Two or more resolvers claimed one asset. -/
def multipleResolvers : String := "BB1"

/-- An asset name that is only known at run time. -/
def dynamicAsset : String := "BB2"

/-- A resolver claimed an asset and failed. -/
def resolverFailed : String := "BB3"

/-- A source file that cannot be read. -/
def missingSource : String := "KB1"

/-- A recognised call without its closing parenthesis. -/
def unterminatedCall : String := "KS1"

/-- One name exported twice by one file. -/
def duplicateExport : String := "KS2"

/-! ## Texts -/

/-- Whether the diagnostic is an error. -/
def isError (d : Diagnostic) : Bool :=
  d.severity == .error

/-- Code and message. -/
def text (d : Diagnostic) : String :=
  d.code ++ ": " ++ d.message

/-- The word for a severity. -/
def severityWord : Severity → String
  | .error => "error"
  | .warning => "warning"

/-- The diagnostic on one line: file, place, severity, code and message. -/
def render (d : Diagnostic) : String :=
  d.file ++ "(" ++ toString d.span.line ++ "," ++ toString d.span.column ++ "): " ++
    severityWord d.severity ++ " " ++ d.text

end Diagnostic

/-- The messages of a build with running counts. -/
structure Messages where
  errors : Nat
  warnings : Nat
  /-- The messages, oldest first. -/
  toList : List Diagnostic
  deriving DecidableEq

namespace Messages

/-- No messages. -/
def empty : Messages := ⟨0, 0, []⟩

instance : Inhabited Messages := ⟨empty⟩

/-- Appends one message and counts it. -/
def add (m : Messages) (d : Diagnostic) : Messages :=
  match d.severity with
  | .error => { m with errors := m.errors + 1, toList := m.toList ++ [d] }
  | .warning => { m with warnings := m.warnings + 1, toList := m.toList ++ [d] }

/-- Appends messages in order. -/
def addAll (m : Messages) (ds : List Diagnostic) : Messages :=
  ds.foldl add m

/-- How many of the messages have a severity. -/
def countOf (s : Severity) (ds : List Diagnostic) : Nat :=
  ds.countP fun d => d.severity == s

/-- Keeps the messages of the files that `keep` accepts, and takes the others off the counts. -/
def retainFiles (m : Messages) (keep : String → Bool) : Messages :=
  let dropped := m.toList.filter fun d => !keep d.file
  { errors := m.errors - countOf .error dropped
    warnings := m.warnings - countOf .warning dropped
    toList := m.toList.filter fun d => keep d.file }

/-- Drops the messages of one file. -/
def clearFile (m : Messages) (file : String) : Messages :=
  m.retainFiles fun name => name != file

/-- Whether an error is among the messages. -/
def hasErrors (m : Messages) : Bool :=
  0 < m.errors

/-- The messages of one file. -/
def ofFile (m : Messages) (file : String) : List Diagnostic :=
  m.toList.filter fun d => d.file == file

end Messages

end Bundler

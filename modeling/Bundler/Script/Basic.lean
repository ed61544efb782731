/-
Scripts: source files with the nodes that a build can address.

A script is its text together with the places in it that matter: the import statements, the calls
that refer to resources, and the exported constants and functions. Everything else is text that
passes through unchanged. Calls and constants carry a mark that says whether they were edited
since they were read; an unedited node is written as it stood in the text.
-/
import Bundler.Expr
import Bundler.Path
import Bundler.Span

set_option autoImplicit false

namespace Bundler

/-- A recognised call, such as `b.asset("x.png")`. -/
structure Call where
  /-- What stands before the point, for a method. -/
  object : Option String
  method : String
  args : List Expr
  span : Span
  /-- The variable that the result is assigned to. -/
  binding : Option String
  edited : Bool
  deriving DecidableEq

namespace Call

/-- The name that is called. -/
def callee (c : Call) : String :=
  match c.object with
  | some object => object ++ "." ++ c.method
  | none => c.method

/-- The text of the call. -/
def render (c : Call) : String :=
  c.callee ++ "(" ++ String.intercalate ", " (Expr.renderAll c.args) ++ ")"

end Call

/-- What an import statement brings into scope. -/
inductive Binding where
  /-- Nothing: the module is only run. -/
  | bare
  /-- The module as a whole, under a name. -/
  | whole (name : String)
  /-- The default export, under a name. -/
  | default (name : String)
  /-- Single exports, each as the exported and the local name. -/
  | named (names : List (String × String))
  deriving DecidableEq

/-- An import statement. -/
structure Import where
  specifier : String
  binding : Binding
  span : Span
  deriving DecidableEq

/-- An exported constant with its initializer. -/
structure ExportedConstant where
  name : String
  init : Expr
  /-- The two words in front of the name. -/
  keyword : Span
  initSpan : Span
  edited : Bool
  deriving DecidableEq

/-- An exported function. -/
structure ExportedFunction where
  name : String
  /-- The two words in front of the name. -/
  keyword : Span
  deriving DecidableEq

/-- A source file with its addressable nodes. -/
structure Script where
  file : String
  source : String
  imports : List Import
  calls : List Call
  constants : List ExportedConstant
  functions : List ExportedFunction
  deriving DecidableEq

namespace Script

/-- The place of the exported constant of that name among the constants. -/
def findConstant? (s : Script) (name : String) : Option Nat :=
  s.constants.findIdx? fun c => c.name == name

/-- The exported names, constants before functions, each with its keyword. -/
def exports (s : Script) : List (String × Span) :=
  s.constants.map (fun c => (c.name, c.keyword)) ++ s.functions.map fun f => (f.name, f.keyword)

/-- Whether the file holds type declarations only. -/
def isDeclarationFile (s : Script) : Except Fault Bool :=
  Path.isDeclaration s.file

end Script

end Bundler

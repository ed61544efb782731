/-
Failures: how a build ends without a result.

A build that fails has met a fault, a step that could not be carried out, or an error around the
user's files: something could not be read, the configuration or a source map is not what it
should be, or the image of the sprites could not be made. An error has a kind and a text; a fault
has neither, since nothing was said about it.
-/
import Bundler.Fault
import Bundler.Json.Error

set_option autoImplicit false

namespace Bundler

/-- Why a build was given up. -/
inductive BuildError where
  | io (text : String)
  | config (text : String)
  /-- A source map that is no JSON text of the right shape. -/
  | mapText (error : Json.ReadError)
  /-- A piece of the mappings of a source map that cannot be read. -/
  | mapping (segment : String)
  /-- The image of the sprites could not be made. -/
  | atlas (text : String)
  deriving DecidableEq

/-- The message of an error. -/
def BuildError.message : BuildError → String
  | .io text => "IO error: " ++ text
  | .config text => "Configuration error: " ++ text
  | .mapText e => "Invalid source map JSON: " ++ e.message
  | .mapping segment => "Invalid VLQ mapping segment '" ++ segment ++ "'"
  | .atlas text => "Sprite atlas build failed: " ++ text

/-- A fault or an error. -/
inductive Failure where
  | fault (f : Fault)
  | error (e : BuildError)
  deriving DecidableEq

namespace Failure

/-- A step that may fault, as a step that may fail. -/
def ofFault {α : Type} : Except Fault α → Except Failure α
  | .ok a => .ok a
  | .error f => .error (.fault f)

instance : MonadLift (Except Fault) (Except Failure) := ⟨ofFault⟩

end Failure

end Bundler

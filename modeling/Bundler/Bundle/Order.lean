/-
The order of the modules in a merged bundle.

A module is listed behind the modules that it asks for, as far as they do not ask for it in turn.
The walk goes from the entries in depth first; a name that was met before is not followed again,
and one without a module is met but not listed. A chain of names that were not met before has at
most one name without a module, at its end, so there is no chain longer than the number of modules
and one.

A few modules prepare the page for all others. If one of them is in the bundle, it is the first
entry.
-/
import Bundler.Bundle.Module
import Bundler.Text.Basic

set_option autoImplicit false

namespace Bundler.Bundle

/-! ## Entries -/

/-- Modules that run before all others: a part of a name to know them by, and the name. The first
that is found counts. -/
def shims : List (String × String) :=
  [("/bobriln/index", "node_modules/bobriln/index"), ("/bobril/index", "node_modules/bobril/index")]

/-- Whether a part occurs in the name of some module. -/
def hasName (modules : Modules) (part : String) : Bool :=
  modules.keys.any fun id => Text.occursIn part.toList ('/' :: id.toList)

/-- The entries with the module in front that runs before all others, if there is one. -/
def entryList (modules : Modules) (entries : List String) : List String :=
  match shims.find? fun s => hasName modules s.1 with
  | some (_, shim) =>
    if modules.contains shim && !entries.contains shim then shim :: entries else entries
  | none => entries

/-! ## Order -/

/-- The names met so far, and the modules listed so far. -/
structure Walk where
  met : List String
  listed : List String

/-- Lists a module behind those it asks for, going down a number of steps at most. -/
def visit (modules : Modules) : Nat → Walk → String → Walk
  | 0, w, _ => w
  | depth + 1, w, id =>
    if w.met.contains id then w
    else
      let w := { w with met := id :: w.met }
      match modules.get? id with
      | none => w
      | some m =>
        let w := m.deps.foldl (visit modules depth) w
        { w with listed := w.listed ++ [id] }

/-- The modules that entries lead to, each behind those it asks for. -/
def moduleOrder (modules : Modules) (entries : List String) : List String :=
  (entries.foldl (visit modules (modules.size + 1)) ⟨[], []⟩).listed

end Bundler.Bundle

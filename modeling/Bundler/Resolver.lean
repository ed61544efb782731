/-
Resolvers: who decides what an asset is called.

A build can be given resolvers, each of which may claim an asset and answer with a name for it or
with a failure. The answer can be there at once or be due at the end of the collection. All
resolvers are asked about every asset, and it is the number of claims that decides: nobody's asset
keeps its default name, one claim counts, and several are a conflict whatever they answer.
-/
import Bundler.ShortNames
import Bundler.Text.Printable

set_option autoImplicit false

namespace Bundler

/-- A resolver's answer: the name of the asset, or why there is none. -/
inductive Resolution where
  | ready (value : Except String String)
  /-- An answer that is looked at when all assets have been collected. -/
  | deferred (value : Except String String)

namespace Resolution

/-- The answer. -/
def settle : Resolution → Except String String
  | .ready value => value
  | .deferred value => value

/-- A description of the answer as far as it can be seen now. -/
def shown : Resolution → String
  | .ready (.ok value) => "Ready(Ok(" ++ Text.shown value ++ "))"
  | .ready (.error message) => "Ready(Err(" ++ Text.shown message ++ "))"
  | .deferred _ => "Deferred"

end Resolution

/-- A resolver. -/
structure Resolver where
  name : String
  /-- What the resolver says about an asset; it may ask for short names on the way. -/
  claim : Config → String → ShortNames → Option Resolution × ShortNames

namespace Resolver

/-! ## Ready-made resolvers -/

/-- A resolver that answers for every name with an ending, without short names. -/
def fixed (name ending : String) (answer : Resolution) : Resolver :=
  { name
    claim := fun _ asset short =>
      (if Text.endsWith asset ending then some answer else none, short) }

/-- A resolver that answers with a text and the short name of the asset, for every name with an
ending. `make` says whether that is an answer or a failure, and for when. -/
def appending (name ending before : String) (make : String → Resolution) : Resolver :=
  { name
    claim := fun _ asset short =>
      if Text.endsWith asset ending then
        let (s, short) := short.shortName asset
        (some (make (before ++ s)), short)
      else (none, short) }

/-! ## Asking all of them -/

/-- What all resolvers together say about an asset. -/
inductive Outcome where
  | unclaimed
  | resolved (resolver : String) (answer : Resolution)
  /-- The names of all that claim the asset. -/
  | conflict (resolvers : List String)

/-- The claims of resolvers on an asset, in order. -/
def claims (config : Config) (asset : String) :
    List Resolver → ShortNames → List (String × Resolution) × ShortNames
  | [], short => ([], short)
  | r :: rs, short =>
    let (answer, short) := r.claim config asset short
    let (rest, short) := claims config asset rs short
    match answer with
    | some a => ((r.name, a) :: rest, short)
    | none => (rest, short)

/-- The outcome for a number of claims. -/
def Outcome.ofClaims : List (String × Resolution) → Outcome
  | [] => .unclaimed
  | [(resolver, answer)] => .resolved resolver answer
  | several => .conflict (several.map Prod.fst)

/-- Asks all resolvers about an asset. -/
def ask (resolvers : List Resolver) (config : Config) (asset : String) (short : ShortNames) :
    Outcome × ShortNames :=
  let (found, short) := claims config asset resolvers short
  (Outcome.ofClaims found, short)

end Resolver

end Bundler

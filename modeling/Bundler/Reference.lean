/-
References: what the calls of a script ask of a build.

Six calls mean something to a build. An asset call names a file to be delivered, a sprite call a
piece of an image, a message call a message, and a style call a style that may carry a name.
Gathering looks at each call once, in the order of the text, so a reference knows its call by
number and the list of references is sorted by that number.

What a call asks for may only be known at run time. Then the name or message is absent and the
call stays as it is, apart from what is known of it.
-/
import Bundler.Script.Basic

set_option autoImplicit false

namespace Bundler

/-! ## The kinds of references -/

/-- The color that a sprite is asked for in. -/
inductive SpriteColor where
  /-- The image as it is. -/
  | plain
  | constant (color : String)
  /-- A color computed at run time. -/
  | dynamic
  deriving DecidableEq

/-- A piece of an image, as a call asks for it. -/
structure SpriteUse where
  /-- The image, when it is a constant. -/
  name : Option String
  color : SpriteColor
  width : Option Nat
  height : Option Nat
  x : Option Nat
  y : Option Nat
  deriving DecidableEq

/-- A text to be translated. -/
structure MessageUse where
  /-- The text, when it is a constant. -/
  message : Option String
  /-- What tells messages of one text apart. -/
  hint : Option String
  /-- The call formats its text and looks nothing up. -/
  formatOnly : Bool
  withParams : Bool
  deriving DecidableEq

/-- A style definition. -/
structure StyleUse where
  /-- The name given to the style, or else the variable it is assigned to. -/
  name : Option String
  /-- The name was given. -/
  named : Bool
  /-- The call has the parent style as its first argument. -/
  hasParent : Bool
  deriving DecidableEq

/-- What a call asks for. -/
inductive Use where
  | asset (name : Option String)
  | sprite (s : SpriteUse)
  | message (m : MessageUse)
  | style (s : StyleUse)
  deriving DecidableEq

/-- A call that asks for something, by its number. -/
structure Reference where
  call : Nat
  use : Use
  deriving DecidableEq

/-- What a script refers to. -/
structure References where
  /-- The imports that were found: specifier and file. -/
  sourceDeps : List (String × String)
  /-- The references in the order of the text. -/
  sites : List Reference
  deriving DecidableEq

namespace References

/-- The files that are imported. -/
def files (r : References) : List String := r.sourceDeps.map Prod.snd

/-- The assets with the numbers of their calls. -/
def assets (r : References) : List (Nat × Option String) :=
  r.sites.filterMap fun s =>
    match s.use with
    | .asset name => some (s.call, name)
    | _ => none

/-- The sprites with the numbers of their calls. -/
def sprites (r : References) : List (Nat × SpriteUse) :=
  r.sites.filterMap fun s =>
    match s.use with
    | .sprite u => some (s.call, u)
    | _ => none

/-- The messages with the numbers of their calls. -/
def messages (r : References) : List (Nat × MessageUse) :=
  r.sites.filterMap fun s =>
    match s.use with
    | .message u => some (s.call, u)
    | _ => none

/-- The styles with the numbers of their calls. -/
def styles (r : References) : List (Nat × StyleUse) :=
  r.sites.filterMap fun s =>
    match s.use with
    | .style u => some (s.call, u)
    | _ => none

/-! ## Gathering -/

/-- The largest number of pixels that can be asked for. -/
def maxPixels : Nat := pow2 32 - 1

/-- A number of pixels: a whole number that is not negative, where too large a number counts as
the largest. -/
def pixels? (args : List Expr) (index : Nat) : Option Nat :=
  ((args[index]?.bind Expr.asNumber?).bind Double.natural?).map (min maxPixels)

/-- The constant text among the arguments. -/
def text? (args : List Expr) (index : Nat) : Option String :=
  args[index]?.bind Expr.asString?

/-- The constant text among the arguments, as the name of a resource. -/
def resource? (resolve : String → Except Fault String) (args : List Expr) :
    Except Fault (Option String) :=
  match text? args 0 with
  | some text => (resolve text).map some
  | none => .ok none

/-- The color argument of a sprite call. -/
def colorOf (args : List Expr) : SpriteColor :=
  match args.drop 1 with
  | [] | .null :: _ => .plain
  | .raw text :: _ => if text == "undefined" then .plain else .dynamic
  | .str color :: _ => .constant color
  | _ => .dynamic

/-- The place of the name among the arguments of a style call. -/
def styleNameIndex (hasParent : Bool) : Nat :=
  if hasParent then 3 else 2

/-- What a style call asks for. -/
def styleOf (c : Call) (hasParent : Bool) : StyleUse :=
  let given := text? c.args (styleNameIndex hasParent)
  { name := given.or c.binding, named := given.isSome, hasParent }

/-- What a message call asks for. -/
def messageOf (c : Call) (formatOnly : Bool) : MessageUse :=
  let withParams :=
    match c.args.drop 1 with
    | [] | .null :: _ => false
    | _ => true
  { message := text? c.args 0, hint := text? c.args 2, formatOnly, withParams }

/-- What a call asks for, if anything. Names of resources are resolved as they are met. -/
def useOf? (resolve : String → Except Fault String) (c : Call) : Except Fault (Option Use) :=
  match c.object with
  | some object =>
    if object != "b" then .ok none
    else if c.method == "asset" then do
      return some (.asset (← resource? resolve c.args))
    else if c.method == "sprite" then do
      return some (.sprite {
        name := ← resource? resolve c.args
        color := colorOf c.args
        width := pixels? c.args 2
        height := pixels? c.args 3
        x := pixels? c.args 4
        y := pixels? c.args 5 })
    else if c.method == "styleDef" then .ok (some (.style (styleOf c false)))
    else if c.method == "styleDefEx" then .ok (some (.style (styleOf c true)))
    else .ok none
  | none =>
    if c.method == "t" then .ok (some (.message (messageOf c false)))
    else if c.method == "f" then .ok (some (.message (messageOf c true)))
    else .ok none

/-- The references of calls that are numbered from `id` on. -/
def sitesFrom (resolve : String → Except Fault String) :
    Nat → List Call → Except Fault (List Reference)
  | _, [] => .ok []
  | id, c :: cs => do
    let use ← useOf? resolve c
    let rest ← sitesFrom resolve (id + 1) cs
    match use with
    | some use => return ⟨id, use⟩ :: rest
    | none => return rest

/-- What a script refers to, given the files that its imports were found in and how a written
resource name is turned into the name of a file. -/
def gather (s : Script) (sourceDeps : List (String × String))
    (resolve : String → Except Fault String) : Except Fault References := do
  return ⟨sourceDeps, ← sitesFrom resolve 0 s.calls⟩

end References

end Bundler

/-
Resources: what the references of a build become.

This takes two passes. The first goes over all scripts of the program and collects: the sprites
for the atlas, and the assets with the answers of the resolvers. Then the answers that were due
are looked at. The second pass edits one script at a time, right before it is written: sprites,
assets, messages and styles, in this order, by edits that are taken back afterwards.

What is wrong with an asset is said at its call: that its name is not known, that several
resolvers claim it, or why the one that claims it failed.
-/
import Bundler.Diagnostic
import Bundler.Workspace

set_option autoImplicit false

namespace Bundler

namespace Resources

/-! ## Collecting -/

/-- An asset whose resolver has answered. -/
structure Pending where
  file : String
  span : Span
  name : String
  answer : Resolution

/-- What collecting yields besides the changes of the project. -/
structure Collected where
  diagnostics : List Diagnostic
  pending : List Pending

namespace Collected

/-- Nothing. -/
def none : Collected := ⟨[], []⟩

/-- A message and nothing else. -/
def say (d : Diagnostic) : Collected := ⟨[d], []⟩

/-- Both, one behind the other. -/
def append (a b : Collected) : Collected :=
  ⟨a.diagnostics ++ b.diagnostics, a.pending ++ b.pending⟩

end Collected

/-- The key of a sprite in the atlas. A color of the run time is none here. -/
def spriteKey (s : SpriteUse) (name : String) : SpriteKey :=
  { name
    color :=
      match s.color with
      | .constant color => some color
      | .plain | .dynamic => none
    width := s.width
    height := s.height
    x := s.x
    y := s.y }

/-- Puts the sprites of a script into the atlas, if there is to be one. -/
def collectSprites (refs : References) (p : Project) : Project :=
  if !p.config.spriteMerge then p
  else
    let keys := refs.sprites.filterMap fun (_, s) => s.name.map (spriteKey s)
    { p with atlas := keys.foldl Atlas.add p.atlas }

/-- Reports the messages of a script, if that is wanted. -/
def collectMessages (file : String) (refs : References) (p : Project) : Project :=
  if !(p.reporting && p.config.reportUntranslated) then p
  else
    let reports := refs.messages.filterMap fun (_, m) =>
      m.message.map fun text => (text, m.hint, file)
    { p with reports := p.reports ++ reports }

/-- The output name of an asset that nobody claims: style sheets and scripts keep their names. -/
def defaultName (name : String) : Step Project String := do
  if (← Path.isCss name) || (← Path.isJs name) then return name
  else modifyGet fun p => p.shorten name

/-- Collects an asset. -/
def collectAsset (file : String) (span : Span) (name : String) : Step Project Collected := do
  let outcome ← modifyGet fun p =>
    let (outcome, shortNames) := Resolver.ask p.resolvers p.config name p.shortNames
    (outcome, { p with shortNames })
  match outcome with
  | .unclaimed =>
    let output ← defaultName name
    modify fun p => { p.addAsset name output with assetValues := p.assetValues.insert name output }
    return .none
  | .resolved _ answer => return ⟨[], [⟨file, span, name, answer⟩]⟩
  | .conflict _ =>
    modify fun p => { p with assetValues := p.assetValues.insert name name }
    return .say ⟨.error, file, span, Diagnostic.multipleResolvers,
      "Multiple plugins handled asset " ++ name⟩

/-- Collects assets with the numbers of their calls. -/
def collectAssets (file : String) (script : Script) :
    List (Nat × Option String) → Step Project Collected
  | [] => return .none
  | (call, name) :: rest => do
    let span := (script.calls[call]?.map Call.span).getD .none
    let first ←
      match name with
      | some name => collectAsset file span name
      | none => pure (.say ⟨.warning, file, span, Diagnostic.dynamicAsset,
          "Used b.asset without compile time constant - ignoring"⟩)
    return first.append (← collectAssets file script rest)

/-- The first pass over a script. -/
def collect (file : String) (script : Script) (refs : References) : Step Project Collected := do
  modify (collectSprites refs)
  modify (collectMessages file refs)
  collectAssets file script refs.assets

/-- Looks at an answer: the value goes to the project, a failure is said. -/
def settleOne (p : Project) (a : Pending) : Project × List Diagnostic :=
  match a.answer.settle with
  | .ok value => ({ p with assetValues := p.assetValues.insert a.name value }, [])
  | .error message => (p, [⟨.error, a.file, a.span, Diagnostic.resolverFailed, message⟩])

/-- Looks at the answers that were due. -/
def settle : Project → List Pending → Project × List Diagnostic
  | p, [] => (p, [])
  | p, a :: as =>
    let (p, said) := settleOne p a
    let (p, rest) := settle p as
    (p, said ++ rest)

/-! ## Setting the calls -/

/-- Sets arguments from a place on. -/
def setArguments (call : Nat) : Nat → List Expr → Editing → Except Fault Editing
  | _, [], e => .ok e
  | index, v :: vs, e => do setArguments call (index + 1) vs (← e.setArgument call index v)

/-- Sets a sprite call to the area of the sprite in the atlas. A color of the run time stays
in front of it. -/
def placeSprite (call : Nat) (s : SpriteUse) (area : Placement) (e : Editing) :
    Except Fault Editing := do
  let c ← e.call call
  let numbers := [area.width, area.height, area.x, area.y].map Expr.ofNat
  match c.args.drop 1, s.color with
  | color :: _, .dynamic =>
    let e ← e.setMethod call "spritebc"
    let e ← setArguments call 0 (color :: numbers) e
    e.setArgumentCount call 5
  | _, _ =>
    let e ← e.setMethod call "spriteb"
    let e ← setArguments call 0 numbers e
    e.setArgumentCount call 4

/-- Sets a sprite call. Without an atlas the image is an asset of its own. -/
def applySprite (e : Editing) (site : Nat × SpriteUse) : Step Project Editing := do
  let (call, s) := site
  match s.name with
  | none => return e
  | some name =>
    let p ← get
    if p.config.spriteMerge then
      match p.atlas.query (spriteKey s name) with
      | none => return e
      | some area => placeSprite call s area e
    else
      let output ← modifyGet fun p => p.shorten name
      modify fun p => p.addAsset name output
      e.setArgument call 0 (.str output)

/-- Sets an asset call to the value of the asset, if it has one. -/
def applyAsset (values : OrderedMap String String) (e : Editing) (site : Nat × Option String) :
    Except Fault Editing :=
  match site.2.bind values.get? with
  | some value => e.setArgument site.1 0 (.str value)
  | none => .ok e

/-- Sets a message call to the number of its message. What follows the parameters is
dropped. -/
def applyMessage (state : Catalogue × Editing) (site : Nat × MessageUse) :
    Except Fault (Catalogue × Editing) := do
  let (catalogue, e) := state
  let (call, m) := site
  match m.message with
  | none => return (catalogue, e)
  | some text =>
    if m.formatOnly then return (catalogue, e)
    let (id, catalogue) := catalogue.add text m.withParams m.hint
    let e ← e.setArgument call 0 (.ofNat id)
    if 2 < (← e.call call).args.length then return (catalogue, ← e.setArgumentCount call 2)
    else return (catalogue, e)

/-- Sets the message calls of a script, if messages are translated. -/
def applyMessages (file : String) (refs : References) (e : Editing) : Step Project Editing := do
  let p ← get
  match p.catalogue with
  | none => return e
  | some catalogue =>
    if !p.config.compileMessages then return e
    let start := (catalogue.startFile file, e)
    let (catalogue, e) ← (refs.messages.foldlM applyMessage start : Except Fault _)
    set { p with catalogue := some catalogue.finishFile }
    return e

/-- The second pass over a script. -/
def apply (file : String) (refs : References) (e : Editing) : Step Project Editing := do
  let e ← refs.sprites.foldlM applySprite e
  let p ← get
  let e ← (refs.assets.foldlM (applyAsset p.assetValues) e : Except Fault Editing)
  let e ← applyMessages file refs e
  let policy := p.config.stylePolicy
  (refs.styles.foldlM (fun e (call, s) => policy.apply call s e) e : Except Fault Editing)

end Resources

end Bundler

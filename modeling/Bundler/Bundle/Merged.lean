/-
Merged bundles: one script, dependencies first, as short as is asked for.

The modules are written behind the loader in their order, and the entries are run at the end. The
modules can be given short names, which are numbers; scripts that were taken over keep theirs,
since what they ask for themselves is not known. A name is shortened where a module asks for it,
too. Then free names get their values, and either comments and blank lines go or just the lines
that name a source map. Scripts that are assets come in front of it all, byte for byte.
-/
import Bundler.Bundle.Order
import Bundler.Script.Pieces
import Bundler.SourceMap.Concat
import Bundler.Text.Utf8

set_option autoImplicit false

namespace Bundler.Bundle

/-- How a merged bundle is written. -/
structure MergedOptions where
  compress : Bool
  mangle : Bool
  beautify : Bool
  defines : OrderedMap String Json

/-- The short names of modules in order. -/
def shortNames (modules : Modules) (order : List String) : List (String × String) :=
  let own := order.filter fun id =>
    match modules.get? id with
    | some m => !m.copied
    | none => false
  own.zipIdx.map fun (id, n) => (id, String.ofList (Nat.toDigits 16 n))

/-- What a module is registered as. -/
def registeredName (names : List (String × String)) (id : String) : String :=
  (names.lookup id).getD id

/-- The call that asks for a module. -/
def requireText (id : String) : List Char :=
  ("require(" ++ Json.quote id ++ ")").toList

/-- The text of a module with short names for what it asks for. -/
def renamed (names : List (String × String)) (m : Module) : List Char :=
  m.deps.foldl (fun body dep =>
    match names.lookup dep with
    | some short => Text.replaceAll (requireText dep) (requireText short) body
    | none => body) m.js.toList

/-- A module as it is registered. -/
def registration (modules : Modules) (names : List (String × String)) (id : String) : String :=
  match modules.get? id with
  | none => ""
  | some m =>
    let body := renamed names m
    let ended := if body.getLast? == some '\n' then body else body ++ ['\n']
    moduleHead (Json.quote (registeredName names id)) ++ "\n" ++ String.ofList ended ++
      moduleEnd ++ "\n"

/-- The calls that run the entries, as far as they are modules. -/
def starts (modules : Modules) (names : List (String × String)) (entries : List String) : String :=
  String.join ((entries.filter modules.contains).map fun id =>
    start (registeredName names id) ++ "\n")

/-- A script without the lines that name a source map. -/
def withoutMapComments (js : String) : String :=
  let kept := (Text.lines js.toList).filter fun line =>
    !SourceMap.urlComment.toList.isPrefixOf line
  String.ofList (kept.flatMap fun line => line ++ ['\n'])

/-- The script of a merged bundle, before the scripts that come in front of it. -/
def mergedScript (modules : Modules) (entries : List String) (o : MergedOptions) : String :=
  let entries := entryList modules entries
  let order := moduleOrder modules entries
  let names := if o.mangle then shortNames modules order else []
  let code := "(function()\x7b\n" ++ loader ++
    String.join (order.map (registration modules names)) ++ starts modules names entries ++
    "\x7d)();\n"
  let code := Script.substituteDefines code o.defines
  if o.compress && !o.beautify then Script.stripComments code else withoutMapComments code

/-- The bytes of a merged bundle. -/
def merged (modules : Modules) (entries : List String) (blobs : List Bytes) (o : MergedOptions) :
    Bytes :=
  blobs.flatMap (fun blob => blob ++ [0x0a]) ++ Text.toBytes (mergedScript modules entries o)

end Bundler.Bundle

/-
The YAML text of a configuration.

The fields are those of the JSON text, and the nodes under them are read with less care for how
they are spelled: any scalar is a text where a text is wanted, and where nothing is written there
is an empty list or record. A field may be given once. What is given under another name is passed
over, whatever it is.
-/
import Bundler.Config.Text
import Bundler.Yaml.Document

set_option autoImplicit false

namespace Bundler

namespace Yaml

/-! ## Nodes under a field -/

/-- A flag, which is not written in quotes. -/
def bool? : Yaml → Option Bool
  | .scalar text true => flag? text
  | _ => none

/-- A text or nothing. -/
def optionalText? (v : Yaml) : Option (Option String) :=
  match v with
  | .scalar text plain => some (if plain && isNull text then none else some text)
  | _ => none

/-- One of several names. -/
def choice? {α : Type} (table : List (String × α)) (v : Yaml) : Option α :=
  v.text?.bind fun name => table.lookup name

/-- A list of texts. -/
def texts? : Yaml → Option (List String)
  | .scalar "" true => some []
  | .list items => items.mapM text?
  | _ => none

/-- The members of a record. Their keys are texts. -/
def members? : Yaml → Option (List (String × Yaml))
  | .scalar "" true => some []
  | .record members => members.mapM fun m => do return (← m.1.text?, m.2)
  | _ => none

/-- A record of values that are read alike; a later one takes the place of an earlier. -/
def map? {α : Type} (read : Yaml → Option α) (v : Yaml) : Option (OrderedMap String α) := do
  let members ← v.members?
  return OrderedMap.ofList (← members.mapM fun m => do return (m.1, ← read m.2))

end Yaml

namespace Config

open Yaml

/-- Reads one field into a configuration. A name that is no field changes nothing. -/
def setField (c : Config) (name : String) (v : Yaml) : Option Config :=
  match name with
  | "main" => return { c with main := ← v.texts? }
  | "dir" => return { c with dir := ← v.optionalText? }
  | "bundle" => return { c with bundle := ← v.choice? BundleMode.table }
  | "spriteMerge" => return { c with spriteMerge := ← v.bool? }
  | "styleDefs" => return { c with styleDefs := ← v.choice? StyleMode.table }
  | "stylePrefix" => return { c with stylePrefix := ← v.optionalText? }
  | "compileTranslations" => return { c with compileMessages := ← v.bool? }
  | "reportUntranslated" => return { c with reportUntranslated := ← v.bool? }
  | "resourcesAreRelativeToProjectDir" => return { c with resourcesInProjectDir := ← v.bool? }
  | "compress" => return { c with compress := ← v.bool? }
  | "mangle" => return { c with mangle := ← v.bool? }
  | "beautify" => return { c with beautify := ← v.bool? }
  | "outputSubDir" => return { c with outputSubDir := ← v.optionalText? }
  | "sourceMap" => return { c with sourceMap := ← v.bool? }
  | "declaration" => return { c with declaration := ← v.bool? }
  | "sourceRoot" => return { c with sourceRoot := ← v.optionalText? }
  | "defines" => return { c with defines := ← v.map? Yaml.toJson }
  | "constantOverrides" => return { c with constantOverrides := ← v.map? (Yaml.map? Yaml.toJson) }
  | "htmlHead" => return { c with htmlHead := ← v.optionalText? }
  | "outDir" => return { c with outDir := ← v.optionalText? }
  | _ => some c

/-- Whether a field is given twice. -/
def repeatsField (members : List (String × Yaml)) : Bool :=
  fields.any fun f => 1 < members.countP fun m => m.1 == f.name

/-- How many lists and records may lie in each other where a configuration is read. -/
def maxDepth : Nat := 128

/-- Whether the value of a field is nested too deeply. The configuration itself is one level. -/
def nestsTooDeep (members : List (String × Yaml)) : Bool :=
  members.any fun m => (fields.any fun f => f.name == m.1) && maxDepth ≤ m.2.depth

/-- The configuration that a node holds. -/
def ofNode? (root : Yaml) : Option Config := do
  let members ← root.members?
  if repeatsField members || nestsTooDeep members then none
  else members.foldlM (fun c m => c.setField m.1 m.2) default

/-- Reads the YAML text of a configuration. -/
def ofYaml (text : String) : Except BuildError Config :=
  match (Yaml.parse? text).bind ofNode? with
  | some c => .ok c
  | none => .error (.config "invalid configuration")

/-- Reads the text of a configuration in either form. -/
def parse (text : String) (json : Bool) : Except BuildError Config :=
  if json then ofJson text else ofYaml text

/-! ## A new configuration -/

/-- The file of a new project: one entry, an output directory, and the default of every other
field. -/
def starterText (main outDir : String) : String :=
  String.join <| [
    "main:", "- " ++ main, "dir: null", "bundle: none", "spriteMerge: false", "styleDefs: none",
    "stylePrefix: null", "compileTranslations: false", "reportUntranslated: false",
    "resourcesAreRelativeToProjectDir: false", "compress: true", "mangle: false",
    "beautify: false", "outputSubDir: null", "sourceMap: false", "declaration: false",
    "sourceRoot: null", "defines: \x7b\x7d", "constantOverrides: \x7b\x7d", "htmlHead: null",
    "outDir: " ++ outDir].map (· ++ "\n")

end Config

end Bundler

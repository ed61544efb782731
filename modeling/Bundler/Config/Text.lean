/-
The JSON text of a configuration.

Writing gives every field in the order of the record. Reading takes the fields in any order,
leaves the defaults for those that are not there, and passes over names that are no field.
-/
import Bundler.Config.Basic
import Bundler.Failure
import Bundler.Json.Decoder

set_option autoImplicit false

namespace Bundler.Config

/-! ## Writing -/

/-- The text of a list of values by name. -/
def constantsText (m : Constants) : String :=
  Json.renderFields (m.toList.map fun e => (e.1, e.2.render))

/-- The fields with their texts, in order. -/
def fieldTexts (c : Config) : List (String × String) :=
  [ ("main", Json.renderList (c.main.map Json.quote)),
    ("dir", Json.quoteOption c.dir),
    ("bundle", Json.quote c.bundle.name),
    ("spriteMerge", Json.render (.bool c.spriteMerge)),
    ("styleDefs", Json.quote c.styleDefs.name),
    ("stylePrefix", Json.quoteOption c.stylePrefix),
    ("compileTranslations", Json.render (.bool c.compileMessages)),
    ("reportUntranslated", Json.render (.bool c.reportUntranslated)),
    ("resourcesAreRelativeToProjectDir", Json.render (.bool c.resourcesInProjectDir)),
    ("compress", Json.render (.bool c.compress)),
    ("mangle", Json.render (.bool c.mangle)),
    ("beautify", Json.render (.bool c.beautify)),
    ("outputSubDir", Json.quoteOption c.outputSubDir),
    ("sourceMap", Json.render (.bool c.sourceMap)),
    ("declaration", Json.render (.bool c.declaration)),
    ("sourceRoot", Json.quoteOption c.sourceRoot),
    ("defines", constantsText c.defines),
    ("constantOverrides",
      Json.renderFields (c.constantOverrides.toList.map fun e => (e.1, constantsText e.2))),
    ("htmlHead", Json.quoteOption c.htmlHead),
    ("outDir", Json.quoteOption c.outDir) ]

/-- The JSON text of a configuration. -/
def toJson (c : Config) : String :=
  Json.renderFields c.fieldTexts

/-! ## Reading -/

open Json.Decoder in
/-- The fields of a configuration. -/
def fields : List (RecordField Config) :=
  [ .withDefault "main" (list string) fun v c => { c with main := v },
    .withDefault "dir" (option string) fun v c => { c with dir := v },
    .withDefault "bundle" (choice BundleMode.table) fun v c => { c with bundle := v },
    .withDefault "spriteMerge" bool fun v c => { c with spriteMerge := v },
    .withDefault "styleDefs" (choice StyleMode.table) fun v c => { c with styleDefs := v },
    .withDefault "stylePrefix" (option string) fun v c => { c with stylePrefix := v },
    .withDefault "compileTranslations" bool fun v c => { c with compileMessages := v },
    .withDefault "reportUntranslated" bool fun v c => { c with reportUntranslated := v },
    .withDefault "resourcesAreRelativeToProjectDir" bool
      fun v c => { c with resourcesInProjectDir := v },
    .withDefault "compress" bool fun v c => { c with compress := v },
    .withDefault "mangle" bool fun v c => { c with mangle := v },
    .withDefault "beautify" bool fun v c => { c with beautify := v },
    .withDefault "outputSubDir" (option string) fun v c => { c with outputSubDir := v },
    .withDefault "sourceMap" bool fun v c => { c with sourceMap := v },
    .withDefault "declaration" bool fun v c => { c with declaration := v },
    .withDefault "sourceRoot" (option string) fun v c => { c with sourceRoot := v },
    .withDefault "defines" (orderedMap value) fun v c => { c with defines := v },
    .withDefault "constantOverrides" (orderedMap (orderedMap value))
      fun v c => { c with constantOverrides := v },
    .withDefault "htmlHead" (option string) fun v c => { c with htmlHead := v },
    .withDefault "outDir" (option string) fun v c => { c with outDir := v } ]

/-- Reads the JSON text of a configuration. -/
def ofJson (text : String) : Except BuildError Config :=
  match (Json.Decoder.record "struct ProjectConfig" fields default).run text with
  | .ok c => .ok c
  | .error e => .error (.config e.message)

end Bundler.Config

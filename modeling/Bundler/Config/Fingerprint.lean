/-
The fingerprint of a configuration.

A configuration is known by the hash of its JSON text. The text gives every field, also those that
have their defaults, so two files that say the same in different words have one fingerprint.
-/
import Bundler.Config.Text
import Bundler.Hash.Blake3

set_option autoImplicit false

namespace Bundler.Config

/-- The fingerprint of a configuration, as hexadecimal digits. -/
def fingerprint (c : Config) : String :=
  Blake3.hex (Blake3.hash (Text.toBytes c.toJson))

end Bundler.Config

/-
Modules of a bundle, and the loader that runs them.

A bundle holds the written scripts of a build as modules, each under a name, in the order in which
they were written first. The loader is the start of every bundle. It keeps a table of functions by
name and runs a module when it is asked for the first time; a name that starts with a point is
read relative to the module that asks.
-/
import Bundler.OrderedMap
import Bundler.SourceMap.Basic

set_option autoImplicit false

namespace Bundler

/-- A script kept for a bundle. -/
structure Module where
  /-- The name of the module: its path without the extension. -/
  id : String
  js : String
  sourceMap : Option SourceMap
  /-- The names of the modules it asks for. -/
  deps : List String
  /-- A script that was taken over as it is. -/
  copied : Bool
  deriving DecidableEq

/-- The modules of a bundle by name. -/
abbrev Modules := OrderedMap String Module

namespace Bundle

/-- The lines of the loader. -/
def loaderLines : List String :=
  [
    "var R = (function (G) \x7b",
    "    var defs = \x7b\x7d, done = \x7b\x7d;",
    "    function norm(from, name) \x7b",
    "        if (name.charAt(0) !== \".\") return name;",
    "        var parts = from.split(\"/\");",
    "        parts.pop();",
    "        var segs = name.split(\"/\");",
    "        for (var i = 0; i < segs.length; i++) \x7b",
    "            if (segs[i] === \"..\") parts.pop();",
    "            else if (segs[i] !== \".\" && segs[i] !== \"\") parts.push(segs[i]);",
    "        \x7d",
    "        return parts.join(\"/\");",
    "    \x7d",
    "    function load(name) \x7b",
    "        var m = done[name];",
    "        if (m) return m.exports;",
    "        var f = defs[name];",
    "        if (!f) throw new Error(\"Module \" + name + \" not found\");",
    "        m = done[name] = \x7b exports: \x7b\x7d \x7d;",
    "        f.call(m.exports, function (n) \x7b return load(norm(name, n)); \x7d, m, " ++
      "m.exports, G);",
    "        return m.exports;",
    "    \x7d",
    "    function R(name, f) \x7b defs[name] = f; \x7d",
    "    R.r = load;",
    "    return R;",
    "\x7d)(typeof window !== \"undefined\" ? window : this);"
  ]

/-- The loader. -/
def loader : String :=
  String.join (loaderLines.map (· ++ "\n"))

/-- The line behind which the text of a module follows. -/
def moduleHead (name : String) : String :=
  "R(" ++ name ++ ",function(require, module, exports, global)\x7b"

/-- The line that ends a module. -/
def moduleEnd : String := "\x7d);"

/-- The line that runs a module. -/
def start (id : String) : String :=
  "R.r(" ++ Json.quote id ++ ");"

end Bundle

end Bundler

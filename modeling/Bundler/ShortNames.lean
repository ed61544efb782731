/-
Short names for the files of a merged bundle.

A merged bundle delivers its files under the names `a.png`, `b.png`, … in the order in which they
are first asked for. The part before the extension counts through all words over the letters a to
z, shorter ones first, and each word is used at most once with each extension. A few names are
taken from the start and stand for themselves. Names that differ in case only are one name, and a
name keeps what it got.

In every other mode a name stands for itself and nothing is remembered.
-/
import Bundler.Config.Basic
import Bundler.Path

set_option autoImplicit false

namespace Bundler

/-! ## Words -/

/-- A letter by its number below 26. -/
def letter (n : Nat) : Char :=
  Char.ofNat ('a'.toNat + n)

/-- The word with a number, where words are counted by length and then by alphabet. Behind the 26
words of one letter the numbers start anew for the words of two, hence the one that is taken off
before the rest is spelled. -/
def word (n : Nat) : List Char :=
  if n < 26 then [letter n] else word (n / 26 - 1) ++ [letter (n % 26)]
termination_by n
decreasing_by omega

/-! ## The assignment -/

/-- The short names given so far. -/
structure ShortNames where
  /-- Whether names are shortened at all. -/
  enabled : Bool
  /-- The directory of the shortened files. -/
  directory : Option String
  /-- The short name of each name, under its lower case. -/
  assigned : OrderedMap String String
  /-- The number of the next word to try. -/
  counter : Nat

namespace ShortNames

/-- Names that stand for themselves. -/
def reserved : List String := ["bundle.js", "bundle.css", "bundle.png"]

/-- The start of the assignment for a configuration. -/
def ofConfig (c : Config) : ShortNames :=
  let enabled := c.bundle == .merged
  { enabled
    directory := c.outputSubDir.filter fun d => !d.isEmpty
    assigned := if enabled then OrderedMap.ofList (reserved.map fun n => (n, n)) else .empty
    counter := 0 }

/-- The short name made of a word and an extension. -/
def candidate (n : Nat) (ext : String) : String :=
  String.ofList (word n) ++ ext

/-- The number of the first word from `n` on that makes a new name. Each of the names used rules
out one number at most, so as many steps as there are names are enough. -/
def firstFree (used : List String) (ext : String) : Nat → Nat → Nat
  | 0, n => n
  | steps + 1, n =>
    if used.contains (candidate n ext) then firstFree used ext steps (n + 1) else n

/-- The short name of a name, without the directory. -/
def shortName (s : ShortNames) (name : String) : String × ShortNames :=
  if !s.enabled then (name, s)
  else
    let key := Text.lower name
    match s.assigned.get? key with
    | some short => (short, s)
    | none =>
      let ext := Text.lower (Path.extension name)
      let n := firstFree s.assigned.values ext s.assigned.size s.counter
      let short := candidate n ext
      (short, { s with assigned := s.assigned.insert key short, counter := n + 1 })

/-- A short name in the directory of the shortened files. -/
def inDirectory (s : ShortNames) (short : String) : String :=
  match s.directory with
  | some directory => Text.trimSlashes directory ++ "/" ++ short
  | none => short

/-- The output name of a name. -/
def shorten (s : ShortNames) (name : String) : String × ShortNames :=
  if !s.enabled then (name, s)
  else
    let (short, s) := s.shortName name
    (s.inDirectory short, s)

end ShortNames

end Bundler

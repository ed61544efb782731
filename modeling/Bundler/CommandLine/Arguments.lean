/-
The arguments of the command line.

An option has a long name behind two hyphens, and some have a letter behind one. An option either
stands alone or has a value, which is attached with an equals sign, follows directly behind the
letter, or is the next word. Letters without values can share a hyphen. Every other word is a file,
and behind two hyphens alone all words are files.

No option is given twice, and no file name is empty. Help and version are answered as soon as they
are met, so what is wrong behind them does not matter, and what is wrong before them does.
-/
import Bundler.Text.Basic

set_option autoImplicit false

namespace Bundler.CommandLine

open Bundler.Text

/-! ## Options -/

/-- The options. -/
inductive Flag where
  | project
  | outDir
  | bundle
  | spriteMerge
  | noCompress
  | mangle
  | beautify
  | sourceMap
  | force
  | watch
  | start
  | pretty
  | diagnostics
  | help
  | version
  deriving DecidableEq

/-- What an option looks like. -/
structure Spelling where
  flag : Flag
  long : String
  letter : Option Char
  /-- What its value is called, if it has one. -/
  value : Option String
  about : String

/-- The spellings of all options. -/
def spellings : List Spelling :=
  [ ⟨.project, "project", some 'p', some "FILE",
      "Path to kiln.yaml (or kiln.json) configuration file"⟩,
    ⟨.outDir, "out-dir", none, some "DIR", "Output directory for built files"⟩,
    ⟨.bundle, "bundle", none, some "MODE", "Bundling mode (none, fast, merged)"⟩,
    ⟨.spriteMerge, "sprite-merge", none, none, "Merge sprites into one atlas image"⟩,
    ⟨.noCompress, "no-compress", none, none, "Keep comments and blank lines in bundles"⟩,
    ⟨.mangle, "mangle", none, none, "Shorten module names in merged bundles"⟩,
    ⟨.beautify, "beautify", none, none, "Keep bundle formatting untouched"⟩,
    ⟨.sourceMap, "source-map", none, none, "Generate source maps"⟩,
    ⟨.force, "force", none, none, "Rebuild everything regardless of timestamps"⟩,
    ⟨.watch, "watch", some 'w', none, "Watch the project directory and rebuild on changes"⟩,
    ⟨.start, "init", none, none, "Initialize a new Kiln project"⟩,
    ⟨.pretty, "pretty", none, none, "Pretty print diagnostics"⟩,
    ⟨.diagnostics, "diagnostics", none, none, "Show diagnostic codes"⟩,
    ⟨.help, "help", some 'h', none, "Print help"⟩,
    ⟨.version, "version", some 'V', none, "Print version"⟩ ]

/-- The option with a long name. -/
def ofLong? (name : String) : Option Spelling :=
  spellings.find? fun s => s.long == name

/-- The option with a letter. -/
def ofLetter? (letter : Char) : Option Spelling :=
  spellings.find? fun s => s.letter == some letter

/-! ## Arguments -/

/-- What was given. -/
structure Arguments where
  files : List String
  /-- The options with their values; the value of one that stands alone is empty. -/
  options : List (Flag × String)
  deriving DecidableEq

/-- What is asked for. -/
inductive Request where
  | build (a : Arguments)
  | help
  | version
  deriving DecidableEq

/-- What is wrong with the arguments. -/
inductive UsageError where
  | unknown (word : String)
  | repeated (option : String)
  | missingValue (option : String)
  | emptyValue (option : String)
  | unexpectedValue (option value : String)
  deriving DecidableEq

namespace Arguments

/-- Nothing given. -/
def none : Arguments := ⟨[], []⟩

/-- Whether an option was given. -/
def has (a : Arguments) (flag : Flag) : Bool :=
  a.options.any fun o => o.1 == flag

/-- The value of an option. -/
def value? (a : Arguments) (flag : Flag) : Option String :=
  a.options.lookup flag

/-- Takes a file. -/
def addFile (a : Arguments) (name : String) : Except UsageError Arguments :=
  if name.isEmpty then .error (.emptyValue "[FILE]...")
  else .ok { a with files := a.files ++ [name] }

/-- Takes an option. A path must not be empty; the bundling mode is looked at later. -/
def addOption (a : Arguments) (s : Spelling) (value : String) : Except UsageError Arguments :=
  if a.has s.flag then .error (.repeated ("--" ++ s.long))
  else if (s.flag == .project || s.flag == .outDir) && value.isEmpty then
    .error (.emptyValue ("--" ++ s.long))
  else .ok { a with options := a.options ++ [(s.flag, value)] }

end Arguments

/-! ## Reading words -/

/-- Whether a word cannot be the value of an option that stands before it. -/
def looksLikeOption (word : String) : Bool :=
  match word.toList with
  | ['-'] => false
  | '-' :: _ => true
  | _ => false

/-- How far the words were read: the request is complete, or it goes on, or an option waits for
its value. -/
inductive Reading where
  | answer (r : Request)
  | more (a : Arguments)
  | waiting (a : Arguments) (s : Spelling)

/-- Takes an option that stands alone. -/
def takeAlone (a : Arguments) (s : Spelling) : Except UsageError Reading := do
  let a ← a.addOption s ""
  match s.flag with
  | .help => return .answer .help
  | .version => return .answer .version
  | _ => return .more a

/-- Takes a word behind two hyphens. -/
def takeLong (a : Arguments) (word : List Char) : Except UsageError Reading := do
  let (name, attached) :=
    match splitOnce? ['='] word with
    | some (name, value) => (String.ofList name, some (String.ofList value))
    | none => (String.ofList word, none)
  match ofLong? name with
  | none => throw (.unknown ("--" ++ name))
  | some s =>
    match s.value, attached with
    | some _, some value => return .more (← a.addOption s value)
    | some _, none => return .waiting a s
    | none, some value => throw (.unexpectedValue ("--" ++ name) value)
    | none, none => takeAlone a s

/-- Takes letters behind one hyphen. -/
def takeLetters (a : Arguments) : List Char → Except UsageError Reading
  | [] => return .more a
  | c :: cs => do
    match ofLetter? c with
    | none => throw (.unknown (String.ofList ['-', c]))
    | some s =>
      match s.value, cs with
      | some _, [] => return .waiting a s
      | some _, '=' :: value => return .more (← a.addOption s (String.ofList value))
      | some _, value => return .more (← a.addOption s (String.ofList value))
      | none, _ =>
        match ← takeAlone a s with
        | .more a => takeLetters a cs
        | r => return r

/-- Takes a word. -/
def takeWord (a : Arguments) (word : String) : Except UsageError Reading :=
  match word.toList with
  | '-' :: '-' :: cs => takeLong a cs
  | '-' :: c :: cs => takeLetters a (c :: cs)
  | _ => (a.addFile word).map .more

/-- Reads words behind what was given so far. -/
def readWords : Arguments → List String → Except UsageError Request
  | a, [] => return .build a
  | a, word :: words => do
    if word == "--" then return .build (← words.foldlM Arguments.addFile a)
    match ← takeWord a word with
    | .answer r => return r
    | .more a => readWords a words
    | .waiting a s =>
      match words with
      | [] => throw (.missingValue ("--" ++ s.long))
      | value :: words =>
        if looksLikeOption value then throw (.missingValue ("--" ++ s.long))
        else readWords (← a.addOption s value) words

/-- Reads the arguments of the command line. -/
def read (words : List String) : Except UsageError Request :=
  readWords .none words

/-! ## Texts -/

/-- What the version option prints. -/
def versionText : String := "kiln 0.1.0\n"

/-- How the program is called. -/
def usageLine : String := "Usage: kiln [OPTIONS] [FILE]...\n"

/-- An option as it is written. -/
def Spelling.written (s : Spelling) : String :=
  let letter :=
    match s.letter with
    | some c => String.ofList ['-', c, ',', ' ']
    | none => "    "
  let value :=
    match s.value with
    | some name => " <" ++ name ++ ">"
    | none => ""
  letter ++ "--" ++ s.long ++ value

/-- What the help option prints. -/
def helpText : String :=
  let width := (spellings.map fun s => s.written.length).foldl max 0
  let line (s : Spelling) : String :=
    let pad := String.ofList (List.replicate (width - s.written.length + 2) ' ')
    "  " ++ s.written ++ pad ++ s.about ++ "\n"
  "Kiln - incremental builder for web front-end projects\n\n" ++ usageLine ++
    "\nArguments:\n  [FILE]...  Entry source files, relative to the project directory\n" ++
    "\nOptions:\n" ++ String.join (spellings.map line)

/-- What is said of wrong arguments. -/
def UsageError.message (e : UsageError) : String :=
  let cause :=
    match e with
    | .unknown word => "unexpected argument '" ++ word ++ "' found"
    | .repeated option => "the argument '" ++ option ++ "' cannot be used multiple times"
    | .missingValue option | .emptyValue option =>
      "a value is required for '" ++ option ++ "' but none was supplied"
    | .unexpectedValue option value =>
      "unexpected value '" ++ value ++ "' for '" ++ option ++ "' found; no more were expected"
  "error: " ++ cause ++ "\n\n" ++ usageLine ++ "\nFor more information, try '--help'.\n"

end Bundler.CommandLine

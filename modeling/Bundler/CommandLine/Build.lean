/-
The command line: one build, from the arguments to the exit code.

The program is called in a directory with a disk. The configuration comes from the file that is
named or from the first of two that is there, else it is the default; options and files of the
command line are laid over it. Then a session runs one cycle, which writes below the output
directory. Messages are shown with the line they are about. A file that cannot be written is
passed over.

What the program does to the disk is a function of the disk it finds. `probed` lists the files
that the answer depends on, so that whoever calls it knows when it has been given enough.
-/
import Bundler.CommandLine.Arguments
import Bundler.Config.Yaml
import Bundler.Disk.Tree
import Bundler.Session

set_option autoImplicit false

namespace Bundler.CommandLine

open Destination (under)

/-- What the program leaves behind. -/
structure Outcome where
  code : Nat
  stdout : String
  stderr : String
  disk : Disk
  /-- The files that were looked for, by their paths. -/
  probed : List String

/-- Where the program is called: the directory, and the disk. -/
structure Setting where
  here : Place
  disk : Disk

namespace Setting

/-- The path of the directory. -/
def path (s : Setting) : String :=
  "/" ++ Text.join "/" s.here

/-- Nothing but an exit code and texts. -/
def quit (s : Setting) (code : Nat) (stdout stderr : String) : Outcome :=
  ⟨code, stdout, stderr, s.disk, []⟩

/-- A failure, behind what was printed so far. -/
def fail (s : Setting) (printed text : String) : Outcome :=
  s.quit 1 printed ("Error: " ++ text ++ "\n")

end Setting

/-! ## A new project -/

/-- The files of a new project. -/
def starterFiles : List (String × String) :=
  [ ("src/app.ts", "import \x7b greeting \x7d from \"./greeting\";\n\n" ++
      "export const message = greeting(\"World\");\n"),
    ("src/greeting.ts",
      "export function greeting(name) \x7b return \"Hello, \" + name + \"!\"; \x7d\n") ]

/-- Writes the files of a new project, until one cannot be written. -/
def writeStarter (here : Place) : Disk → List (String × String) → Disk × Option DiskError
  | d, [] => (d, none)
  | d, (path, text) :: rest =>
    match d.create here path (Text.toBytes text) with
    | .ok d => writeStarter here d rest
    | .error e => (d, some e)

/-- Makes a new project. -/
def startProject (s : Setting) : Outcome :=
  let printed := "Initializing new Kiln project...\n"
  let text := Config.starterText "src/app.ts" "dist"
  match s.disk.create s.here "kiln.yaml" (Text.toBytes text) with
  | .error e =>
    s.fail printed ("Failed to write kiln.yaml: " ++ (BuildError.io e.message).message)
  | .ok disk =>
    let s := { s with disk }
    let printed := printed ++ "Created kiln.yaml\n"
    if (disk.file? (s.here ++ ["src"])).isSome then s.fail printed DiskError.alreadyThere.message
    else
      let printed := printed ++ "Created src/ directory\n"
      let (disk, error) := writeStarter s.here disk starterFiles
      let s := { s with disk }
      match error with
      | some e => s.fail printed e.message
      | none =>
        s.quit 0 (printed ++ "Created src/app.ts\n\nProject initialized successfully!\n" ++
          "Run 'kiln' to build it.\n") ""

/-! ## The configuration -/

/-- The names of a path without those that stay. -/
def steps (path : String) : List String :=
  (Disk.names path).filter fun name => name != "" && name != "."

/-- The directory of a configuration file. -/
def parentOf (dir path : String) : String :=
  let parent := Text.join "/" (steps path).dropLast
  if Text.startsWith path "/" then "/" ++ parent else under dir parent

/-- Whether the last name of a path ends in the extension of JSON files. -/
def isJson (path : String) : Bool :=
  match (steps path).getLast?.bind fun name => Text.splitLast? (· == '.') name.toList with
  | some (before, ext) => !before.isEmpty && ext == "json".toList
  | none => false

/-- Reads a configuration file. -/
def readConfig (s : Setting) (path : String) : Except BuildError Config :=
  match s.disk.readText s.here path with
  | .ok text => Config.parse text (isJson path)
  | .error e => .error (.io e.message)

/-- The names of configuration files that are looked for. -/
def configNames : List String := ["kiln.yaml", "kiln.json"]

/-- The configuration of the files, and the directory that it is about; or what went wrong. -/
def findConfig (s : Setting) (a : Arguments) : Except String (Config × String) :=
  match a.value? .project with
  | some path =>
    match readConfig s path with
    | .ok c => .ok (c, parentOf s.path path)
    | .error e => .error ("Failed to load config file: " ++ e.message)
  | none =>
    match configNames.find? (s.disk.leadsSomewhere s.here) with
    | none => .ok (.default, s.path)
    | some path =>
      match readConfig s path with
      | .ok c => .ok (c, s.path)
      | .error e => .error ("Failed to load " ++ path ++ ": " ++ e.message)

/-- The bundling mode with a name. -/
def modeOf (name : String) : Except String BundleMode :=
  match BundleMode.table.lookup name with
  | some mode => .ok mode
  | none =>
    .error ("Invalid bundle mode '" ++ name ++ "'. Supported modes: none, fast, merged")

/-- The values of the command line. -/
def overridesOf (a : Arguments) : Except String Config.Overrides := do
  let bundle ← (a.value? .bundle).mapM modeOf
  let whenGiven (flag : Flag) (value : Bool) : Option Bool :=
    if a.has flag then some value else none
  return { Config.Overrides.none with
    main := if a.files.isEmpty then none else some (a.files.map Path.toSlash)
    bundle
    spriteMerge := whenGiven .spriteMerge true
    compress := whenGiven .noCompress false
    mangle := whenGiven .mangle true
    beautify := whenGiven .beautify true
    sourceMap := whenGiven .sourceMap true
    outDir := a.value? .outDir }

/-- The configuration of a build with full paths, and its directory. -/
def configOf (s : Setting) (a : Arguments) : Except String (Config × String) := do
  let (c, configDir) ← findConfig s a
  let c := c.merge (← overridesOf a)
  let dir :=
    match c.dir with
    | some dir => under configDir dir
    | none => configDir
  return ({ c with dir := some dir, outDir := c.outDir.map (under dir) }, dir)

/-! ## Messages -/

/-- The word for a severity in its color. -/
def severityText : Severity → String
  | .error => "\x1b[31merror\x1b[0m"
  | .warning => "\x1b[33mwarning\x1b[0m"

/-- The line that a message is about, with a mark below the place. -/
def excerpt (source : String) (span : Span) : String :=
  if span.line == 0 then ""
  else
    match (Text.lines source.toList)[span.line - 1]? with
    | none => ""
    | some line =>
      "    " ++ String.ofList line ++ "\n    " ++
        String.ofList (List.replicate (span.column - 1) ' ') ++ "\x1b[31m^\x1b[0m\n"

/-- A message as it is shown. -/
def shown (withCode : Bool) (source : String) (d : Diagnostic) : String :=
  let code := if withCode then " [" ++ d.code ++ "]" else ""
  "\n" ++ severityText d.severity ++ " [" ++ d.file ++ ":" ++ toString d.span.line ++ ":" ++
    toString d.span.column ++ "]: " ++ d.message ++ code ++ "\n" ++ excerpt source d.span

/-- The text of a file as the session knows it. -/
def sourceOf (s : Session) (file : String) : String :=
  ((s.cache.find? s.project.dir file).bind fun id => (s.cache.entry id).text?).getD ""

/-- The messages of a cycle. A cycle without work has none of its own. -/
def messagesText (withCodes : Bool) (r : CycleReport) (s : Session) : String :=
  if r.isUpToDate then ""
  else String.join (s.messages.toList.map fun d => shown withCodes (sourceOf s d.file) d)

/-! ## The build -/

/-- The project of a configuration. -/
def projectOf (c : Config) (dir : String) : Project :=
  { Project.ofConfig c dir with
    catalogue := if c.compileMessages then some .empty else none }

/-- The files that a session looked for. -/
def probedOf (s : Session) : List String :=
  s.cache.entries.map Entry.fullName

/-- Runs one cycle. -/
def buildWith (s : Setting) (a : Arguments) (c : Config) (dir : String) : Outcome :=
  let session :=
    { Session.start s.disk (projectOf c dir) with
      destination := some ⟨s.here, c.outDir.getD dir⟩ }
  let session := if a.has .force then session.forceNext else session
  let finish (after : Session) (code : Nat) (stderr : String) : Outcome :=
    ⟨code, "", stderr, after.disk, probedOf after⟩
  match Session.compile session with
  | .ok r after =>
    finish after (if r.errors == 0 then 0 else 1) (messagesText (a.has .diagnostics) r after)
  | .error (.error e) after => finish after 1 ("Error: " ++ e.message ++ "\n")
  | .error (.fault _) after => finish after 101 "The build was broken off.\n"

/-- Builds what the arguments and the configuration name. -/
def build (s : Setting) (a : Arguments) : Outcome :=
  if a.has .start then startProject s
  else
    let outcome :=
      match configOf s a with
      | .error text => s.fail "" text
      | .ok (c, dir) =>
        if c.main.isEmpty then
          s.fail "" "No entry files specified. Use --help for usage information."
        else if a.has .watch then s.fail "" "Watching for changes is not supported."
        else buildWith s a c dir
    let configs := (a.value? .project).toList ++ configNames
    { outcome with probed := configs.map (under s.path) ++ outcome.probed }

/-- Runs the program. -/
def run (s : Setting) (words : List String) : Outcome :=
  match read words with
  | .error e => s.quit 2 "" e.message
  | .ok .help => s.quit 0 helpText ""
  | .ok .version => s.quit 0 versionText ""
  | .ok (.build a) => build s a

end Bundler.CommandLine

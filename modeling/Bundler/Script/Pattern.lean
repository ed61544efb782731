/-
The statement forms that a script is searched for.

A pattern is tried on what is left of the text at a place and answers what it found together with
what is left behind it. No pattern ever has two ways to match: wherever it may go on, the next
character decides how. So the longest run of white space or of name characters is always the
right one, and a search needs no second try.

Names are those of the script language without its rarer letters: a letter of ASCII, an
underscore or a dollar sign, then any word characters and dollar signs.
-/
import Bundler.Script.Basic
import Bundler.Text.Word

set_option autoImplicit false

namespace Bundler.Script.Pattern

open Bundler.Text

/-! ## Parts -/

/-- Passes a fixed text. -/
def token (text : String) (cs : List Char) : Option (List Char) :=
  if text.toList.isPrefixOf cs then some (cs.drop text.length) else none

/-- Passes white space, which may be absent. -/
def spaces (cs : List Char) : List Char :=
  cs.dropWhile isBlank

/-- Passes at least one character of white space. -/
def space? : List Char → Option (List Char)
  | [] => none
  | c :: cs => if isBlank c then some (spaces cs) else none

/-- White space within a line of the narrow kind. -/
def isIndent (c : Char) : Bool :=
  c == ' ' || c == '\t'

/-- Passes spaces and tabs. -/
def indent (cs : List Char) : List Char :=
  cs.dropWhile isIndent

/-- A character that a name can start with. -/
def isNameStart (c : Char) : Bool :=
  c.isAlpha || c == '_' || c == '$'

/-- A character that a name can go on with. -/
def isNamePart (c : Char) : Bool :=
  isWord c || c == '$'

/-- Reads a name. -/
def name? : List Char → Option (String × List Char)
  | [] => none
  | c :: cs =>
    if isNameStart c then
      some (String.ofList (c :: cs.takeWhile isNamePart), cs.dropWhile isNamePart)
    else none

/-- Reads a text in quotes that is not empty. The two quotes need not be of one kind. -/
def quoted? (cs : List Char) : Option (String × List Char) :=
  let isQuote (c : Char) : Bool := c == '"' || c == '\''
  match cs with
  | [] => none
  | c :: cs =>
    if isQuote c then
      let inside := cs.takeWhile fun c => !isQuote c
      match cs.dropWhile fun c => !isQuote c with
      | _ :: behind => if inside.isEmpty then none else some (String.ofList inside, behind)
      | [] => none
    else none

/-- Passes spaces, tabs and one semicolon, each of which may be absent. -/
def terminator (cs : List Char) : List Char :=
  match indent cs with
  | ';' :: rest => rest
  | rest => rest

/-! ## Imports -/

/-- Splits an item of an import list at the first ` as `. -/
def namePair (item : List Char) : String × String :=
  match splitOnce? " as ".toList item with
  | some (imported, lcl) => (String.ofList (trim imported), String.ofList (trim lcl))
  | none => (String.ofList item, String.ofList item)

/-- The pairs of exported and local name in an import list. -/
def namePairs (inside : List Char) : List (String × String) :=
  ((splitWhere (· == ',') inside).map trim |>.filter fun item => !item.isEmpty).map namePair

/-- Reads what stands between `import` and `from`. -/
def binding? (cs : List Char) : Option (Binding × List Char) :=
  match cs with
  | '*' :: rest => do
    let rest ← token "as" (← space? rest)
    let (name, rest) ← name? (← space? rest)
    return (.whole name, rest)
  | '\x7b' :: rest =>
    let inside := rest.takeWhile (· != '\x7d')
    match rest.dropWhile (· != '\x7d') with
    | _ :: behind => some (.named (namePairs inside), behind)
    | [] => none
  | _ => (name? cs).map fun (name, rest) => (.default name, rest)

/-- An import statement that names what it imports. -/
def importFrom? (cs : List Char) : Option ((Binding × String) × List Char) := do
  let rest ← space? (← token "import" cs)
  let (binding, rest) ← binding? rest
  let rest ← token "from" (← space? rest)
  let (specifier, rest) ← quoted? (← space? rest)
  return ((binding, specifier), terminator rest)

/-- An import statement that only runs a module. -/
def importBare? (cs : List Char) : Option ((Binding × String) × List Char) := do
  let rest ← space? (← token "import" cs)
  let (specifier, rest) ← quoted? rest
  return ((.bare, specifier), terminator rest)

/-! ## Exports -/

/-- Reads `export`, white space, a second word: what is left behind them. -/
def exportKeyword? (word : String) (cs : List Char) : Option (List Char) := do
  token word (← space? (← token "export" cs))

/-- An exported constant up to its initializer: what is left behind the keyword, and the name. -/
def exportConst? (cs : List Char) : Option ((List Char × String) × List Char) := do
  let keyword ← exportKeyword? "const" cs
  let (name, rest) ← name? (← space? keyword)
  let rest ← token "=" (spaces rest)
  return ((keyword, name), indent rest)

/-- An exported function up to its name: what is left behind the keyword, and the name. -/
def exportFunction? (cs : List Char) : Option ((List Char × String) × List Char) := do
  let keyword ← exportKeyword? "function" cs
  let (name, rest) ← name? (← space? keyword)
  return ((keyword, name), rest)

/-! ## Calls -/

/-- The methods of the object `b` that refer to resources. -/
def methods : List String := ["asset", "sprite", "styleDefEx", "styleDef"]

/-- The functions that refer to messages. -/
def functions : List String := ["t", "f"]

/-- The first text of a list that leads to an opening parenthesis, which is still to come. -/
def callee? (names : List String) (cs : List Char) : Option (String × List Char) :=
  names.findSome? fun name =>
    match token name cs with
    | some rest =>
      match spaces rest with
      | '(' :: inside => some (name, '(' :: inside)
      | _ => none
    | none => none

/-- A recognised call up to its opening parenthesis, which is still to come. -/
def call? (cs : List Char) : Option ((Option String × String) × List Char) :=
  match token "b." cs with
  | some rest => (callee? methods rest).map fun (m, rest) => ((some "b", m), rest)
  | none => (callee? functions cs).map fun (f, rest) => ((none, f), rest)

/-- The words that declare a variable. -/
def declarators : List String := ["const", "let", "var"]

/-- A declaration that ends with its equals sign: the name. -/
def assignment? (cs : List Char) : Option String :=
  declarators.findSome? fun word => do
    let (name, rest) ← name? (← space? (← token word cs))
    let rest ← token "=" (spaces rest)
    if (spaces rest).isEmpty then some name else none

/-- The variable that the text of a line, up to some place, is about to assign to. -/
def assigned? : List Char → Option String
  | [] => none
  | c :: cs => (assignment? (c :: cs)).orElse fun _ => assigned? cs

end Bundler.Script.Pattern

/-
JSON values and their compact text.

The values are those of the data format, with one choice made for all of them: an object keeps
its members sorted by key, and of two members with one key the later stays. Numbers are kept as
they were written, whole numbers apart from those with a fraction or an exponent, because the
text of a configuration is hashed and must come out the same.

The compact text has no white space. In a string only the quote, the backslash and the control
characters below the space are escaped, the common five of them by a letter and the others by
four hexadecimal digits.
-/
import Bundler.Number.Shortest

set_option autoImplicit false

namespace Bundler

namespace Json

/-- A number of a JSON text. -/
inductive Number where
  /-- A whole number that is not negative and fits 64 bits. -/
  | natural (n : Nat)
  /-- The negative whole number `-n`, which fits 64 bits with sign. -/
  | negative (n : Nat)
  | float (x : Double)
  deriving DecidableEq

/-- The double nearest to a number. -/
def Number.toDouble : Number → Double
  | .natural n => Double.ofNat n
  | .negative n => Double.ofInt (-(n : Int))
  | .float x => x

/-- The text of a number. -/
def Number.render : Number → String
  | .natural n => toString n
  | .negative n => "-" ++ toString n
  | .float x => x.renderData

end Json

/-- A JSON value. -/
inductive Json where
  | null
  | bool (b : Bool)
  | number (n : Json.Number)
  | string (s : String)
  | array (items : List Json)
  /-- The members, sorted by key. -/
  | object (members : List (String × Json))

namespace Json

instance : Inhabited Json := ⟨.null⟩

/-! ## Members -/

/-- Puts a member among members sorted by key. -/
def insertMember (key : String) (value : Json) : List (String × Json) → List (String × Json)
  | [] => [(key, value)]
  | m :: ms =>
    if key = m.1 then (key, value) :: ms
    else if key < m.1 then (key, value) :: m :: ms
    else m :: insertMember key value ms

/-- The object that a list of members in reading order makes. -/
def ofMembers (ms : List (String × Json)) : Json :=
  .object (ms.foldl (fun sorted m => insertMember m.1 m.2 sorted) [])

/-! ## Strings -/

/-- A hexadecimal digit in lower case. -/
def hexDigit (n : Nat) : Char :=
  if n < 10 then Char.ofNat ('0'.toNat + n) else Char.ofNat ('a'.toNat + n - 10)

/-- A character of a string as it is written. -/
def escapeChar (c : Char) : List Char :=
  if c == '"' then ['\\', '"']
  else if c == '\\' then ['\\', '\\']
  else if c.toNat < 32 then
    match c.toNat with
    | 8 => ['\\', 'b']
    | 9 => ['\\', 't']
    | 10 => ['\\', 'n']
    | 12 => ['\\', 'f']
    | 13 => ['\\', 'r']
    | n => ['\\', 'u', '0', '0', hexDigit (n / 16), hexDigit (n % 16)]
  else [c]

/-- The characters of a quoted string. -/
def quoteChars (cs : List Char) : List Char :=
  '"' :: cs.flatMap escapeChar ++ ['"']

/-- A string in quotes. -/
def quote (s : String) : String :=
  String.ofList (quoteChars s.toList)

/-! ## Values -/

/-- A quoted text, or `null`. -/
def quoteOption : Option String → String
  | some s => quote s
  | none => "null"

/-- A list of texts in brackets, with commas between them. -/
def bracket (opening closing : String) (items : List String) : String :=
  opening ++ String.intercalate "," items ++ closing

mutual

/-- The compact text of a value. -/
def render : Json → String
  | .null => "null"
  | .bool b => if b then "true" else "false"
  | .number n => n.render
  | .string s => quote s
  | .array items => bracket "[" "]" (renderItems items)
  | .object members => bracket "\x7b" "\x7d" (renderMembers members)

/-- The compact texts of the items of an array. -/
def renderItems : List Json → List String
  | [] => []
  | v :: vs => render v :: renderItems vs

/-- The compact texts of the members of an object. -/
def renderMembers : List (String × Json) → List String
  | [] => []
  | (k, v) :: ms => (quote k ++ ":" ++ render v) :: renderMembers ms

end

/-- The text of an object whose members are given in the order to be kept. -/
def renderFields (members : List (String × String)) : String :=
  bracket "\x7b" "\x7d" (members.map fun m => quote m.1 ++ ":" ++ m.2)

/-- The text of an array whose items are given as texts. -/
def renderList (items : List String) : String :=
  bracket "[" "]" items

end Json

end Bundler

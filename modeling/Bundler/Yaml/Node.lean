/-
Nodes of a YAML document, and what a plain scalar stands for.

A document is a tree of scalars, lists and records; any node may be the key of a record. A scalar
is a text; where it was written without quotes it can also stand for nothing, a flag or a number,
and the reader of the tree says which of them it wants. A text that is wanted as a text is one,
however it was written.
-/
import Bundler.Json.Value
import Bundler.Yaml.Character

set_option autoImplicit false

namespace Bundler

/-- A node of a document. -/
inductive Yaml where
  /-- A text, written in quotes or plainly. -/
  | scalar (text : String) (plain : Bool)
  | list (items : List Yaml)
  | record (members : List (Yaml × Yaml))

namespace Yaml

/-- The node of a place where nothing is written. -/
def nothing : Yaml := .scalar "" true

instance : Inhabited Yaml := ⟨nothing⟩

/-! ## Plain scalars -/

/-- The spellings of the null value. -/
def isNull (text : String) : Bool :=
  ["", "~", "null", "Null", "NULL"].contains text

/-- The spellings of the flags. -/
def flag? (text : String) : Option Bool :=
  if ["true", "True", "TRUE"].contains text then some true
  else if ["false", "False", "FALSE"].contains text then some false
  else none

/-- Whether a text is digits that start with a zero, which keeps it from being a number. -/
def isPaddedNumber (cs : List Char) : Bool :=
  let digits :=
    match cs with
    | '-' :: rest | '+' :: rest => rest
    | _ => cs
  match digits with
  | '0' :: rest@(_ :: _) => rest.all Char.isDigit
  | _ => false

/-- Whether a text starts with a sign. -/
def isSigned (cs : List Char) : Bool :=
  cs.head? == some '+' || cs.head? == some '-'

/-- The magnitude of a whole number: its digits, in a base that is not ten if a mark says so. -/
def magnitude? (cs : List Char) : Option Nat :=
  match cs with
  | '0' :: 'x' :: rest => natural? 16 rest
  | '0' :: 'o' :: rest => natural? 8 rest
  | '0' :: 'b' :: rest => natural? 2 rest
  | _ => natural? 10 cs

/-- The whole number that a plain scalar stands for. Beyond 128 bits it stands for none. -/
def integer? (cs : List Char) : Option Int :=
  if isPaddedNumber cs then none
  else
    let signed : Option Int :=
      match cs with
      | '-' :: rest => (magnitude? rest).map fun n => -(n : Int)
      | '+' :: rest => (magnitude? rest).map fun n => (n : Int)
      | _ => (magnitude? cs).map fun n => (n : Int)
    signed.filter fun n => -(pow2 127 : Int) ≤ n && n < pow2 128

/-- The number with a fraction or an exponent that a plain scalar stands for. A plus sign stands
in front of a number or of an infinity. -/
def float? (cs : List Char) : Option Double :=
  let unsigned :=
    match cs with
    | '+' :: rest => rest
    | _ => cs
  if isPaddedNumber cs || (cs.head? == some '+' && isSigned unsigned) then none
  else if [".inf", ".Inf", ".INF"].contains (String.ofList unsigned) then some (.infinite false)
  else if ["-.inf", "-.Inf", "-.INF"].contains (String.ofList cs) then some (.infinite true)
  else if [".nan", ".NaN", ".NAN"].contains (String.ofList cs) then some .nan
  else (Double.parse? unsigned).filter Double.isFinite

/-! ## Values -/

/-- The value of a whole number; one of more than 64 bits has none. -/
def ofInteger (n : Int) : Option Json :=
  if 0 ≤ n && n < pow2 64 then some (.number (.natural n.toNat))
  else if -pow2 63 ≤ n && n < 0 then some (.number (.negative n.natAbs))
  else none

/-- The value that a plain scalar stands for. -/
def plainValue (text : String) : Option Json :=
  if isNull text then some .null
  else
    match flag? text with
    | some b => some (.bool b)
    | none =>
      match integer? text.toList with
      | some n => ofInteger n
      | none =>
        match float? text.toList with
        | some x => some (if x.isFinite then .number (.float x) else .null)
        | none => some (.string text)

/-- The text of a scalar. -/
def text? : Yaml → Option String
  | .scalar text _ => some text
  | _ => none

mutual

/-- The value of a node. Its keys are texts. -/
def toJson : Yaml → Option Json
  | .scalar text plain => if plain then plainValue text else some (.string text)
  | .list items => (itemValues items).map Json.array
  | .record members => (memberValues members).map Json.ofMembers

/-- The values of the items of a list. -/
def itemValues : List Yaml → Option (List Json)
  | [] => some []
  | v :: vs => do return (← toJson v) :: (← itemValues vs)

/-- The values of the members of a record. -/
def memberValues : List (Yaml × Yaml) → Option (List (String × Json))
  | [] => some []
  | (key, v) :: ms => do return (← key.text?, ← toJson v) :: (← memberValues ms)

end

/-! ## Depth -/

mutual

/-- How many lists and records lie in each other. -/
def depth : Yaml → Nat
  | .scalar _ _ => 0
  | .list items => itemsDepth items + 1
  | .record members => membersDepth members + 1

/-- The depth of the deepest item. -/
def itemsDepth : List Yaml → Nat
  | [] => 0
  | v :: vs => max (depth v) (itemsDepth vs)

/-- The depth of the deepest value of a member. -/
def membersDepth : List (Yaml × Yaml) → Nat
  | [] => 0
  | (_, v) :: ms => max (depth v) (membersDepth ms)

end

end Yaml

end Bundler

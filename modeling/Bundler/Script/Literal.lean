/-
Reading a single expression.

The text of an argument or an initializer is a string if it is one literal in single or double
quotes from end to end, a flag or `null` by its word, and a number if it reads as one. Everything
else keeps its text. The escapes of a string are resolved: four of them by a letter, a numeric
one by up to four digits, and any other character stands for itself.
-/
import Bundler.Script.Literals
import Bundler.Expr

set_option autoImplicit false

namespace Bundler.Script

open Bundler.Text

/-! ## Escapes -/

/-- The value of a hexadecimal digit. -/
def hexDigit? (c : Char) : Option Nat :=
  if c.isDigit then some (c.toNat - '0'.toNat)
  else if 'a' ≤ c && c ≤ 'f' then some (c.toNat - 'a'.toNat + 10)
  else if 'A' ≤ c && c ≤ 'F' then some (c.toNat - 'A'.toNat + 10)
  else none

/-- The number that hexadecimal digits spell; a plus sign may stand in front of them. -/
def hexNumber? (cs : List Char) : Option Nat :=
  let digits :=
    match cs with
    | '+' :: rest => rest
    | _ => cs
  if digits.isEmpty then none
  else digits.foldl (fun (n : Option Nat) c => do return (← n) * 16 + (← hexDigit? c)) (some 0)

/-- The character with a code, if there is one: the halves of pairs have none. -/
def charOfCode? (n : Nat) : Option Char :=
  if h : n.isValidChar then some (Char.ofNatAux n h) else none

/-- What the digits of a numeric escape stand for; the escape itself where they spell nothing. -/
def numericEscape (digits : List Char) : List Char :=
  match (hexNumber? digits).bind charOfCode? with
  | some c => [c]
  | none => '\\' :: 'u' :: digits

/-- The character for the letter of a short escape. -/
def letterEscape (c : Char) : Char :=
  if c == 'n' then '\n'
  else if c == 't' then '\t'
  else if c == 'r' then '\r'
  else if c == '0' then Char.ofNat 0
  else c

/-- Resolves the escapes of a text; `skip` characters belong to an escape already resolved. -/
def unescapeFrom : Nat → List Char → List Char
  | _, [] => []
  | skip + 1, _ :: cs => unescapeFrom skip cs
  | 0, c :: cs =>
    if c != '\\' then c :: unescapeFrom 0 cs
    else
      match cs with
      | [] => ['\\']
      | 'u' :: rest => numericEscape (rest.take 4) ++ unescapeFrom (1 + (rest.take 4).length) cs
      | d :: _ => letterEscape d :: unescapeFrom 1 cs

/-- The text that the inside of a string literal stands for. -/
def unescape (cs : List Char) : List Char :=
  unescapeFrom 0 cs

/-! ## Expressions -/

/-- Whether the text at a place is one string literal from end to end. -/
def isOneLiteral (ls : Literals) (pos : Nat) (text : List Char) : Bool :=
  match text with
  | c :: _ :: _ =>
    (c == '"' || c == '\'') && text.getLast? == some c &&
      ls.containing pos == some (pos + size text)
  | _ => false

/-- Whether a text can only be a number: behind any minus signs comes a digit or a point. -/
def looksNumeric (text : List Char) : Bool :=
  match text.dropWhile (· == '-') with
  | c :: _ => c.isDigit || c == '.'
  | [] => false

/-- The number that a text spells, if it looks like one. -/
def numeral? (text : List Char) : Option Double :=
  if looksNumeric text then Double.parse? text else none

/-- Reads the text at a place as an expression. -/
def readExpr (ls : Literals) (pos : Nat) (text : List Char) : Expr :=
  if isOneLiteral ls pos text then
    .str (String.ofList (unescape (text.drop 1).dropLast))
  else
    let s := String.ofList text
    if s == "true" then .bool true
    else if s == "false" then .bool false
    else if s == "null" then .null
    else
      match numeral? text with
      | some x => .num x
      | none => .raw s

end Bundler.Script

/-
Integers as letters: the variable-length quantities of source maps.

An integer is written as a magnitude with its sign in the lowest bit. The bits go out in groups of
five, lowest first, one letter for each group, and every letter but the last has a sixth bit set.
The letters are the 64 digits of the base in which binary data is mailed.

Reading works on words of 64 bits. A number whose groups reach beyond the word is refused, and of
a last group that only partly fits, the bits beyond the word are dropped.
-/
import Bundler.Fault
import Bundler.Number.Power

set_option autoImplicit false

namespace Bundler.Vlq

/-- The digits in the order of their values. -/
def digits : List Char :=
  "ABCDEFGHIJKLMNOPQRSTUVWXYZabcdefghijklmnopqrstuvwxyz0123456789+/".toList

/-- The digit of a value below 64. -/
def digit (n : Nat) : Char :=
  digits.getD n 'A'

/-- The value of a digit. -/
def digitValue? (c : Char) : Option Nat :=
  digits.findIdx? (· == c)

/-! ## Writing -/

/-- The groups of a magnitude, lowest first. -/
def encodeNat (n : Nat) : List Char :=
  if n < 32 then [digit n] else digit (n % 32 + 32) :: encodeNat (n / 32)
termination_by n
decreasing_by omega

/-- The magnitude with the sign in its lowest bit. -/
def zigzag (v : Int) : Nat :=
  if v < 0 then 2 * v.natAbs + 1 else 2 * v.natAbs

/-- An integer as letters. -/
def encode (v : Int) : List Char :=
  encodeNat (zigzag v)

/-! ## Words -/

/-- The first number above the signed words. -/
def signedBound : Int := pow2 63

/-- Whether an integer is a signed word. -/
def isWord (v : Int) : Bool :=
  -signedBound ≤ v && v < signedBound

/-- The signed word with the same bits as a natural number. -/
def toWord (n : Nat) : Int :=
  let m : Int := n % pow2 64
  if m < signedBound then m else m - pow2 64

/-- The unsigned word with the same bits as an integer. -/
def toUnsigned (v : Int) : Nat :=
  (v % pow2 64).toNat

/-- The sum of two words, which may leave their range. -/
def addWords (a b : Int) : Except Fault Int :=
  if isWord (a + b) then .ok (a + b) else .error .overflow

/-- An integer as letters, for signed words. The least word has no opposite, so it has no
magnitude to write. -/
def encodeWord (v : Int) : Except Fault String :=
  if v = -signedBound then .error .overflow else .ok (String.ofList (encode v))

/-! ## Reading -/

/-- The integer whose sign is in the lowest bit of a word. -/
def unzigzag (v : Int) : Int :=
  if v % 2 = 1 then -(v / 2) else v / 2

/-- Reads letters as integers, given what was read of the one at hand and how many bits. Answers
nothing for a letter that is no digit, for a number that is too long, and for one that breaks
off. -/
def decodeFrom (value shift : Nat) : List Char → Option (List Int)
  | [] => if shift = 0 then some [] else none
  | c :: cs =>
    match digitValue? c with
    | none => none
    | some d =>
      let value := value + d % 32 * pow2 shift
      if 32 ≤ d then
        if 60 < shift + 5 then none else decodeFrom value (shift + 5) cs
      else (decodeFrom 0 0 cs).map (unzigzag (toWord value) :: ·)

/-- The integers that a text of letters holds. -/
def decode? (cs : List Char) : Option (List Int) :=
  decodeFrom 0 0 cs

end Bundler.Vlq

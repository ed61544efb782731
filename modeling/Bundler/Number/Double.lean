/-
Numbers of double precision, exactly.

A numeric literal in a script is kept as the double nearest to it, and an edited call writes that
double back. Nothing here computes with machine floats: a finite number is a sign, a mantissa
and a power of two, all arithmetic is on integers, and the only inexact step is `ofRatio`, which
takes a quotient of two natural numbers to the nearest double and a tie to the even mantissa.
Reading decimals, multiplying and dividing are that one step after an exact computation.

A finite number is canonical when its mantissa is below 2^53, its exponent is at least -1074, and
the mantissa has all 53 bits unless the exponent is -1074. Everything built by `ofRatio` is.
-/
import Bundler.Number.Power

set_option autoImplicit false

namespace Bundler

/-- A number of double precision. The value of `finite s m e` is `± m · 2 ^ e`. -/
inductive Double where
  | nan
  | infinite (negative : Bool)
  | finite (negative : Bool) (mantissa : Nat) (exponent : Int)
  deriving DecidableEq

namespace Double

/-! ## Rounding -/

/-- The least exponent of a finite number. -/
def minExponent : Int := -1074

/-- The greatest exponent of a finite number. -/
def maxExponent : Int := 971

/-- Zero with a sign. -/
def zero (negative : Bool) : Double := .finite negative 0 minExponent

/-- The quotient rounded to the nearest natural number, a tie to the even one. -/
def roundDiv (num den : Nat) : Nat :=
  let q := num / den
  let twice := 2 * (num % den)
  if den < twice || (twice == den && q % 2 == 1) then q + 1 else q

/-- Numerator and denominator of `num / den / 2 ^ e`. -/
def scale (num den : Nat) (e : Int) : Nat × Nat :=
  if 0 ≤ e then (num, den * pow2 e.toNat) else (num * pow2 (-e).toNat, den)

/-- The exponent at which the quotient has a mantissa of 53 bits, or the least one. -/
def exponentOf (num den : Nat) : Int :=
  let guess := (num.log2 : Int) - (den.log2 : Int) - 53
  let (n, d) := scale num den guess
  max minExponent (if n / d < pow2 53 then guess else guess + 1)

/-- The double nearest to `± num / den`, where `den` is not zero. -/
def ofRatio (negative : Bool) (num den : Nat) : Double :=
  if num = 0 then zero negative
  else
    let e := exponentOf num den
    let (n, d) := scale num den e
    let m := roundDiv n d
    let (m, e) := if m = pow2 53 then (pow2 52, e + 1) else (m, e)
    if maxExponent < e then .infinite negative else .finite negative m e

/-- The double nearest to a natural number. -/
def ofNat (n : Nat) : Double := ofRatio false n 1

/-- The double nearest to an integer. -/
def ofInt (n : Int) : Double := ofRatio (n < 0) n.natAbs 1

/-- The number of decimal digits of a natural number. -/
def digitCount (n : Nat) : Nat := (Nat.toDigits 10 n).length

/-- The double nearest to `± digits · 10 ^ exponent`. Exponents so large or small that the digits
cannot matter are settled before any power of ten is computed. -/
def ofDecimal (negative : Bool) (digits : Nat) (exponent : Int) : Double :=
  if digits = 0 then zero negative
  else
    let magnitude := exponent + digitCount digits
    if 310 < magnitude then .infinite negative
    else if magnitude < -330 then zero negative
    else if 0 ≤ exponent then ofRatio negative (digits * pow10 exponent.toNat) 1
    else ofRatio negative digits (pow10 (-exponent).toNat)

/-! ## Views -/

/-- The sign bit; a number that is none has no sign. -/
def isNegative : Double → Bool
  | .nan => false
  | .infinite s => s
  | .finite s _ _ => s

/-- Numerator and denominator of the magnitude of `m · 2 ^ e`. -/
def ratio (m : Nat) (e : Int) : Nat × Nat :=
  if 0 ≤ e then (m * pow2 e.toNat, 1) else (m, pow2 (-e).toNat)

/-- The number with its sign turned round. -/
def negate : Double → Double
  | .nan => .nan
  | .infinite s => .infinite !s
  | .finite s m e => .finite (!s) m e

/-- The magnitude as a natural number, when it is finite and whole. -/
def wholeMagnitude? : Double → Option Nat
  | .finite _ m e =>
    let (n, d) := ratio m e
    if n % d = 0 then some (n / d) else none
  | _ => none

/-- The number as a whole number that is not negative; a zero with a minus sign counts. -/
def natural? (x : Double) : Option Nat :=
  match x.wholeMagnitude? with
  | some n => if x.isNegative && n != 0 then none else some n
  | none => none

/-! ## Products and quotients -/

/-- The product of a finite number that is not negative with a natural number. -/
def mulNat (x : Double) (k : Nat) : Double :=
  match x with
  | .finite s m e =>
    let (n, d) := ratio m e
    ofRatio s (n * k) d
  | other => other

/-- The quotient of two finite numbers, the second of them not zero. -/
def div (x y : Double) : Double :=
  match x, y with
  | .finite s m e, .finite t m' e' =>
    let (n, d) := ratio m e
    let (n', d') := ratio m' e'
    ofRatio (s != t) (n * d') (d * n')
  | _, _ => .nan

/-- The product of two finite numbers. -/
def mul (x y : Double) : Double :=
  match x, y with
  | .finite s m e, .finite t m' e' =>
    let (n, d) := ratio m e
    let (n', d') := ratio m' e'
    ofRatio (s != t) (n * n') (d * d')
  | _, _ => .nan

/-- Whether the number is finite. -/
def isFinite : Double → Bool
  | .finite .. => true
  | _ => false

/-! ## Reading -/

/-- The value of decimal digits, with what was read before them. -/
def digitsValue (before : Nat) (ds : List Char) : Nat :=
  ds.foldl (fun n c => n * 10 + (c.toNat - '0'.toNat)) before

/-- The exponent part of a literal: a letter, an optional sign and at least one digit. The empty
text is the exponent zero. -/
def exponentPart? : List Char → Option Int
  | [] => some 0
  | c :: rest =>
    if c == 'e' || c == 'E' then
      let (negative, ds) :=
        match rest with
        | '-' :: ds => (true, ds)
        | '+' :: ds => (false, ds)
        | ds => (false, ds)
      if ds.isEmpty || !ds.all Char.isDigit then none
      else
        let n : Int := digitsValue 0 ds
        some (if negative then -n else n)
    else none

/-- A decimal without a sign: digits with at most one point among them, at least one digit in
all, and an optional exponent. -/
def unsignedDecimal? (negative : Bool) (cs : List Char) : Option Double :=
  let whole := cs.takeWhile Char.isDigit
  let rest := cs.dropWhile Char.isDigit
  let (fraction, rest) :=
    match rest with
    | '.' :: behind => (behind.takeWhile Char.isDigit, behind.dropWhile Char.isDigit)
    | _ => ([], rest)
  if whole.isEmpty && fraction.isEmpty then none
  else
    (exponentPart? rest).map fun e =>
      ofDecimal negative (digitsValue 0 (whole ++ fraction)) (e - fraction.length)

/-- Reads a number: an optional sign, then a decimal or, in any case, one of the words for the
values that have no digits. -/
def parse? (cs : List Char) : Option Double :=
  let (negative, rest) :=
    match cs with
    | '-' :: rest => (true, rest)
    | '+' :: rest => (false, rest)
    | _ => (false, cs)
  let word := String.ofList (rest.map Char.toLower)
  if word == "inf" || word == "infinity" then some (.infinite negative)
  else if word == "nan" then some .nan
  else unsignedDecimal? negative rest

end Double

end Bundler

/-
The shortest decimal text of a double.

Of all decimals that round to a given double, the one with the fewest digits is written, and
among those with that many digits the one nearest to the double. The decimals that round to it
form an interval whose ends lie halfway to the neighbouring doubles and belong to it exactly when
the mantissa is even. For one digit, then two, and so on, the value's two neighbours on the
decimal grid of that many digits are tried; the first grid with a hit gives the answer. If any
point of a grid lies in the interval, one of the two neighbours does, because the value itself
lies in it. Seventeen digits always suffice.

How the digits are laid out is a matter of the text they stand in, so there are two layouts: the
plain one never has an exponent, and the one of data files has one for the very large and small.
-/
import Bundler.Number.Double

set_option autoImplicit false

namespace Bundler.Double

/-! ## Digits -/

/-- Which of two equally near decimals is taken. -/
inductive Tie where
  | upper
  | even
  deriving DecidableEq

/-- A quantity `num / den`, with the interval of decimals that round to the same double. -/
structure Rounding where
  num : Nat
  low : Nat
  high : Nat
  den : Nat
  /-- Whether the ends belong to the interval. -/
  closed : Bool

/-- The interval of the finite number `m · 2 ^ e`. The gap below is half as wide where the
mantissa is the least one of its exponent. -/
def rounding (m : Nat) (e : Int) : Rounding :=
  let (unit, den) := ratio 1 (e - 2)
  let gap := if m = pow2 52 && minExponent < e then 1 else 2
  { num := 4 * m * unit
    low := (4 * m - gap) * unit
    high := (4 * m + 2) * unit
    den := den
    closed := m % 2 == 0 }

/-- Whether `c · 10 ^ t` lies in the interval. -/
def Rounding.admits (r : Rounding) (c : Nat) (t : Int) : Bool :=
  let (n, d) := if 0 ≤ t then (c * pow10 t.toNat, 1) else (c, pow10 (-t).toNat)
  let x := n * r.den
  if r.closed then r.low * d ≤ x && x ≤ r.high * d else r.low * d < x && x < r.high * d

/-- The least `p` with `num / den < 10 ^ p`, for a quotient that is not zero. -/
def decimalPoint (num den : Nat) : Int :=
  let guess := ((num.log2 : Int) - (den.log2 : Int)) * 30103 / 100000
  let below (p : Int) : Bool :=
    if 0 ≤ p then num < pow10 p.toNat * den else num * pow10 (-p).toNat < den
  match [guess - 1, guess, guess + 1, guess + 2].find? below with
  | some p => p
  | none => guess + 3

/-- The decimal of the grid `10 ^ t` that stands for the number, if one does. -/
def Rounding.onGrid? (r : Rounding) (tie : Tie) (t : Int) : Option Nat :=
  let (n, d) := if 0 ≤ t then (r.num, r.den * pow10 t.toNat) else (r.num * pow10 (-t).toNat, r.den)
  let c := n / d
  let twice := 2 * (n % d)
  match r.admits c t, r.admits (c + 1) t with
  | true, true =>
    if twice < d then some c
    else if d < twice then some (c + 1)
    else
      match tie with
      | .upper => some (c + 1)
      | .even => some (if c % 2 == 0 then c else c + 1)
  | true, false => some c
  | false, true => some (c + 1)
  | false, false => none

/-- Takes the zeros off the end of a whole number, at most `fuel` of them. -/
def stripZeros : Nat → Nat → Int → Nat × Int
  | 0, c, t => (c, t)
  | fuel + 1, c, t => if c % 10 = 0 && c != 0 then stripZeros fuel (c / 10) (t + 1) else (c, t)

/-- Digits `c` and exponent `t` of the shortest decimal `c · 10 ^ t` for `m · 2 ^ e`. -/
def shortest (tie : Tie) (m : Nat) (e : Int) : Nat × Int :=
  if m = 0 then (0, 0)
  else
    let r := rounding m e
    let p := decimalPoint r.num r.den
    let found := (List.range 17).findSome? fun (k : Nat) =>
      let t : Int := p - ((k : Int) + 1)
      (r.onGrid? tie t).map fun c => (c, t)
    match found with
    | some (c, t) => stripZeros 20 c t
    | none => (0, 0)

/-! ## Layouts -/

/-- The decimal digits of a natural number. -/
def digitChars (n : Nat) : List Char := Nat.toDigits 10 n

/-- `c · 10 ^ t` in plain digits, without a point when there is no fraction. -/
def positional (c : Nat) (t : Int) : List Char :=
  let ds := digitChars c
  if 0 ≤ t then ds ++ List.replicate t.toNat '0'
  else
    let places := (-t).toNat
    if places < ds.length then
      ds.take (ds.length - places) ++ '.' :: ds.drop (ds.length - places)
    else '0' :: '.' :: List.replicate (places - ds.length) '0' ++ ds

/-- The sign of a number, written only for a negative one. -/
def signChars (negative : Bool) : List Char :=
  if negative then ['-'] else []

/-- The plain layout: never an exponent, no fraction on whole numbers, a minus sign on a
negative zero. -/
def render (x : Double) : String :=
  match x with
  | .nan => "NaN"
  | .infinite s => String.ofList (signChars s ++ "inf".toList)
  | .finite s m e =>
    let (c, t) := if m = 0 then (0, 0) else shortest .upper m e
    String.ofList (signChars s ++ positional c t)

/-- The layout of data files: plain digits with at least one place behind the point from 1e-5 on
and below 1e16, else one digit before the point and an exponent with its sign. -/
def renderData (x : Double) : String :=
  match x with
  | .finite s m e =>
    let (c, t) := shortest .even m e
    let ds := digitChars c
    let lead : Int := (ds.length : Int) - 1 + t
    let body :=
      if m = 0 then "0.0".toList
      else if -5 ≤ lead && lead < 16 then
        if 0 ≤ t then positional c t ++ ".0".toList else positional c t
      else
        let mantissa := if ds.length = 1 then ds else ds.take 1 ++ '.' :: ds.drop 1
        let sign := if lead < 0 then '-' else '+'
        mantissa ++ 'e' :: sign :: digitChars lead.natAbs
    String.ofList (signChars s ++ body)
  | _ => "null"

end Bundler.Double

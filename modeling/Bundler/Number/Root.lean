/-
Square roots.

The root of a natural number rounded down is found bit by bit from the highest. The root of a
double follows from it: its significand is scaled so that the root has more bits than a double,
and a last bit says whether anything was cut off, which is all that rounding asks for.
-/
import Bundler.Number.Double

set_option autoImplicit false

namespace Bundler

/-- Adds to `root` those of the lower `bits` bits with which its square does not exceed `n`. -/
def rootFrom (n : Nat) : Nat → Nat → Nat
  | 0, root => root
  | bits + 1, root =>
    let next := root + pow2 bits
    rootFrom n bits (if next * next ≤ n then next else root)

/-- The square root of a natural number, rounded down. -/
def floorRoot (n : Nat) : Nat :=
  rootFrom n (n.log2 / 2 + 1) 0

namespace Double

/-- The square root. -/
def sqrt (x : Double) : Double :=
  match x with
  | .nan => .nan
  | .infinite negative => if negative then .nan else x
  | .finite negative m e =>
    if m = 0 then x
    else if negative then .nan
    else
      let shift := 128 + (e % 2).toNat
      let scaled := m * pow2 shift
      let root := floorRoot scaled
      let exact := root * root == scaled
      let digits := 2 * root + (if exact then 0 else 1)
      let exponent := (e - shift) / 2 - 1
      let (num, den) := ratio digits exponent
      ofRatio false num den

/-- The least whole number that is not below a number, for finite numbers above -1. -/
def ceil (x : Double) : Nat :=
  match x with
  | .finite false m e =>
    let (num, den) := ratio m e
    (num + den - 1) / den
  | _ => 0

end Double

end Bundler

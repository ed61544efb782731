/-
Powers of two and of ten.

Every bound of a machine word in this library is a power of two, and every decimal is shifted by a
power of ten. They are computed on natural numbers, so a power is never rounded and never wraps;
what does not fit a word is told by comparing with the power that is its bound.
-/

set_option autoImplicit false

namespace Bundler

/-- A power of two. -/
def pow2 (n : Nat) : Nat := Nat.pow 2 n

/-- A power of ten. -/
def pow10 (n : Nat) : Nat := Nat.pow 10 n

/-- A power of two doubles with each step. -/
theorem pow2_succ (n : Nat) : pow2 (n + 1) = 2 * pow2 n :=
  Nat.mul_comm _ _

/-- No power of two is zero, so a number can be divided by it. -/
theorem pow2_pos (n : Nat) : 0 < pow2 n :=
  Nat.pow_pos (by decide)

/-- A power of ten has one more zero with each step. -/
theorem pow10_succ (n : Nat) : pow10 (n + 1) = 10 * pow10 n :=
  Nat.mul_comm _ _

/-- No power of ten is zero, so a number can be divided by it. -/
theorem pow10_pos (n : Nat) : 0 < pow10 n :=
  Nat.pow_pos (by decide)

end Bundler

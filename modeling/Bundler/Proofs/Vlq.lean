/-
Integers come back from their letters.

A magnitude is written in groups of five bits, lowest first, and a reader adds the groups up again
at their places. Between two groups the sum of what was read and of what is left, at its place, stays
the same (`Vlq.decodeFrom_encodeNat`), so no induction on the letters is needed but one on the
magnitude. A reader works on words and gives a number up whose groups reach too far; below 2 ^ 62 this
does not happen, for the magnitude with its sign is then below 2 ^ 63, which is thirteen groups.

The magnitudes here are natural numbers, which a writer on words does not have. Its loop shifts a word
to the right until nothing is left (`Vlq.encodeWithin`). For the integers below 2 ^ 62 it ends after
thirteen rounds at most and writes the same letters. For those above, the word with the sign in its
lowest bit is negative, and a negative word is never shifted down to zero: the loop does not end.
-/
import Mathlib.Data.List.Basic
import Bundler.SourceMap.Vlq

set_option autoImplicit false

namespace Bundler.Vlq

/-! ## Digits -/

theorem digitValue?_digit : ∀ n < 64, digitValue? (digit n) = some n := by
  decide

private theorem digit_mem_digits : ∀ n < 64, digit n ∈ digits := by
  decide

private theorem pow2_add_five (shift : Nat) : pow2 (shift + 5) = 32 * pow2 shift := by
  change 2 ^ (shift + 5) = 32 * 2 ^ shift
  rw [Nat.pow_add, Nat.mul_comm]

/-- A power of two that is a word has an exponent below 63. -/
private theorem lt_of_pow2_lt {shift : Nat} (h : pow2 shift < pow2 63) : shift < 63 :=
  (Nat.pow_lt_pow_iff_right (by decide)).mp h

theorem encode_ne_nil (v : Int) : encode v ≠ [] := by
  unfold encode
  rw [encodeNat]
  split <;> simp

private theorem mem_digits_of_mem_encodeNat (n : Nat) {c : Char} (h : c ∈ encodeNat n) :
    c ∈ digits := by
  induction n using Nat.strongRecOn with
  | ind n ih =>
    rw [encodeNat] at h
    split at h
    · rw [List.mem_singleton.mp h]
      exact digit_mem_digits n (by omega)
    · rcases List.mem_cons.mp h with rfl | h
      · exact digit_mem_digits _ (by omega)
      · exact ih (n / 32) (by omega) h

theorem mem_digits_of_mem_encode {v : Int} {c : Char} (h : c ∈ encode v) : c ∈ digits :=
  mem_digits_of_mem_encodeNat _ h

/-! ## Words -/

private theorem pow2_62 : pow2 62 = 4611686018427387904 := rfl

private theorem pow2_63 : pow2 63 = 9223372036854775808 := rfl

private theorem pow2_64 : pow2 64 = 18446744073709551616 := rfl

theorem toWord_of_lt {n : Nat} (h : n < pow2 63) : toWord n = n := by
  rw [pow2_63] at h
  unfold toWord signedBound
  rw [pow2_63, pow2_64]
  have hmod : (n : Int) % (18446744073709551616 : Nat) = n := Int.emod_eq_of_lt (by omega) (by omega)
  rw [hmod, if_pos (by omega)]

/-- A word whose highest bit is set is negative. -/
theorem toWord_neg {n : Nat} (h : pow2 63 ≤ n) (hlt : n < pow2 64) : toWord n < 0 := by
  rw [pow2_63] at h
  rw [pow2_64] at hlt
  unfold toWord signedBound
  rw [pow2_63, pow2_64]
  have hmod : (n : Int) % (18446744073709551616 : Nat) = n := Int.emod_eq_of_lt (by omega) (by omega)
  rw [hmod, if_neg (by omega)]
  omega

theorem toUnsigned_of_lt {n : Nat} (h : n < pow2 62) : toUnsigned n = n := by
  rw [pow2_62] at h
  unfold toUnsigned
  rw [pow2_64]
  omega

theorem addWords_of_lt {a b : Int} (h : (a + b).natAbs < pow2 62) :
    addWords a b = .ok (a + b) := by
  rw [pow2_62] at h
  have hword : isWord (a + b) = true := by
    unfold isWord signedBound
    rw [pow2_63, Bool.and_eq_true, decide_eq_true_iff, decide_eq_true_iff]
    omega
  unfold addWords
  rw [if_pos hword]

theorem unzigzag_zigzag (v : Int) : unzigzag (zigzag v : Nat) = v := by
  unfold unzigzag zigzag
  split <;> split <;> omega

private theorem zigzag_lt {v : Int} (h : v.natAbs < pow2 62) : zigzag v < pow2 63 := by
  have hdouble : pow2 63 = 2 * pow2 62 := pow2_succ 62
  unfold zigzag
  split <;> omega

/-! ## Reading what was written -/

/-- The groups of a magnitude are added to what was read before. -/
private theorem decodeFrom_encodeNat (rest : List Char) (n : Nat) :
    ∀ value shift : Nat, shift % 5 = 0 → value + n * pow2 shift < pow2 63 →
      decodeFrom value shift (encodeNat n ++ rest)
        = (decode? rest).map (unzigzag (value + n * pow2 shift : Nat) :: ·) := by
  induction n using Nat.strongRecOn with
  | ind n ih =>
    intro value shift hshift hlt
    rw [encodeNat]
    split
    case isTrue hlast =>
      have hdigit := digitValue?_digit n (by omega)
      have hmod : n % 32 = n := Nat.mod_eq_of_lt hlast
      simp only [List.singleton_append, decodeFrom, hdigit, hmod]
      rw [if_neg (by omega), toWord_of_lt hlt]
      rfl
    case isFalse hmore =>
      have hdigit := digitValue?_digit (n % 32 + 32) (by omega)
      have hmod : (n % 32 + 32) % 32 = n % 32 := by omega
      -- what moves from the groups that are left to the sum keeps its place
      have hsplit : n % 32 * pow2 shift + n / 32 * pow2 (shift + 5) = n * pow2 shift := by
        rw [pow2_add_five, ← Nat.mul_assoc, ← Nat.add_mul]
        congr 1
        omega
      have hbits : shift + 5 < 63 := by
        refine lt_of_pow2_lt (Nat.lt_of_le_of_lt ?_ hlt)
        rw [pow2_add_five]
        exact Nat.le_add_left_of_le (Nat.mul_le_mul_right _ (by omega))
      simp only [List.cons_append, decodeFrom, hdigit, hmod]
      rw [if_pos (by omega), if_neg (by omega),
        ih (n / 32) (by omega) (value + n % 32 * pow2 shift) (shift + 5) (by omega)
          (by rw [Nat.add_assoc, hsplit]; exact hlt),
        Nat.add_assoc, hsplit]

/-- An integer is read back from its letters, whatever follows them. -/
theorem decode?_encode_append {v : Int} (h : v.natAbs < pow2 62) (rest : List Char) :
    decode? (encode v ++ rest) = (decode? rest).map (v :: ·) := by
  have hlt := zigzag_lt h
  have hone : pow2 0 = 1 := rfl
  unfold encode
  rw [decode?, decodeFrom_encodeNat rest (zigzag v) 0 0 rfl (by rw [hone]; omega),
    hone, Nat.zero_add, Nat.mul_one, unzigzag_zigzag]

/-- Integers are read back from their letters. -/
theorem decode?_flatMap_encode {vs : List Int} (h : ∀ v ∈ vs, v.natAbs < pow2 62) :
    decode? (vs.flatMap encode) = some vs := by
  induction vs with
  | nil => rfl
  | cons v vs ih =>
    rw [List.flatMap_cons, decode?_encode_append (h v List.mem_cons_self),
      ih fun u hu => h u (List.mem_cons_of_mem v hu)]
    rfl

/-! ## The loop of a writer on words -/

/-- The word with the sign in its lowest bit, as far as it fits. -/
def zigzagWord (v : Int) : Int := toWord (zigzag v)

/-- The letters of a word, if the loop that writes them ends within a number of rounds. Each round
takes the lowest five bits off, and marks their letter if what is left is positive; it is the last one
if nothing is left. -/
def encodeWithin : Nat → Int → Option (List Char)
  | 0, _ => none
  | rounds + 1, w =>
    let group := (w % 32).toNat
    let rest := w / 32
    if rest = 0 then some [digit group]
    else (encodeWithin rounds rest).map (digit (if 0 < rest then group + 32 else group) :: ·)

private theorem encodeWithin_natCast (rounds : Nat) :
    ∀ n : Nat, n < pow2 (5 * (rounds + 1)) → encodeWithin (rounds + 1) n = some (encodeNat n) := by
  induction rounds with
  | zero =>
    intro n h
    have hlt : n < 32 := h
    have hrest : (n : Int) / 32 = 0 := by omega
    have hgroup : ((n : Int) % 32).toNat = n := by omega
    unfold encodeWithin
    rw [encodeNat, if_pos hlt]
    simp only [hrest, hgroup, if_true]
  | succ rounds ih =>
    intro n h
    have hgroup : ((n : Int) % 32).toNat = n % 32 := by omega
    unfold encodeWithin
    rw [encodeNat]
    by_cases hlt : n < 32
    · have hrest : (n : Int) / 32 = 0 := by omega
      have hmod : n % 32 = n := Nat.mod_eq_of_lt hlt
      simp only [hrest, hgroup, hmod, if_true]
      rw [if_pos hlt]
    · -- one round takes five of the bits, so there is one round less to go
      have hrest : (n : Int) / 32 = (n / 32 : Nat) := by omega
      have hpow : pow2 (5 * (rounds + 1 + 1)) = 32 * pow2 (5 * (rounds + 1)) :=
        pow2_add_five (5 * (rounds + 1))
      have hnext := ih (n / 32) (by omega)
      simp only [hrest, hgroup, hnext]
      rw [if_neg (by omega), if_pos (by omega), if_neg hlt]
      rfl

/-- The loop ends, after thirteen rounds at most, and writes the letters of the integer. -/
theorem encodeWithin_zigzagWord {v : Int} (h : v.natAbs < pow2 62) :
    encodeWithin 13 (zigzagWord v) = some (encode v) := by
  have hlt := zigzag_lt h
  unfold zigzagWord encode
  rw [toWord_of_lt hlt]
  exact encodeWithin_natCast 12 _ (Nat.lt_trans hlt (by decide))

private theorem encodeWithin_of_neg (rounds : Nat) :
    ∀ w : Int, w < 0 → encodeWithin rounds w = none := by
  induction rounds with
  | zero => exact fun _ _ => rfl
  | succ rounds ih =>
    intro w h
    unfold encodeWithin
    rw [if_neg (by omega), ih (w / 32) (by omega)]
    rfl

/-- The loop does not end for a word from 2 ^ 62 on, nor for its opposite. -/
theorem encodeWithin_zigzagWord_eq_none {v : Int} (h : pow2 62 ≤ v.natAbs)
    (hword : v.natAbs < pow2 63) (rounds : Nat) : encodeWithin rounds (zigzagWord v) = none := by
  have hdouble : pow2 63 = 2 * pow2 62 := pow2_succ 62
  have hdouble' : pow2 64 = 2 * pow2 63 := pow2_succ 63
  refine encodeWithin_of_neg rounds _ (toWord_neg ?_ ?_)
  · unfold zigzag
    split <;> omega
  · unfold zigzag
    split <;> omega

end Bundler.Vlq

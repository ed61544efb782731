/-
Words in the order of their numbers.

The words of short names are counted by length and then by alphabet. This file says that the count is
complete: every word over the letters a to z has a number, no two words have the same one, and the word
with the smaller number comes first (`word_enumerates`). So the word that follows a word is the one with
the next number, and none is passed over.

A word is spelled from its last letter. Taking the last letter off a word leaves the word with the number
`n / 26 - 1`, so whatever is said about words is said about a word and one letter behind it: two words
with a letter behind each are in the order of the words, and where these are the same in the order of the
letters (`shortlex_concat`, `shortlex_concat_of_lt`). The same recursion counts the words that are not
longer than some length (`wordsWithin`), and this says where the length goes up.

The loop that spells a number takes one off it in each turn. In a machine word this is no step down from
zero, because it is done only where a letter and one more are left, and a number of 64 bits is spelled in
14 turns (`spellWord_eq`).
-/
import Mathlib.Data.List.Induction
import Mathlib.Data.List.Shortlex
import Mathlib.Data.Set.Function
import Bundler.Proofs.ShortNames

set_option autoImplicit false

namespace Bundler

open ShortNames (IsWord isWord_word)

/-! ## The order of words -/

/-- The order of words by length and then by alphabet. -/
abbrev Earlier (v w : List Char) : Prop := List.Shortlex (· < ·) v w

private theorem lex_append {v w : List Char} (h : List.Lex (· < ·) v w) (hlen : v.length = w.length)
    (as bs : List Char) : List.Lex (· < ·) (v ++ as) (w ++ bs) := by
  induction h with
  | nil => simp at hlen
  | cons _ ih => exact .cons (ih (by simpa using hlen))
  | rel hlt => exact .rel hlt

/-- Words with a letter behind each are in the order of the words. -/
theorem shortlex_concat {v w : List Char} (h : Earlier v w) (c d : Char) :
    Earlier (v ++ [c]) (w ++ [d]) := by
  rcases List.shortlex_def.mp h with hlen | ⟨hlen, hlex⟩
  · exact .of_length_lt (by simpa using hlen)
  · exact .of_lex (by simpa using hlen) (lex_append hlex hlen _ _)

/-- One word with two letters behind it comes in the order of the letters. -/
theorem shortlex_concat_of_lt (w : List Char) {c d : Char} (h : c < d) :
    Earlier (w ++ [c]) (w ++ [d]) :=
  .append_left ((List.shortlex_singleton_iff c d).mpr h) w

theorem letter_lt {j k : Nat} (h : j < k) (hk : k < 26) : letter j < letter k := by
  have hall : ∀ j k : Fin 26, j < k → letter j < letter k := by decide +kernel
  exact hall ⟨j, h.trans hk⟩ ⟨k, hk⟩ h

theorem word_of_lt {n : Nat} (h : n < 26) : word n = [letter n] := by
  rw [word.eq_def, if_pos h]

/-- A word of two letters or more is a word with a letter behind it. -/
theorem word_of_le {n : Nat} (h : 26 ≤ n) : word n = word (n / 26 - 1) ++ [letter (n % 26)] := by
  rw [word.eq_def, if_neg (by omega)]

/-- The word with the smaller number comes first. -/
theorem earlier_word {m n : Nat} (h : m < n) : Earlier (word m) (word n) := by
  induction n using word.induct generalizing m with
  | case1 n hn =>
    rw [word_of_lt hn, word_of_lt (h.trans hn)]
    exact (List.shortlex_singleton_iff _ _).mpr (letter_lt h hn)
  | case2 n hn ih =>
    rw [word_of_le (Nat.le_of_not_lt hn)]
    by_cases hm : m < 26
    · refine .of_length_lt ?_
      have hpos : 0 < (word (n / 26 - 1)).length := List.length_pos_of_ne_nil (Path.word_ne_nil _)
      rw [word_of_lt hm, List.length_append, List.length_singleton, List.length_singleton]
      omega
    · rw [word_of_le (Nat.le_of_not_lt hm)]
      by_cases hfront : m / 26 - 1 = n / 26 - 1
      · rw [hfront]
        exact shortlex_concat_of_lt _ (letter_lt (by omega) (Nat.mod_lt _ (by decide)))
      · exact shortlex_concat (ih (by omega)) _ _

theorem earlier_word_iff {m n : Nat} : Earlier (word m) (word n) ↔ m < n := by
  refine ⟨fun h => ?_, earlier_word⟩
  by_contra hle
  rcases Nat.lt_or_eq_of_le (Nat.le_of_not_lt hle) with hlt | heq
  · exact Std.Asymm.asymm (r := List.Shortlex (· < · : Char → Char → Prop)) _ _ h (earlier_word hlt)
  · rw [heq] at h
    exact Std.Asymm.asymm (r := List.Shortlex (· < · : Char → Char → Prop)) _ _ h h

/-! ## Every word has a number -/

private theorem exists_letter {c : Char} (h : 'a' ≤ c ∧ c ≤ 'z') : ∃ k, k < 26 ∧ letter k = c := by
  have hlow : 97 ≤ c.toNat := h.1
  have hhigh : c.toNat ≤ 122 := h.2
  refine ⟨c.toNat - 97, by omega, ?_⟩
  have hnat : 'a'.toNat + (c.toNat - 97) = c.toNat := by
    have : 'a'.toNat = 97 := rfl
    omega
  unfold letter
  rw [hnat, Char.ofNat_toNat]

theorem exists_number {w : List Char} (h : IsWord w) : ∃ n, word n = w := by
  induction w using List.reverseRecOn with
  | nil => exact absurd rfl h.1
  | append_singleton w c ih =>
    obtain ⟨k, hk, rfl⟩ := exists_letter (h.2 c (by simp))
    by_cases hw : w = []
    · exact ⟨k, by rw [word_of_lt hk, hw, List.nil_append]⟩
    · obtain ⟨m, rfl⟩ := ih ⟨hw, fun d hd => h.2 d (List.mem_append_left _ hd)⟩
      refine ⟨26 * (m + 1) + k, ?_⟩
      have hfront : (26 * (m + 1) + k) / 26 - 1 = m := by omega
      have hlast : (26 * (m + 1) + k) % 26 = k := by omega
      rw [word_of_le (by omega), hfront, hlast]

/-! ## Lengths -/

/-- How many words are not longer than some length. -/
def wordsWithin : Nat → Nat
  | 0 => 0
  | k + 1 => 26 * (wordsWithin k + 1)

/-- The words of a length begin behind all shorter ones. -/
theorem length_word_le_iff {k n : Nat} : (word n).length ≤ k ↔ n < wordsWithin k := by
  induction n using word.induct generalizing k with
  | case1 n hn =>
    rw [word_of_lt hn, List.length_singleton]
    cases k with
    | zero => simp [wordsWithin]
    | succ k =>
      simp only [wordsWithin]
      omega
  | case2 n hn ih =>
    rw [word_of_le (Nat.le_of_not_lt hn), List.length_append, List.length_singleton]
    cases k with
    | zero => simp [wordsWithin]
    | succ k =>
      rw [Nat.add_le_add_iff_right, ih]
      simp only [wordsWithin]
      omega

/-! ## Spelling in machine words -/

/-- The loop that spells a number, for a number of turns at most: it writes the letters behind those
written before, the last one first, and turns them around when no more are to come. Taking one off the
number is a step that zero does not admit. There is no result where the turns are used up. -/
def spellWord : Nat → UInt64 → List Char → Option (Except Fault (List Char))
  | 0, _, _ => none
  | turns + 1, n, letters =>
    let letters := letters ++ [letter (n % 26).toNat]
    if n < 26 then some (.ok letters.reverse)
    else if n / 26 = 0 then some (.error .overflow)
    else spellWord turns (n / 26 - 1) letters

private theorem toNat_front {n : UInt64} (h : ¬ n < 26) :
    n / 26 ≠ 0 ∧ (n / 26 - 1).toNat = n.toNat / 26 - 1 := by
  have hle : 26 ≤ n.toNat := by
    have := UInt64.lt_iff_toNat_lt.not.mp h
    exact Nat.le_of_not_lt this
  have hdiv : (n / 26).toNat = n.toNat / 26 := UInt64.toNat_div n 26
  have hone : (1 : UInt64) ≤ n / 26 := by
    rw [UInt64.le_iff_toNat_le, hdiv]
    change 1 ≤ n.toNat / 26
    omega
  refine ⟨fun hzero => ?_, ?_⟩
  · rw [hzero] at hdiv
    change 0 = n.toNat / 26 at hdiv
    omega
  · rw [UInt64.toNat_sub_of_le _ _ hone, hdiv]
    rfl

/-- As many turns as the word has letters are enough, and none of them steps down from zero. -/
theorem spellWord_eq (n : UInt64) (letters : List Char) {turns : Nat}
    (hturns : (word n.toNat).length ≤ turns) :
    spellWord turns n letters = some (.ok (word n.toNat ++ letters.reverse)) := by
  induction turns generalizing n letters with
  | zero => exact absurd (List.length_eq_zero_iff.mp (Nat.le_zero.mp hturns)) (Path.word_ne_nil _)
  | succ turns ih =>
    have hmod : (n % 26).toNat = n.toNat % 26 := UInt64.toNat_mod n 26
    unfold spellWord
    simp only
    by_cases hn : n < 26
    · have hlt : n.toNat < 26 := UInt64.lt_iff_toNat_lt.mp hn
      rw [if_pos hn, hmod, Nat.mod_eq_of_lt hlt, word_of_lt hlt, List.reverse_append]
      rfl
    · obtain ⟨hpos, hfront⟩ := toNat_front hn
      have hle : 26 ≤ n.toNat := Nat.le_of_not_lt (UInt64.lt_iff_toNat_lt.not.mp hn)
      rw [word_of_le hle, List.length_append, List.length_singleton, Nat.add_le_add_iff_right,
        ← hfront] at hturns
      rw [if_neg hn, if_neg hpos, ih _ _ hturns, hfront, hmod, word_of_le hle, List.reverse_append,
        List.append_assoc]
      rfl

/-! ## The law of words -/

/-- The words over the letters a to z are counted without a gap. Each has one number, and the numbers
increase with the length and then with the alphabet, so that the next number belongs to the next word. A
number of 64 bits is spelled within 14 turns, and nothing is taken off zero on the way. -/
theorem word_enumerates :
    Set.BijOn word Set.univ {w | IsWord w} ∧
    (∀ m n, Earlier (word m) (word n) ↔ m < n) ∧
    (∀ n w, IsWord w → Earlier (word n) w → w = word (n + 1) ∨ Earlier (word (n + 1)) w) ∧
    ∀ n : UInt64, spellWord 14 n [] = some (.ok (word n.toNat)) := by
  refine ⟨⟨fun n _ => isWord_word n, fun _ _ _ _ => word_injective, fun w hw => ?_⟩,
    fun _ _ => earlier_word_iff, fun n w hw hlater => ?_, fun n => ?_⟩
  · obtain ⟨n, hn⟩ := exists_number hw
    exact ⟨n, Set.mem_univ n, hn⟩
  · obtain ⟨k, rfl⟩ := exists_number hw
    rcases Nat.lt_or_eq_of_le (earlier_word_iff.mp hlater) with hlt | heq
    · exact .inr (earlier_word hlt)
    · exact .inl (congrArg word heq.symm)
  · have hwords : 2 ^ 64 ≤ wordsWithin 14 := by decide
    have hlen : (word n.toNat).length ≤ 14 := length_word_le_iff.mpr (n.toNat_lt.trans_le hwords)
    rw [spellWord_eq n [] hlen, List.reverse_nil, List.append_nil]

example : word 25 = ['z'] ∧ word 26 = ['a', 'a'] ∧ word (wordsWithin 2) = ['a', 'a', 'a'] := by
  decide +kernel

end Bundler

/-
White space at the ends of a text.

Trimming takes away blanks and nothing else, and what is left has none at its ends.
-/
import Mathlib.Data.List.TakeWhile
import Bundler.Text.Basic

set_option autoImplicit false

namespace Bundler.Text

/-- Blanks at the end are trimmed, as far as the last other character. -/
theorem trimEnd_append {text blank : List Char} (hblank : ∀ c ∈ blank, isBlank c = true) :
    trimEnd (text ++ blank) = trimEnd text := by
  unfold trimEnd
  rw [List.reverse_append, List.dropWhile_append_of_pos fun c hc => hblank c (List.mem_reverse.mp hc)]

/-- What is trimmed is blank. -/
theorem exists_trimEnd (text : List Char) :
    ∃ blank, text = trimEnd text ++ blank ∧ ∀ c ∈ blank, isBlank c = true := by
  refine ⟨(text.reverse.takeWhile isBlank).reverse, ?_, fun c hc =>
    List.mem_takeWhile_imp (List.mem_reverse.mp hc)⟩
  unfold trimEnd
  rw [← List.reverse_append, List.takeWhile_append_dropWhile, List.reverse_reverse]

/-- Nothing is trimmed behind a character that is not blank. -/
theorem trimEnd_append_cons {c : Char} (hc : isBlank c = false) (before behind : List Char) :
    trimEnd (before ++ c :: behind) = before ++ c :: trimEnd behind := by
  unfold trimEnd
  have hsplit : (before ++ c :: behind).reverse = behind.reverse ++ c :: before.reverse := by simp
  rw [hsplit, List.dropWhile_append]
  split
  · rename_i hempty
    rw [List.isEmpty_iff.mp hempty, List.dropWhile_cons_of_neg (by simp [hc])]
    simp
  · simp

/-- A blank goes if nothing is left behind it. -/
theorem trimEnd_cons (c : Char) (cs : List Char) :
    trimEnd (c :: cs) = if isBlank c = true ∧ trimEnd cs = [] then [] else c :: trimEnd cs := by
  unfold trimEnd
  rw [List.reverse_cons, List.dropWhile_append]
  cases hrest : cs.reverse.dropWhile isBlank with
  | nil => cases hc : isBlank c <;> simp [hc]
  | cons d rest => simp

/-- The ends can be trimmed in any order. -/
theorem trim_eq_trimStart_trimEnd (cs : List Char) : trim cs = trimStart (trimEnd cs) := by
  induction cs with
  | nil => rfl
  | cons c cs ih =>
    unfold trim trimStart at ih ⊢
    cases hc : isBlank c with
    | true =>
      rw [List.dropWhile_cons_of_pos hc, ih, trimEnd_cons]
      split
      · rename_i hnil
        rw [hnil.2]
      · rw [List.dropWhile_cons_of_pos hc]
    | false =>
      have hend : trimEnd (c :: cs) = c :: trimEnd cs := by
        rw [trimEnd_cons, if_neg (by simp [hc])]
      rw [List.dropWhile_cons_of_neg (by simp [hc]), hend, List.dropWhile_cons_of_neg (by simp [hc])]

/-- Trimming takes blanks away from both ends. -/
theorem exists_trim (cs : List Char) :
    ∃ behind, cs = cs.takeWhile isBlank ++ (trim cs ++ behind) ∧ ∀ c ∈ behind, isBlank c = true := by
  obtain ⟨behind, hbehind, hblank⟩ := exists_trimEnd (trimStart cs)
  exact ⟨behind, by rw [trim, ← hbehind, trimStart, List.takeWhile_append_dropWhile], hblank⟩

/-- A text without blanks at its ends. -/
structure Trimmed (cs : List Char) : Prop where
  first : ∀ c ∈ cs.head?, isBlank c = false
  last : ∀ c ∈ cs.getLast?, isBlank c = false

/-- Blanks in front of a trimmed text are what trimming takes away. -/
theorem Trimmed.trim_eq {cs : List Char} (h : Trimmed cs) {lead : List Char}
    (hlead : ∀ c ∈ lead, isBlank c = true) : trim (lead ++ cs) = cs := by
  have hstart : trimStart (lead ++ cs) = cs := by
    unfold trimStart
    rw [List.dropWhile_append_of_pos hlead]
    cases cs with
    | nil => rfl
    | cons c cs => exact List.dropWhile_cons_of_neg (by simp [h.first c rfl])
  rw [trim, hstart]
  rcases List.eq_nil_or_concat cs with rfl | ⟨before, c, rfl⟩
  · rfl
  · rw [List.concat_eq_append] at h ⊢
    exact trimEnd_append_cons (h.last c (by simp)) before []

theorem not_blank_of_head?_dropWhile {c : Char} :
    ∀ {cs : List Char}, c ∈ (cs.dropWhile isBlank).head? → isBlank c = false
  | [], h => by cases h
  | d :: cs, h => by
    by_cases hd : isBlank d = true
    · rw [List.dropWhile_cons_of_pos hd] at h
      exact not_blank_of_head?_dropWhile h
    · rw [List.dropWhile_cons_of_neg hd] at h
      cases h
      exact Bool.not_eq_true _ ▸ hd

theorem trimmed_trim (cs : List Char) : Trimmed (trim cs) where
  first c hc := by
    obtain ⟨behind, hbehind, -⟩ := exists_trimEnd (trimStart cs)
    have hfirst : c ∈ (trimStart cs).head? := by
      rw [hbehind, List.head?_append, show (trimEnd (trimStart cs)).head? = some c from hc]
      rfl
    exact not_blank_of_head?_dropWhile hfirst
  last c hc := by
    unfold trim trimEnd at hc
    rw [List.getLast?_reverse] at hc
    exact not_blank_of_head?_dropWhile hc

end Bundler.Text

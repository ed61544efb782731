/-
The strings of a style sheet in its short form.

The passes that make a short form know no strings, so what they do to blanks and semicolons they do inside of
strings as well. But they keep quotes and backslashes, and what they drop stands beside punctuation or blanks,
so a string stays a string (`IsPass.closes`). If no string holds the mark of a comment, the short form of a
sheet has the strings that it had, each with the passes run over it (`strings_minify`), and they are kept just
if each is short already (`strings_minify_iff`).
-/
import Bundler.Proofs.ShortSheets
import Bundler.Proofs.Stripping

set_option autoImplicit false

namespace Bundler.Stylesheet

open Text
open Script.Piece (Closes takeLiteral_closes)

/-! ## Strings and comments -/

/-- A sheet and its strings in order. Comments are looked for if `marks` says so, and then a slash with a
star behind it starts one. -/
inductive Reads (marks : Bool) : List Char → List (List Char) → Prop where
  | nil : Reads marks [] []
  | char {c : Char} {cs : List Char} {ss : List (List Char)} (hquote : isQuote c = false)
    (hmark : marks = true → ¬(c = '/' ∧ cs.head? = some '*')) (hrest : Reads marks cs ss) :
    Reads marks (c :: cs) ss
  | string {quote : Char} {inside cs : List Char} {ss : List (List Char)} (hquote : isQuote quote = true)
    (hclosed : Closes quote inside) (hrest : Reads marks cs ss) :
    Reads marks (quote :: inside ++ cs) ((quote :: inside) :: ss)
  | comment {inside behind cs : List Char} {ss : List (List Char)} (hmarks : marks = true)
    (hended : splitOnce? ['*', '/'] cs = some (inside, behind)) (hrest : Reads marks behind ss) :
    Reads marks ('/' :: '*' :: cs) ss

variable {quote c d : Char} {inside as bs cs : List Char} {ss ss' : List (List Char)}

theorem eq_of_isQuote (h : isQuote quote = true) : quote = '"' ∨ quote = '\'' := by
  simpa [isQuote] using h

theorem isBlank_quote (h : isQuote quote = true) : isBlank quote = false := by
  rcases eq_of_isQuote h with rfl | rfl <;> decide

theorem isPunctuation_quote (h : isQuote quote = true) : isPunctuation quote = false := by
  rcases eq_of_isQuote h with rfl | rfl <;> decide

theorem closes_tail (h : Closes quote (c :: cs)) (hc : c ≠ quote) (hescape : c ≠ '\\') : Closes quote cs := by
  cases h with
  | quote => exact absurd rfl hc
  | plain _ _ hrest => exact hrest
  | escaped d hrest => exact absurd rfl hescape

theorem closes_cons (hc : c ≠ quote) (hescape : c ≠ '\\') (hbreak : c ≠ '\n') (h : Closes quote cs) :
    Closes quote (c :: cs) := by
  refine .plain ?_ hescape h
  simp [Script.Piece.ends, hc, hbreak]

/-! ## Comments -/

theorem dropComments_skip (taken cs : List Char) : dropComments taken.length (taken ++ cs) = dropComments 0 cs := by
  induction taken with
  | nil => rfl
  | cons c taken ih => exact ih

theorem dropComments_of_not_mark (h : ¬(c = '/' ∧ cs.head? = some '*')) :
    dropComments 0 (c :: cs) = c :: dropComments 0 cs := if_neg (by simpa using h)

theorem dropComments_comment {behind : List Char} (h : splitOnce? ['*', '/'] cs = some (inside, behind)) :
    dropComments 0 ('/' :: '*' :: cs) = dropComments 0 behind := by
  have hcs := of_splitOnce?_eq_some (List.cons_ne_nil _ _) h
  have hskip := dropComments_skip ('*' :: inside ++ ['*', '/']) behind
  have hmark : ('/' == '/' && ('*' :: cs).head? == some '*') = true := rfl
  rw [dropComments, if_pos hmark, List.drop_one, List.tail_cons, h, hcs]
  simpa using hskip

/-- A text without the mark of a comment is kept, if it does not end in a slash. -/
theorem dropComments_append (hmark : ¬['/', '*'] <:+: as) (hlast : as.getLast? ≠ some '/') (bs : List Char) :
    dropComments 0 (as ++ bs) = as ++ dropComments 0 bs := by
  induction as with
  | nil => rfl
  | cons a as ih =>
    have hrest : ¬['/', '*'] <:+: as := fun h => hmark (List.infix_cons h)
    have hhere : ¬(a = '/' ∧ (as ++ bs).head? = some '*') := by
      rintro ⟨rfl, hstar⟩
      cases as with
      | nil => exact hlast rfl
      | cons b as =>
        cases hstar
        exact hmark ⟨[], as, rfl⟩
    have hend : as.getLast? ≠ some '/' := fun h => hlast (List.mem_getLast?_cons h)
    rw [List.cons_append, dropComments_of_not_mark hhere, ih hrest hend]
    rfl

theorem getLast?_of_closes (h : Closes quote inside) : (quote :: inside).getLast? = some quote := by
  rw [List.getLast?_cons_of_ne_nil h.ne_nil, h.getLast?]

/-- Comments go, and strings that hold no mark of a comment stay. -/
theorem Reads.uncommented (h : Reads true cs ss) (hmarks : ∀ s ∈ ss, ¬['/', '*'] <:+: s) :
    Reads false (dropComments 0 cs) ss := by
  induction h with
  | nil => exact .nil
  | char hquote hmark _ ih =>
    rw [dropComments_of_not_mark (hmark rfl)]
    exact .char hquote (fun h => by cases h) (ih hmarks)
  | @string quote inside cs ss hquote hclosed _ ih =>
    have hlast : (quote :: inside).getLast? ≠ some '/' := by
      rw [getLast?_of_closes hclosed]
      rcases eq_of_isQuote hquote with rfl | rfl <;> decide
    rw [dropComments_append (hmarks _ List.mem_cons_self) hlast]
    exact .string hquote hclosed (ih fun s hs => hmarks s (List.mem_cons_of_mem _ hs))
  | comment _ hended _ ih =>
    rw [dropComments_comment hended]
    exact ih hmarks

/-! ## Passes -/

/-- A pass over a sheet: each character is kept, made a blank or dropped, with regard to one flag for what came
before. Quotes and backslashes are kept, and what comes before a quote does not depend on what is behind it. -/
structure IsPass (pass : Bool → List Char → List Char) : Prop where
  nil (behind : Bool) : pass behind [] = []
  kept {c : Char} (h : isQuote c = true ∨ c = '\\') (behind : Bool) (cs : List Char) :
    pass behind (c :: cs) = c :: pass false cs
  other {c : Char} (hquote : isQuote c = false) (hescape : c ≠ '\\') (behind : Bool) (cs : List Char) :
    (∃ d next, pass behind (c :: cs) = d :: pass next cs ∧ (d = c ∨ d = ' ')) ∨
    ∃ next, pass behind (c :: cs) = pass next cs ∧
      (behind = false → ∃ d, (pass next cs).head? = some d ∧ isPunctuation d = true)
  append {quote : Char} (hquote : isQuote quote = true) (behind : Bool) (as bs : List Char) :
    pass behind (as ++ quote :: bs) = pass behind (as ++ [quote]) ++ pass false bs

variable {pass : Bool → List Char → List Char}

/-- What is left of the inside of a string is the inside of one. A backslash whose character is dropped
stands in front of punctuation, and no quote is taken for it. -/
theorem IsPass.closes (hpass : IsPass pass) (hquote : isQuote quote = true) (h : Closes quote inside)
    (behind : Bool) : Closes quote (pass behind inside) := by
  have hspace : ' ' ≠ quote := by rcases eq_of_isQuote hquote with rfl | rfl <;> decide
  induction h generalizing behind with
  | quote =>
    rw [hpass.kept (.inl hquote), hpass.nil]
    exact .quote
  | @plain c cs hend hplain _ ih =>
    cases hc : isQuote c with
    | true =>
      rw [hpass.kept (.inl hc)]
      exact .plain hend hplain (ih false)
    | false =>
      rcases hpass.other hc hplain behind cs with ⟨d, next, heq, rfl | rfl⟩ | ⟨next, heq, -⟩
      · rw [heq]
        exact .plain hend hplain (ih next)
      · rw [heq]
        exact closes_cons hspace (by decide) (by decide) (ih next)
      · rw [heq]
        exact ih next
  | @escaped c cs _ ih =>
    rw [hpass.kept (.inr rfl)]
    by_cases hkept : isQuote c = true ∨ c = '\\'
    · rw [hpass.kept hkept]
      exact .escaped c (ih false)
    · obtain ⟨hc, hescape⟩ := not_or.mp hkept
      rcases hpass.other (Bool.not_eq_true _ ▸ hc) hescape false cs with ⟨d, next, heq, -⟩ | ⟨next, heq, hhead⟩
      · rw [heq]
        exact .escaped d (ih next)
      · -- the backslash now takes punctuation with it, which is no quote and no other backslash
        obtain ⟨d, hd, hpunctuation⟩ := hhead rfl
        obtain ⟨rest, hrest⟩ := List.head?_eq_some_iff.mp hd
        have hleft := ih next
        rw [hrest] at hleft
        rw [heq, hrest]
        refine .escaped d (closes_tail hleft ?_ ?_)
        · rintro rfl
          rw [isPunctuation_quote hquote] at hpunctuation
          cases hpunctuation
        · rintro rfl
          cases hpunctuation

/-- A pass leaves the strings apart, and each gets the pass for itself. -/
theorem IsPass.reads (hpass : IsPass pass) (h : Reads false cs ss) (behind : Bool) :
    Reads false (pass behind cs) (ss.map (pass false)) := by
  induction h generalizing behind with
  | nil =>
    rw [hpass.nil]
    exact .nil
  | @char c cs ss hquote _ _ ih =>
    have hchar : ∀ {d : Char} {next : Bool}, isQuote d = false →
        Reads false (d :: pass next cs) (ss.map (pass false)) :=
      fun hd => .char hd (fun h => by cases h) (ih _)
    by_cases hescape : c = '\\'
    · rw [hpass.kept (.inr hescape)]
      exact hchar hquote
    · rcases hpass.other hquote hescape behind cs with ⟨d, next, heq, rfl | rfl⟩ | ⟨next, heq, -⟩
      · rw [heq]
        exact hchar hquote
      · rw [heq]
        exact hchar (by decide)
      · rw [heq]
        exact ih next
  | @string quote inside cs ss hquote hclosed _ ih =>
    -- the pass is parted at the quote that ends the string
    obtain ⟨before, hbefore⟩ := List.getLast?_eq_some_iff.mp hclosed.getLast?
    have hwhole := hpass.append hquote behind (quote :: before) cs
    rw [List.cons_append, List.cons_append, ← hbefore, hpass.kept (.inl hquote) behind inside] at hwhole
    have htext : quote :: inside ++ cs = quote :: (before ++ quote :: cs) := by
      rw [hbefore]
      simp
    rw [htext, hwhole, List.map_cons, hpass.kept (.inl hquote)]
    exact .string hquote (hpass.closes hquote hclosed false) (ih false)
  | comment hmarks => cases hmarks

theorem plain_of_kept (h : isQuote c = true ∨ c = '\\') :
    isBlank c = false ∧ isPunctuation c = false ∧ c ≠ ';' := by
  rcases h with h | rfl
  · rcases eq_of_isQuote h with rfl | rfl <;> decide
  · decide

theorem isPass_squeeze : IsPass squeeze where
  nil _ := rfl
  kept h behind cs := squeeze_of_not_blank (plain_of_kept h).1 behind cs
  other {c} hquote hescape behind cs := by
    cases hc : isBlank c with
    | false => exact .inl ⟨c, false, squeeze_of_not_blank hc behind cs, .inl rfl⟩
    | true =>
      rw [squeeze_of_blank hc]
      cases behind with
      | true => exact .inr ⟨true, rfl, fun h => by cases h⟩
      | false => exact .inl ⟨' ', true, rfl, .inr rfl⟩
  append {quote} hquote behind as bs := by
    have hfull := isBlank_quote hquote
    induction as generalizing behind with
    | nil =>
      rw [List.nil_append, List.nil_append, squeeze_of_not_blank hfull, squeeze_of_not_blank hfull]
      rfl
    | cons a as ih =>
      cases ha : isBlank a with
      | true =>
        rw [List.cons_append, List.cons_append, squeeze_of_blank ha, squeeze_of_blank ha, ih, List.append_assoc]
      | false =>
        rw [List.cons_append, List.cons_append, squeeze_of_not_blank ha, squeeze_of_not_blank ha, ih]
        rfl

theorem head?_tighten {cs : List Char} (behind : Bool) (hd : (cs.dropWhile isBlank).head? = some d)
    (hpunctuation : isPunctuation d = true) : (tighten behind cs).head? = some d := by
  induction cs with
  | nil => cases hd
  | cons c cs ih =>
    cases hc : isBlank c with
    | false =>
      rw [List.dropWhile_cons_of_neg (by simp [hc])] at hd
      rw [tighten_of_not_blank hc]
      exact hd
    | true =>
      rw [List.dropWhile_cons_of_pos hc] at hd
      rw [tighten, if_pos hc, if_pos (by simp [hd, hpunctuation]), ih hd]

theorem isPass_tighten : IsPass tighten where
  nil _ := rfl
  kept h behind cs := by rw [tighten_of_not_blank (plain_of_kept h).1, (plain_of_kept h).2.1]
  other {c} hquote hescape behind cs := by
    cases hc : isBlank c with
    | false => exact .inl ⟨c, isPunctuation c, tighten_of_not_blank hc behind cs, .inl rfl⟩
    | true =>
      rw [tighten, if_pos hc]
      split
      · rename_i hdropped
        refine .inr ⟨behind, rfl, ?_⟩
        rintro rfl
        rw [Bool.false_or] at hdropped
        obtain ⟨d, hd, hpunctuation⟩ := (Option.any_eq_true _ _).mp hdropped
        exact ⟨d, head?_tighten false hd hpunctuation, hpunctuation⟩
      · exact .inl ⟨c, false, rfl, .inl rfl⟩
  append {quote} hquote behind as bs := by
    have hfull := isBlank_quote hquote
    -- looking over blanks for punctuation ends at the quote
    have hnext : ∀ as : List Char, ((as ++ quote :: bs).dropWhile isBlank).head?
        = ((as ++ [quote]).dropWhile isBlank).head? := by
      intro as
      induction as with
      | nil =>
        rw [List.nil_append, List.nil_append, List.dropWhile_cons_of_neg (by simp [hfull]),
          List.dropWhile_cons_of_neg (by simp [hfull])]
        rfl
      | cons a as ih =>
        cases ha : isBlank a with
        | true =>
          rw [List.cons_append, List.cons_append, List.dropWhile_cons_of_pos ha, List.dropWhile_cons_of_pos ha, ih]
        | false =>
          rw [List.cons_append, List.cons_append, List.dropWhile_cons_of_neg (by simp [ha]),
            List.dropWhile_cons_of_neg (by simp [ha])]
          rfl
    induction as generalizing behind with
    | nil =>
      rw [List.nil_append, List.nil_append, tighten_of_not_blank hfull, tighten_of_not_blank hfull,
        isPunctuation_quote hquote]
      rfl
    | cons a as ih =>
      cases ha : isBlank a with
      | true =>
        rw [List.cons_append, List.cons_append, tighten, tighten, if_pos ha, if_pos ha, hnext, ih, ih]
        split <;> rfl
      | false =>
        rw [List.cons_append, List.cons_append, tighten_of_not_blank ha, tighten_of_not_blank ha, ih]
        rfl

theorem isPass_dropSemicolons : IsPass fun _ => dropSemicolons where
  nil _ := rfl
  kept h behind cs := dropSemicolons_of_kept fun hdropped => (plain_of_kept h).2.2 hdropped.1
  other {c} hquote hescape behind cs := by
    by_cases hdropped : c = ';' ∧ cs.head? = some '\x7d'
    · refine .inr ⟨false, by rw [dropSemicolons_cons, if_pos hdropped], fun _ => ⟨'\x7d', ?_, by decide⟩⟩
      rw [head?_dropSemicolons (by rw [hdropped.2]; decide), hdropped.2]
    · exact .inl ⟨c, false, dropSemicolons_of_kept hdropped, .inl rfl⟩
  append {quote} hquote behind as bs := by
    have hkept : ∀ bs, dropSemicolons (quote :: bs) = quote :: dropSemicolons bs :=
      fun bs => dropSemicolons_of_kept fun hdropped => (plain_of_kept (.inl hquote)).2.2 hdropped.1
    induction as with
    | nil =>
      rw [List.nil_append, List.nil_append, hkept, hkept]
      rfl
    | cons a as ih =>
      have hhead : (as ++ quote :: bs).head? = (as ++ [quote]).head? := by cases as <;> rfl
      rw [List.cons_append, List.cons_append, dropSemicolons_cons, dropSemicolons_cons, hhead, ih]
      split <;> rfl

/-! ## The ends of a sheet -/

theorem Reads.trimEnd (h : Reads false cs ss) : Reads false (trimEnd cs) ss := by
  induction h with
  | nil => exact .nil
  | char hquote _ _ ih =>
    rw [trimEnd_cons]
    split
    · rename_i hnil
      rwa [hnil.2] at ih
    · exact .char hquote (fun h => by cases h) ih
  | @string quote inside cs ss hquote hclosed _ ih =>
    obtain ⟨before, hbefore⟩ := List.getLast?_eq_some_iff.mp hclosed.getLast?
    have htext : quote :: inside ++ cs = quote :: before ++ quote :: cs := by
      rw [hbefore]
      simp
    have htrimmed : Text.trimEnd (quote :: inside ++ cs) = quote :: inside ++ Text.trimEnd cs := by
      rw [htext, trimEnd_append_cons (isBlank_quote hquote), hbefore]
      simp
    rw [htrimmed]
    exact .string hquote hclosed ih
  | comment hmarks => cases hmarks

theorem Reads.trimStart (h : Reads false cs ss) : Reads false (trimStart cs) ss := by
  unfold Text.trimStart
  induction h with
  | nil => exact .nil
  | @char c cs ss hquote hmark hrest ih =>
    cases hc : isBlank c with
    | true =>
      rw [List.dropWhile_cons_of_pos hc]
      exact ih
    | false =>
      rw [List.dropWhile_cons_of_neg (by simp [hc])]
      exact .char hquote hmark hrest
  | @string quote inside cs ss hquote hclosed hrest _ =>
    rw [List.cons_append, List.dropWhile_cons_of_neg (by simp [isBlank_quote hquote])]
    exact .string hquote hclosed hrest
  | comment hmarks => cases hmarks

/-- A sheet is read in one way. -/
theorem Reads.eq (h : Reads false cs ss) (h' : Reads false cs ss') : ss = ss' := by
  induction h generalizing ss' with
  | nil =>
    cases h' with
    | nil => rfl
  | char hquote _ _ ih =>
    cases h' with
    | char _ _ hrest' => exact ih hrest'
    | string hquote' => rw [hquote] at hquote'; cases hquote'
    | comment hmarks => cases hmarks
  | @string quote inside cs ss hquote hclosed _ ih =>
    generalize htext : quote :: inside ++ cs = text at h'
    cases h' with
    | nil => cases htext
    | char hquote' =>
      obtain ⟨rfl, -⟩ := List.cons.inj htext
      rw [hquote] at hquote'
      cases hquote'
    | string hquote' hclosed' hrest' =>
      obtain ⟨rfl, hinside⟩ := List.cons.inj htext
      -- both insides are what is taken up to the first quote that no backslash takes
      have hscript : Script.isQuote quote = true := by rcases eq_of_isQuote hquote with rfl | rfl <;> rfl
      have htaken := takeLiteral_closes hscript hclosed cs
      change inside ++ cs = _ ++ _ at hinside
      rw [hinside, takeLiteral_closes hscript hclosed'] at htaken
      obtain ⟨rfl, rfl⟩ := Prod.mk.inj htaken
      rw [ih hrest']
    | comment hmarks => cases hmarks
  | comment hmarks => cases hmarks

/-- What becomes of a string in the short form of a sheet. -/
def shortString (s : List Char) : List Char := dropSemicolons (short false s)

/-- **The strings of a short form.** If a sheet has no unended comments and strings, and no string holds the
mark of a comment, its short form has the same strings, each with the passes run over it. -/
theorem strings_minify {css : String} (h : Reads true css.toList ss) (hmarks : ∀ s ∈ ss, ¬['/', '*'] <:+: s) :
    Reads false (minify css).toList (ss.map shortString) := by
  have hpasses := isPass_dropSemicolons.reads
    (isPass_tighten.reads (isPass_squeeze.reads (h.uncommented hmarks) false) false) false
  rw [List.map_map, List.map_map] at hpasses
  rw [minify_eq_trim]
  exact hpasses.trimStart.trimEnd

/-- The strings of a sheet are kept just if each is short already: one blank at most in a row, none beside
punctuation, and no semicolon in front of a brace. -/
theorem strings_minify_iff {css : String} (h : Reads true css.toList ss)
    (hmarks : ∀ s ∈ ss, ¬['/', '*'] <:+: s) :
    Reads false (minify css).toList ss ↔ ∀ s ∈ ss, shortString s = s := by
  have hshort := strings_minify h hmarks
  have hsame : ss.map shortString = ss.map id ↔ ∀ s ∈ ss, shortString s = s := List.map_inj_left
  rw [List.map_id] at hsame
  rw [← hsame]
  constructor
  · exact fun hkept => hshort.eq hkept
  · intro heq
    rwa [heq] at hshort

end Bundler.Stylesheet

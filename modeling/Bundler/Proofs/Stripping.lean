/-
Scripts without comments.

Taking the comments out of a script joins the code around them, and then the lines are shortened and blank
lines go, in literals as in code. Read again, the script has the literals it had, where in each a line break
stands for the blanks up to it, and its code has the words it had, where two words that only comments stood
between are one. So of a script whose literals are ended, the literals are kept just if none has blanks in
front of a line break, and the words just if nowhere comments alone stand between two of them
(`stripComments_keeps_iff`).

A list of pieces reads back if its literals are ended and its code has no marks (`Piece.Sound`). Pieces of
a text are such a list, with or without comments, and both steps turn such lists into such lists.
-/
import Bundler.Proofs.Pieces
import Bundler.Proofs.Words

set_option autoImplicit false

namespace Bundler.Script

open Text

/-! ## Lines -/

theorem splitInclusive_line {line : List Char} (h : '\n' ∉ line) (rest : List Char) :
    splitInclusive (line ++ '\n' :: rest) = (line ++ ['\n']) :: splitInclusive rest := by
  induction line with
  | nil => rfl
  | cons c line ih =>
    have hc : (c == '\n') = false := beq_eq_false_iff_ne.mpr fun heq => h (heq ▸ List.mem_cons_self)
    rw [List.cons_append, splitInclusive, ih fun hmem => h (List.mem_cons_of_mem c hmem), hc]
    rfl

theorem splitInclusive_last {line : List Char} (h : '\n' ∉ line) (hne : line ≠ []) :
    splitInclusive line = [line] := by
  induction line with
  | nil => exact absurd rfl hne
  | cons c line ih =>
    have hc : (c == '\n') = false := beq_eq_false_iff_ne.mpr fun heq => h (heq ▸ List.mem_cons_self)
    rw [splitInclusive, hc]
    by_cases hnil : line = []
    · rw [hnil]
      rfl
    · rw [ih (fun hmem => h (List.mem_cons_of_mem c hmem)) hnil]
      rfl

/-- The end of a line is blank, so trimming takes it away in any case. -/
theorem trimEnd_withoutLineEnd (line : List Char) : trimEnd (withoutLineEnd line) = trimEnd line := by
  have hbreak : ∀ c ∈ ['\n'], isBlank c = true := List.forall_mem_singleton.mpr (by decide)
  have hreturn : ∀ c ∈ ['\r', '\n'], isBlank c = true := List.forall_mem_cons.mpr ⟨by decide, hbreak⟩
  unfold withoutLineEnd
  split
  · rename_i rest heq
    have hline : line = rest.reverse ++ ['\r', '\n'] := by
      rw [← List.reverse_reverse line, heq]
      simp
    rw [hline, trimEnd_append hreturn]
  · rename_i rest _ heq
    have hline : line = rest.reverse ++ ['\n'] := by
      rw [← List.reverse_reverse line, heq]
      simp
    rw [hline, trimEnd_append hbreak]
  · rfl

theorem strippedLine_withoutLineEnd (line : List Char) :
    strippedLine (withoutLineEnd line) = strippedLine line := by
  unfold strippedLine
  rw [trimEnd_withoutLineEnd]

theorem strippedLine_append_break (line : List Char) : strippedLine (line ++ ['\n']) = strippedLine line := by
  unfold strippedLine
  rw [trimEnd_append (List.forall_mem_singleton.mpr (by decide))]

theorem compact_blanks {blanks : List Char} (h : ∀ c ∈ blanks, isBlank c = true) (rest : List Char) :
    compact (blanks ++ '\n' :: rest) = compact ('\n' :: rest) := by
  induction blanks with
  | nil => rfl
  | cons c blanks ih =>
    have hrest : ∀ d ∈ blanks, isBlank d = true := fun d hd => h d (List.mem_cons_of_mem c hd)
    have hbreak : breaksOff (blanks ++ '\n' :: rest) = true := by
      rw [breaksOff_append hrest, breaksOff_cons_of_blank (by decide), beq_self_eq_true, Bool.true_or,
        Bool.or_true]
    rw [List.cons_append, compact_cons_of_breaksOff (h c List.mem_cons_self) hbreak, ih hrest]

/-- A line between two line breaks: blanks at its end go, and all of it goes if it is blank. -/
theorem compact_line {line : List Char} (h : '\n' ∉ line) (rest : List Char) :
    compact ('\n' :: (line ++ '\n' :: rest))
      = (if trimEnd line = [] then [] else '\n' :: trimEnd line) ++ compact ('\n' :: rest) := by
  obtain ⟨blanks, hline, hblank⟩ := exists_trimEnd line
  by_cases hnil : trimEnd line = []
  · rw [if_pos hnil, List.nil_append, hline, hnil, List.nil_append, ← List.cons_append]
    refine compact_blanks (fun c hc => ?_) rest
    rcases List.mem_cons.mp hc with rfl | hc
    · decide
    · exact hblank c hc
  · have hlast : ∀ c ∈ ('\n' :: trimEnd line).getLast?, isBlank c = false := by
      intro c hc
      rw [List.getLast?_cons_of_ne_nil hnil, trimEnd, List.getLast?_reverse] at hc
      exact not_blank_of_head?_dropWhile hc
    -- the only line break is in front of the line
    have hkept : compact ('\n' :: trimEnd line) = '\n' :: trimEnd line := by
      rw [compact_eq_self_iff]
      rintro ⟨before, b, behind, heq, -⟩
      have hmem : '\n' ∈ trimEnd line := by
        cases before with
        | nil =>
          rw [(List.cons.inj heq).2]
          exact List.mem_cons_self
        | cons c before =>
          rw [(List.cons.inj heq).2]
          simp
      exact h (hline ▸ List.mem_append_left blanks hmem)
    rw [if_neg hnil]
    calc compact ('\n' :: (line ++ '\n' :: rest))
        = compact (('\n' :: trimEnd line) ++ (blanks ++ '\n' :: rest)) := by
          conv_lhs => rw [hline]
          simp
      _ = compact ('\n' :: trimEnd line) ++ compact (blanks ++ '\n' :: rest) := compact_append (.inl hlast)
      _ = ('\n' :: trimEnd line) ++ compact ('\n' :: rest) := by rw [hkept, compact_blanks hblank]

/-- What is left of lines is their text with a line break for the blanks up to it, where a line break before
and one behind the text are counted in. -/
theorem compact_lines (cs : List Char) :
    compact ('\n' :: (cs ++ ['\n'])) = '\n' :: (lines cs).flatMap strippedLine := by
  have hstripped : ∀ line, (if trimEnd line = [] then [] else '\n' :: trimEnd line) ++ ['\n']
      = '\n' :: strippedLine line := by
    intro line
    unfold strippedLine
    by_cases hnil : trimEnd line = []
    · simp [hnil]
    · simp [hnil]
  by_cases hbreak : '\n' ∈ cs
  · -- the first line is cut off, and the line break behind it is the one in front of the rest
    obtain ⟨line, rest, rfl, hline⟩ := List.eq_append_cons_of_mem hbreak
    have hlines : (lines (line ++ '\n' :: rest)).flatMap strippedLine
        = strippedLine line ++ (lines rest).flatMap strippedLine := by
      rw [lines, splitInclusive_line hline, List.map_cons, List.flatMap_cons, strippedLine_withoutLineEnd,
        strippedLine_append_break]
      rfl
    calc compact ('\n' :: (line ++ '\n' :: rest ++ ['\n']))
        = compact ('\n' :: (line ++ '\n' :: (rest ++ ['\n']))) := by simp
      _ = (if trimEnd line = [] then [] else '\n' :: trimEnd line) ++ ['\n']
            ++ (lines rest).flatMap strippedLine := by rw [compact_line hline, compact_lines rest]; simp
      _ = '\n' :: (lines (line ++ '\n' :: rest)).flatMap strippedLine := by rw [hstripped, hlines]; rfl
  · by_cases hnil : cs = []
    · rw [hnil]
      rfl
    · rw [compact_line hbreak, lines, splitInclusive_last hbreak hnil, List.map_singleton,
        List.flatMap_singleton, strippedLine_withoutLineEnd, ← hstripped]
      rfl
termination_by cs.length

namespace Piece

variable {p : Char → Bool} {quote c : Char} {ahead ahead' : Option Char} {code cs rest : List Char}
  {ps : List Piece}

/-! ## Literals that are ended, and code -/

/-- The inside of a literal with the quote that ends it. -/
inductive Closes (quote : Char) : List Char → Prop where
  | quote : Closes quote [quote]
  | plain {c : Char} {cs : List Char} (hend : ends quote c = false) (hplain : c ≠ '\\')
    (hrest : Closes quote cs) : Closes quote (c :: cs)
  | escaped (c : Char) {cs : List Char} (hrest : Closes quote cs) : Closes quote ('\\' :: c :: cs)

/-- A literal that its quote ends. -/
def IsEnded (q : Piece) : Prop :=
  ∃ quote inside, q.text = quote :: inside ∧ isQuote quote = true ∧ Closes quote inside

theorem Closes.ne_nil {inside : List Char} (h : Closes quote inside) : inside ≠ [] := by
  cases h <;> exact List.cons_ne_nil _ _

theorem Closes.getLast? {inside : List Char} (h : Closes quote inside) : inside.getLast? = some quote := by
  induction h with
  | quote => rfl
  | plain _ _ hrest ih => rw [List.getLast?_cons_of_ne_nil hrest.ne_nil, ih]
  | escaped c hrest ih =>
    rw [List.getLast?_cons_of_ne_nil (List.cons_ne_nil _ _), List.getLast?_cons_of_ne_nil hrest.ne_nil, ih]

theorem takeLiteral_closes (hquote : isQuote quote = true) {inside : List Char} (h : Closes quote inside)
    (rest : List Char) : takeLiteral quote false (inside ++ rest) = (inside, rest) := by
  induction h with
  | quote => exact takeLiteral_end (by simp [ends]) rest
  | plain hend hplain _ ih =>
    rw [List.cons_append, takeLiteral_cons hend, beq_eq_false_iff_ne.mpr hplain, ih]
  | escaped c _ ih =>
    have hend : ends quote '\\' = false := by
      rcases eq_of_isQuote hquote with rfl | rfl | rfl <;> decide
    rw [List.cons_append, List.cons_append, takeLiteral_cons hend, beq_self_eq_true, takeLiteral_escaped, ih]

theorem special?_literal (hquote : isQuote quote = true) {inside : List Char} (h : Closes quote inside)
    (rest : List Char) :
    special? (quote :: inside ++ rest) = some (⟨.literal, quote :: inside⟩, rest) := by
  have hstart : special? (quote :: (inside ++ rest)) = some (⟨.literal,
      quote :: (takeLiteral quote false (inside ++ rest)).1⟩, (takeLiteral quote false (inside ++ rest)).2) := by
    rcases eq_of_isQuote hquote with rfl | rfl | rfl <;> rfl
  rw [List.cons_append, hstart, takeLiteral_closes hquote h]

/-- No character of a text starts a literal or a comment, where `ahead` is the character that follows. -/
def IsCode (ahead : Option Char) : List Char → Prop
  | [] => True
  | c :: cs => Situation.code.next c (cs.head?.or ahead) = .code ∧ IsCode ahead cs

theorem isCode_append {as bs : List Char} :
    IsCode ahead (as ++ bs) ↔ IsCode (bs.head?.or ahead) as ∧ IsCode ahead bs := by
  induction as with
  | nil => exact ⟨fun h => ⟨trivial, h⟩, And.right⟩
  | cons a as ih => rw [List.cons_append, IsCode, IsCode, ih, List.head?_append, Option.or_assoc, and_assoc]

/-- Only a slash at the end of the code asks for what follows. -/
theorem IsCode.change (h : IsCode ahead cs) (hlast : cs.getLast? = some '/' → IsMute ahead') :
    IsCode ahead' cs := by
  induction cs with
  | nil => trivial
  | cons c cs ih =>
    obtain ⟨hc, hcs⟩ := h
    by_cases hnil : cs = []
    · subst hnil
      refine ⟨Situation.next_code_iff.mpr ⟨(Situation.next_code_iff.mp hc).1, ?_⟩, trivial⟩
      rintro rfl
      exact hlast rfl
    · obtain ⟨d, behind, rfl⟩ := List.exists_cons_of_ne_nil hnil
      refine ⟨hc, ih hcs ?_⟩
      rwa [List.getLast?_cons_of_ne_nil hnil] at hlast

/-- Code that a slash can follow is followed by anything. -/
theorem IsCode.of_slash (h : IsCode (some '/') cs) (ahead : Option Char) : IsCode ahead cs := by
  refine h.change fun hlast => ?_
  obtain ⟨before, rfl⟩ := List.getLast?_eq_some_iff.mp hlast
  have hnext := (isCode_append.mp h).2.1
  cases (show Situation.line = .code from hnext)

/-! ## Pieces that read back -/

/-- Ended literals, and code without the marks of literals and comments, each where it stands. -/
inductive Sound : List Piece → Prop where
  | nil : Sound []
  | literal {quote : Char} {inside : List Char} {ps : List Piece} (hquote : isQuote quote = true)
    (h : Closes quote inside) (hrest : Sound ps) : Sound (⟨.literal, quote :: inside⟩ :: ps)
  | code {code : List Char} {ps : List Piece} (h : IsCode (ps.flatMap text).head? code) (hrest : Sound ps) :
    Sound (⟨.code, code⟩ :: ps)

/-- Pieces with code that nothing stands between as one piece, behind code that was gathered newest
first. -/
def joined : List Char → List Piece → List Piece
  | code, [] => ofCode code
  | code, q :: qs =>
    if q.kind = .code then joined (q.text.reverse ++ code) qs else ofCode code ++ q :: joined [] qs

/-- Code is gathered character by character. -/
theorem Cuts.behind (hcode : IsCode rest.head? cs) (h : Cuts (cs.reverse ++ code) rest ps) :
    Cuts code (cs ++ rest) ps := by
  induction cs generalizing code with
  | nil => exact h
  | cons c cs ih =>
    refine .char (special?_eq_none_iff.mpr ?_) (ih hcode.2 ?_)
    · change Situation.code.next c (cs ++ rest).head? = .code
      rw [List.head?_append]
      exact hcode.1
    · rwa [List.reverse_cons, List.append_assoc] at h

/-- A list of sound pieces reads back, but for code that follows code. -/
theorem Sound.cuts (h : Sound ps) (code : List Char) : Cuts code (ps.flatMap text) (joined code ps) := by
  induction h generalizing code with
  | nil => exact .done code
  | literal hquote hcloses _ ih => exact .special (special?_literal hquote hcloses _) (ih [])
  | code hcode _ ih => exact .behind hcode (ih _)

/-- Pieces without the comments. -/
def withoutComments (ps : List Piece) : List Piece := ps.filter fun q => q.kind != .comment

theorem withoutComments_ofCode_append (code : List Char) (ps : List Piece) :
    withoutComments (ofCode code ++ ps) = ofCode code ++ withoutComments ps := by
  unfold withoutComments ofCode
  split <;> rfl

theorem Sound.ofCode_append (hcode : IsCode (ps.flatMap text).head? code.reverse) (h : Sound ps) :
    Sound (ofCode code ++ ps) := by
  unfold ofCode
  split
  · exact h
  · exact .code hcode h

/-- A text is cut into sound pieces, if its literals are ended and its comments are taken out. -/
theorem Cuts.sound (h : Cuts code cs ps) (hcode : IsCode cs.head? code.reverse)
    (hended : ∀ q ∈ ps, q.kind = .literal → q.IsEnded) : Sound (withoutComments ps) := by
  induction h with
  | done code =>
    have hfilter := withoutComments_ofCode_append code []
    rw [List.append_nil] at hfilter
    rw [hfilter]
    exact .ofCode_append hcode .nil
  | @special code cs rest q qs hfound _ ih =>
    obtain ⟨rfl, hne, hkind⟩ := special?_append hfound
    have hrest : Sound (withoutComments qs) :=
      ih trivial fun r hr => hended r (List.mem_append_right _ (List.mem_cons_of_mem q hr))
    rw [withoutComments_ofCode_append]
    rw [List.head?_append_of_ne_nil _ hne] at hcode
    cases hq : q.kind with
    | code => exact absurd hq hkind
    | literal =>
      obtain ⟨quote, inside, htext, hquote, hcloses⟩ :=
        hended q (List.mem_append_right _ List.mem_cons_self) hq
      obtain ⟨kind, text⟩ := q
      obtain rfl : kind = .literal := hq
      obtain rfl : text = quote :: inside := htext
      exact .ofCode_append hcode (.literal hquote hcloses hrest)
    | comment =>
      -- the code before a comment can be followed by a slash
      have hslash : q.text.head? = some '/' := by
        have hstarts := starts_special? (q.text ++ rest)
        rw [hfound] at hstarts
        generalize q.text ++ rest = cs at hstarts
        cases hstarts with
        | line | block => rfl
        | literal => cases hq
      rw [hslash] at hcode
      have hdrop : withoutComments (q :: qs) = withoutComments qs :=
        List.filter_cons_of_neg (by simp [hq])
      rw [hdrop]
      exact .ofCode_append (hcode.of_slash _) hrest
  | @char code cs c ps hnone _ ih =>
    refine ih ?_ hended
    rw [List.reverse_cons, isCode_append]
    exact ⟨hcode, special?_eq_none_iff.mp hnone, trivial⟩

/-! ## Literals and words of pieces -/

/-- The texts of the literals among pieces. -/
def literals (ps : List Piece) : List (List Char) := (ps.filter fun q => q.kind == .literal).map text

/-- The words of the code among pieces. -/
def codeWords (p : Char → Bool) (ps : List Piece) : List (List Char) :=
  (ps.filter fun q => q.kind == .code).flatMap fun q => words p q.text

theorem literals_append (ps qs : List Piece) : literals (ps ++ qs) = literals ps ++ literals qs := by
  unfold literals
  rw [List.filter_append, List.map_append]

theorem literals_ofCode (code : List Char) : literals (ofCode code) = [] := by
  unfold ofCode
  split <;> rfl

theorem literals_joined (code : List Char) (ps : List Piece) : literals (joined code ps) = literals ps := by
  induction ps generalizing code with
  | nil => exact literals_ofCode code
  | cons q qs ih =>
    unfold joined
    split
    · rename_i hq
      rw [ih]
      simp [literals, hq]
    · rw [literals_append, literals_ofCode, List.nil_append, ← List.singleton_append, literals_append, ih,
        ← literals_append, List.singleton_append]

theorem literals_withoutComments (ps : List Piece) : literals (withoutComments ps) = literals ps := by
  unfold literals withoutComments
  rw [List.filter_filter]
  congr 2
  funext q
  cases q.kind <;> rfl

theorem codeWords_append (p : Char → Bool) (ps qs : List Piece) :
    codeWords p (ps ++ qs) = codeWords p ps ++ codeWords p qs := by
  unfold codeWords
  rw [List.filter_append, List.flatMap_append]

theorem codeWords_cons_code {q : Piece} (hq : q.kind = .code) (qs : List Piece) :
    codeWords p (q :: qs) = words p q.text ++ codeWords p qs := by
  simp [codeWords, hq]

theorem codeWords_cons_other {q : Piece} (hq : q.kind ≠ .code) (qs : List Piece) :
    codeWords p (q :: qs) = codeWords p qs := by
  simp [codeWords, hq]

theorem codeWords_ofCode (code : List Char) : codeWords p (ofCode code) = words p code.reverse := by
  unfold ofCode
  split
  · rename_i hnil
    rw [List.isEmpty_iff.mp hnil]
    rfl
  · rw [codeWords_cons_code rfl]
    exact List.append_nil _

theorem codeWords_withoutComments (ps : List Piece) : codeWords p (withoutComments ps) = codeWords p ps := by
  unfold codeWords withoutComments
  rw [List.filter_filter]
  congr 2
  funext q
  cases q.kind <;> rfl

/-- A word of one piece of code goes on in the next one. -/
def Meets (p : Char → Bool) (q q' : Piece) : Prop :=
  q.kind = .code ∧ q'.kind = .code ∧ joins p q.text q'.text = true

theorem joined_cons_code {q : Piece} (hq : q.kind = .code) (code : List Char) (qs : List Piece) :
    joined code (q :: qs) = joined (q.text.reverse ++ code) qs := if_pos hq

theorem joined_cons_other {q : Piece} (hq : q.kind ≠ .code) (code : List Char) (qs : List Piece) :
    joined code (q :: qs) = ofCode code ++ q :: joined [] qs := if_neg hq

/-- Joining code adds no words. -/
theorem length_codeWords_joined_le (code : List Char) (ps : List Piece) :
    (codeWords p (joined code ps)).length ≤ (words p code.reverse).length + (codeWords p ps).length := by
  induction ps generalizing code with
  | nil =>
    rw [joined, codeWords_ofCode]
    exact Nat.le_add_right _ _
  | cons q qs ih =>
    by_cases hq : q.kind = .code
    · have hrest := ih (q.text.reverse ++ code)
      have hmet := length_words_append (p := p) code.reverse q.text
      rw [List.reverse_append, List.reverse_reverse] at hrest
      rw [joined_cons_code hq, codeWords_cons_code hq, List.length_append]
      omega
    · have hrest := ih []
      rw [joined_cons_other hq, codeWords_append, codeWords_ofCode, codeWords_cons_other hq,
        codeWords_cons_other hq, List.length_append]
      simpa [words_nil] using hrest

theorem isChain_cons_of_text {q q' : Piece} (hkind : q.kind = .code) (hkind' : q'.kind = .code)
    (htext : ∀ r, joins p q.text r = joins p q'.text r) (ps : List Piece) :
    (q :: ps).IsChain (fun q q' => ¬Meets p q q') ↔ (q' :: ps).IsChain fun q q' => ¬Meets p q q' := by
  simp only [List.isChain_cons, Meets, hkind, hkind', htext]

theorem isChain_cons_of_not_meets {q : Piece} (h : ∀ r, ¬Meets p q r) (ps : List Piece) :
    (q :: ps).IsChain (fun q q' => ¬Meets p q q') ↔ ps.IsChain fun q q' => ¬Meets p q q' := by
  rw [List.isChain_cons, and_iff_right fun r _ => h r]

theorem not_meets_of_kind {q : Piece} (hq : q.kind ≠ .code) (r : Piece) : ¬Meets p q r :=
  fun hmeets => hq hmeets.1

/-- Joining code keeps the words just if none of them meet. -/
theorem codeWords_joined_iff (hne : ∀ q ∈ ps, q.text ≠ []) (code : List Char) :
    codeWords p (joined code ps) = words p code.reverse ++ codeWords p ps ↔
      ((⟨.code, code.reverse⟩ : Piece) :: ps).IsChain fun q q' => ¬Meets p q q' := by
  induction ps generalizing code with
  | nil =>
    rw [joined, codeWords_ofCode]
    exact iff_of_true (List.append_nil _).symm (.singleton _)
  | cons q qs ih =>
    have hqs : ∀ r ∈ qs, r.text ≠ [] := fun r hr => hne r (List.mem_cons_of_mem q hr)
    rw [List.isChain_cons_cons]
    by_cases hq : q.kind = .code
    · have hrest := ih hqs (q.text.reverse ++ code)
      rw [List.reverse_append, List.reverse_reverse] at hrest
      have htext : ∀ r, joins p (code.reverse ++ q.text) r = joins p q.text r :=
        joins_append_left (hne q List.mem_cons_self) code.reverse
      have hchain := isChain_cons_of_text (q := ⟨.code, code.reverse ++ q.text⟩) rfl hq htext qs
      rw [hchain] at hrest
      rw [joined_cons_code hq, codeWords_cons_code hq]
      have hle := length_codeWords_joined_le (p := p) (q.text.reverse ++ code) qs
      have hmet := length_words_append (p := p) code.reverse q.text
      rw [List.reverse_append, List.reverse_reverse] at hle
      constructor
      · intro h
        -- a word less here is not made up for later on
        have hlength := congrArg List.length h
        rw [List.length_append, List.length_append] at hlength
        have hapart : joins p code.reverse q.text = false := by
          cases hjoins : joins p code.reverse q.text with
          | false => rfl
          | true =>
            rw [hjoins, if_pos rfl] at hmet
            omega
        refine ⟨fun hmeets => ?_, hrest.mp ?_⟩
        · rw [hmeets.2.2] at hapart
          cases hapart
        · rw [h, words_append hapart, List.append_assoc]
      · rintro ⟨hapart, htail⟩
        have hjoins : joins p code.reverse q.text = false := by
          cases hjoins : joins p code.reverse q.text with
          | false => rfl
          | true => exact absurd ⟨rfl, hq, hjoins⟩ hapart
        rw [hrest.mpr htail, words_append hjoins, List.append_assoc]
    · have hrest := ih hqs []
      have hnone : ∀ r, ¬Meets p ⟨.code, [].reverse⟩ r := by
        rintro r ⟨-, -, hjoins⟩
        cases hjoins
      rw [isChain_cons_of_not_meets hnone] at hrest
      rw [joined_cons_other hq, codeWords_append, codeWords_ofCode, codeWords_cons_other hq,
        codeWords_cons_other hq, List.append_cancel_left_eq, isChain_cons_of_not_meets (not_meets_of_kind hq)]
      refine hrest.trans (iff_and_self.mpr ?_)
      rintro - ⟨-, hkind, -⟩
      exact hq hkind

/-! ## Blanks in pieces -/

theorem not_blank_of_isQuote (h : isQuote quote = true) : isBlank quote = false := by
  rcases eq_of_isQuote h with rfl | rfl | rfl <;> decide

theorem isMute_of_blank (h : isBlank c = true) : IsMute (some c) := by
  refine ⟨?_, ?_⟩
  · rintro ⟨⟩
    cases (show isBlank '/' = true from h)
  · rintro ⟨⟩
    cases (show isBlank '*' = true from h)

theorem IsCode.compact (h : IsCode ahead cs) : IsCode ahead (compact cs) := by
  induction cs with
  | nil => trivial
  | cons c cs ih =>
    unfold Text.compact
    split
    · exact ih h.2
    · obtain ⟨hquote, hmute⟩ := Situation.next_code_iff.mp h.1
      refine ⟨Situation.next_code_iff.mpr ⟨hquote, fun hslash => ?_⟩, ih h.2⟩
      -- behind a slash stands what stood there before, or a blank
      rcases head?_compact cs with heq | ⟨b, hb, -, -, hblank, -⟩
      · rw [heq]
        exact hmute hslash
      · rw [Option.mem_def.mp hb, Option.some_or]
        exact isMute_of_blank hblank

theorem Closes.compact (hquote : isQuote quote = true) {inside : List Char} (h : Closes quote inside) :
    Closes quote (compact inside) := by
  have hquoteBlank := not_blank_of_isQuote hquote
  induction h with
  | quote =>
    rw [compact_cons_of_not_blank hquoteBlank]
    exact .quote
  | plain hend hplain _ ih =>
    unfold Text.compact
    split
    · exact ih
    · exact .plain hend hplain ih
  | escaped c _ ih =>
    rw [compact_cons_of_not_blank (by decide)]
    unfold Text.compact
    split
    · -- the backslash stands before another blank of the same row
      rename_i hdropped
      obtain ⟨b, more, hmore, hb⟩ := exists_compact_of_breaksOff (Bool.and_eq_true_iff.mp hdropped).2
      rw [hmore] at ih ⊢
      cases ih with
      | quote =>
        rw [hquoteBlank] at hb
        cases hb
      | plain _ _ hrest => exact .escaped b hrest
      | escaped => cases hb
    · exact .escaped c ih

/-- A piece with line breaks for the blanks up to them. -/
def compacted (q : Piece) : Piece := { q with text := compact q.text }

/-- Literals keep blanks apart, so each piece is compacted for itself. -/
theorem Sound.compacted (h : Sound ps) (hchain : ps.IsChain Apart) :
    Sound (ps.map Piece.compacted) ∧ (ps.map Piece.compacted).flatMap text = compact (ps.flatMap text) := by
  induction h with
  | nil => exact ⟨.nil, rfl⟩
  | @literal quote inside ps hquote hcloses hrest ih =>
    obtain ⟨hsound, htext⟩ := ih hchain.of_cons
    have hblank := not_blank_of_isQuote hquote
    have hinside : compact (quote :: inside) = quote :: compact inside := compact_cons_of_not_blank hblank inside
    have hlast : ∀ c ∈ (quote :: inside).getLast?, isBlank c = false := by
      rw [List.getLast?_cons_of_ne_nil hcloses.ne_nil, hcloses.getLast?]
      rintro c ⟨⟩
      exact hblank
    rw [List.map_cons, Piece.compacted, hinside]
    refine ⟨.literal hquote (hcloses.compact hquote) hsound, ?_⟩
    rw [List.flatMap_cons, List.flatMap_cons, htext, compact_append (.inl hlast), hinside]
  | @code code ps hcode hrest ih =>
    obtain ⟨hsound, htext⟩ := ih hchain.of_cons
    -- behind code there is a literal or nothing
    have hahead : (∀ c ∈ (ps.flatMap text).head?, isBlank c = false) := by
      cases hrest with
      | nil => exact fun c hc => by cases hc
      | literal hquote =>
        rintro c ⟨⟩
        exact not_blank_of_isQuote hquote
      | code =>
        rcases (List.isChain_cons_cons.mp hchain).1 with hne | hne <;> exact absurd rfl hne
    have hhead : ((ps.map Piece.compacted).flatMap text).head? = (ps.flatMap text).head? := by
      rw [htext]
      rcases head?_compact (ps.flatMap text) with heq | ⟨-, -, c, hc, -, hblank⟩
      · exact heq
      · rw [hahead c hc] at hblank
        cases hblank
    rw [List.map_cons]
    refine ⟨.code (by rw [hhead]; exact hcode.compact) hsound, ?_⟩
    rw [List.flatMap_cons, List.flatMap_cons, htext, compact_append (.inr hahead)]
    rfl

/-! ## What is left of a script -/

theorem Sound.kind_ne (h : Sound ps) : ∀ q ∈ ps, q.kind ≠ .comment := by
  induction h with
  | nil => exact fun q hq => absurd hq List.not_mem_nil
  | literal _ _ _ ih =>
    intro q hq
    rcases List.mem_cons.mp hq with rfl | hq
    · exact PieceKind.noConfusion
    · exact ih q hq
  | code _ _ ih =>
    intro q hq
    rcases List.mem_cons.mp hq with rfl | hq
    · exact PieceKind.noConfusion
    · exact ih q hq

theorem Sound.joined (h : Sound ps) (code : List Char)
    (hcode : IsCode (ps.flatMap text).head? code.reverse) : Sound (joined code ps) := by
  induction h generalizing code with
  | nil =>
    have hsound := Sound.nil.ofCode_append hcode
    rwa [List.append_nil] at hsound
  | literal hquote hcloses _ ih => exact .ofCode_append hcode (.literal hquote hcloses (ih [] trivial))
  | code hnext _ ih =>
    refine ih _ ?_
    rw [List.reverse_append, List.reverse_reverse, isCode_append]
    refine ⟨?_, hnext⟩
    rwa [List.flatMap_cons, List.head?_append] at hcode

/-- A piece with a line break. -/
def lineBreak : Piece := ⟨.code, ['\n']⟩

/-- Pieces between two line breaks. -/
def between (ps : List Piece) : List Piece := lineBreak :: (ps ++ [lineBreak])

theorem flatMap_between (ps : List Piece) : (between ps).flatMap text = '\n' :: (ps.flatMap text ++ ['\n']) := by
  simp [between, lineBreak]

theorem isCode_lineBreak (ahead : Option Char) : IsCode ahead ['\n'] :=
  ⟨Situation.next_calm (by decide) _, trivial⟩

theorem Sound.append_lineBreak (h : Sound ps) : Sound (ps ++ [lineBreak]) := by
  induction h with
  | nil => exact .code (isCode_lineBreak _) .nil
  | literal hquote hcloses _ ih => exact .literal hquote hcloses ih
  | @code code ps hcode _ ih =>
    refine .code ?_ ih
    change IsCode ((ps ++ [lineBreak]).flatMap text).head? code
    rw [List.flatMap_append, List.head?_append]
    cases hnext : (ps.flatMap text).head? with
    | some c =>
      rw [hnext] at hcode
      exact hcode
    | none => exact hcode.change fun _ => by decide

theorem Sound.between (h : Sound ps) : Sound (between ps) := .code (isCode_lineBreak _) h.append_lineBreak

theorem literals_between (ps : List Piece) : literals (between ps) = literals ps := by
  simp [literals, between, lineBreak]

theorem codeWords_between (hp : p '\n' = false) (ps : List Piece) :
    codeWords p (between ps) = codeWords p ps := by
  have hbreak : codeWords p [lineBreak] = [] := by
    rw [codeWords_cons_code rfl, lineBreak, words_cons_of_neg hp]
    rfl
  rw [between, ← List.singleton_append, codeWords_append, codeWords_append, hbreak, List.nil_append,
    List.append_nil]

theorem isChain_between_iff (hp : p '\n' = false) (ps : List Piece) :
    (between ps).IsChain (fun q q' => ¬Meets p q q') ↔ ps.IsChain fun q q' => ¬Meets p q q' := by
  have hfrom : ∀ q, ¬Meets p lineBreak q := by
    rintro q ⟨-, -, hjoins⟩
    simp [joins, lineBreak, hp] at hjoins
  have hto : ∀ q, ¬Meets p q lineBreak := by
    rintro q ⟨-, -, hjoins⟩
    simp [joins, lineBreak, hp] at hjoins
  rw [between, isChain_cons_of_not_meets hfrom, List.isChain_append]
  refine and_iff_left ⟨.singleton _, ?_⟩
  rintro q - r ⟨⟩
  exact hto q

theorem joined_cons (code : List Char) (hcode : code ≠ []) (ps : List Piece) : ∃ more qs,
    joined code ps = ⟨.code, code.reverse ++ more⟩ :: qs := by
  induction ps generalizing code with
  | nil =>
    refine ⟨[], [], ?_⟩
    simp [joined, ofCode, hcode]
  | cons q qs ih =>
    by_cases hq : q.kind = .code
    · obtain ⟨more, rest, heq⟩ := ih (q.text.reverse ++ code) (by simp [hcode])
      refine ⟨q.text ++ more, rest, ?_⟩
      rw [joined_cons_code hq, heq]
      simp
    · refine ⟨[], q :: joined [] qs, ?_⟩
      rw [joined_cons_other hq]
      simp [ofCode, hcode]

theorem literals_compacted (ps : List Piece) :
    literals (ps.map Piece.compacted) = (literals ps).map compact := by
  unfold literals
  rw [List.filter_map, List.map_map, List.map_map]
  rfl

theorem codeWords_compacted (hp : ∀ c, isBlank c = true → p c = false) (ps : List Piece) :
    codeWords p (ps.map Piece.compacted) = codeWords p ps := by
  unfold codeWords
  rw [List.filter_map, List.flatMap_map]
  congr 1
  funext q
  exact words_compact hp q.text

/-- The pieces of a script without comments, between two line breaks and with the code joined, are those of
the stripped script but for the line break in front and for blanks. -/
theorem exists_cut_stripComments {js : String}
    (hended : ∀ q ∈ cut js.toList, q.kind = .literal → q.IsEnded) :
    ∃ more qs, (joined [] (between (withoutComments (cut js.toList)))).map Piece.compacted
        = ⟨.code, '\n' :: more⟩ :: qs ∧
      cut (stripComments js).toList = joined more.reverse qs ∧ Sound (⟨.code, more⟩ :: qs) ∧
      ((⟨.code, more⟩ : Piece) :: qs).IsChain Apart ∧ ∀ q ∈ qs, q.text ≠ [] := by
  have hsound : Sound (between (withoutComments (cut js.toList))) :=
    ((cuts_cut js.toList).sound trivial hended).between
  generalize hbare : withoutComments (cut js.toList) = ps at hsound ⊢
  have hcuts := hsound.cuts []
  obtain ⟨hcompacted, htext⟩ := (hsound.joined [] trivial).compacted hcuts.isChain
  have hlines : (stripComments js).toList = (lines (ps.flatMap text)).flatMap strippedLine := by
    rw [← hbare]
    exact String.toList_ofList
  rw [hcuts.flatMap_text, flatMap_between] at htext
  change _ = compact ('\n' :: (ps.flatMap text ++ ['\n'])) at htext
  rw [compact_lines, ← hlines] at htext
  -- the first piece starts with the line break in front
  obtain ⟨tail, rest, hjoined⟩ := joined_cons ['\n'] (List.cons_ne_nil _ _) (ps ++ [lineBreak])
  replace hjoined : joined [] (between ps) = ⟨.code, '\n' :: tail⟩ :: rest := hjoined
  have hchain := hcuts.isChain
  have hne := hcuts.text_ne_nil
  rw [hjoined] at hcompacted htext hchain hne ⊢
  obtain ⟨c, more, hmore⟩ := List.exists_cons_of_ne_nil (compact_ne_nil (List.cons_ne_nil '\n' tail))
  rw [List.map_cons, Piece.compacted, hmore] at hcompacted htext ⊢
  obtain ⟨rfl, hstripped⟩ := List.cons.inj htext
  change ((⟨.code, more⟩ : Piece) :: rest.map Piece.compacted).flatMap text = _ at hstripped
  have hbehind : Sound (⟨.code, more⟩ :: rest.map Piece.compacted) := by
    cases hcompacted with
    | code hcode hrest => exact .code hcode.2 hrest
  refine ⟨more, rest.map Piece.compacted, rfl, ?_, hbehind, ?_, ?_⟩
  · have hcut := hbehind.cuts []
    rw [hstripped, joined_cons_code rfl, List.append_nil] at hcut
    exact (cuts_cut _).eq hcut
  · rw [List.isChain_cons] at hchain ⊢
    refine ⟨?_, (List.isChain_map _).mpr hchain.2⟩
    intro q hq
    rw [List.head?_map] at hq
    obtain ⟨r, hr, rfl⟩ := Option.map_eq_some_iff.mp hq
    exact hchain.1 r hr
  · intro q hq
    obtain ⟨r, hr, rfl⟩ := List.mem_map.mp hq
    exact compact_ne_nil (hne r (List.mem_cons_of_mem _ hr))

/-- The literals of a stripped script are those it had, each with line breaks for the blanks up to them. -/
theorem literals_stripComments {js : String} (hended : ∀ q ∈ cut js.toList, q.kind = .literal → q.IsEnded) :
    literals (cut (stripComments js).toList) = (literals (cut js.toList)).map compact := by
  obtain ⟨more, qs, hqs, hcut, -⟩ := exists_cut_stripComments hended
  calc literals (cut (stripComments js).toList)
      = literals qs := by rw [hcut, literals_joined]
    _ = literals ((joined [] (between (withoutComments (cut js.toList)))).map Piece.compacted) := by
      rw [hqs]
      rfl
    _ = (literals (cut js.toList)).map compact := by
      rw [literals_compacted, literals_joined, literals_between, literals_withoutComments]

/-- The words of a stripped script are those of the code that was joined. -/
theorem codeWords_stripComments (hp : ∀ c, isBlank c = true → p c = false) {js : String}
    (hended : ∀ q ∈ cut js.toList, q.kind = .literal → q.IsEnded) :
    codeWords p (cut (stripComments js).toList)
      = codeWords p (joined [] (between (withoutComments (cut js.toList)))) := by
  obtain ⟨more, qs, hqs, hcut, -, hchain, hne⟩ := exists_cut_stripComments hended
  have hbreak : p '\n' = false := hp '\n' (by decide)
  have hapart : ((⟨.code, more.reverse.reverse⟩ : Piece) :: qs).IsChain fun q q' => ¬Meets p q q' := by
    rw [List.reverse_reverse]
    refine hchain.imp ?_
    rintro q q' (hkind | hkind) ⟨hq, hq', -⟩
    · exact hkind hq
    · exact hkind hq'
  have hfirst : codeWords p (⟨.code, '\n' :: more⟩ :: qs) = words p ('\n' :: more) ++ codeWords p qs :=
    codeWords_cons_code rfl qs
  calc codeWords p (cut (stripComments js).toList)
      = words p more ++ codeWords p qs := by
        rw [hcut, (codeWords_joined_iff hne _).mpr hapart, List.reverse_reverse]
    _ = codeWords p (⟨.code, '\n' :: more⟩ :: qs) := by
        rw [hfirst, words_cons_of_neg hbreak]
    _ = codeWords p (joined [] (between (withoutComments (cut js.toList)))) := by
        rw [← hqs, codeWords_compacted hp]

/-- **What stripping keeps.** If the literals of a script are ended, the stripped script has no comments; it
has the same literals just if none of them has a blank in front of a line break; and it has the same words,
for a class of characters without blanks, just if nowhere comments alone stand between two of them. -/
theorem stripComments_keeps_iff (hp : ∀ c, isBlank c = true → p c = false) {js : String}
    (hended : ∀ q ∈ cut js.toList, q.kind = .literal → q.IsEnded) :
    (∀ q ∈ cut (stripComments js).toList, q.kind ≠ .comment) ∧
    (literals (cut (stripComments js).toList) = literals (cut js.toList) ↔
      ∀ literal ∈ literals (cut js.toList), ¬HasLooseEnd literal) ∧
    (codeWords p (cut (stripComments js).toList) = codeWords p (cut js.toList) ↔
      (withoutComments (cut js.toList)).IsChain fun q q' => ¬Meets p q q') := by
  refine ⟨?_, ?_, ?_⟩
  · obtain ⟨more, qs, -, hcut, hsound, -⟩ := exists_cut_stripComments hended
    have hjoined := (hsound.joined [] trivial).kind_ne
    rwa [joined_cons_code rfl, List.append_nil, ← hcut] at hjoined
  · have hsame : (literals (cut js.toList)).map compact = (literals (cut js.toList)).map id ↔
        ∀ literal ∈ literals (cut js.toList), compact literal = literal := List.map_inj_left
    rw [List.map_id] at hsame
    simp only [literals_stripComments hended, hsame, compact_eq_self_iff]
  · have hbreak := hp '\n' (by decide)
    have hne : ∀ q ∈ between (withoutComments (cut js.toList)), q.text ≠ [] := by
      intro q hq
      simp only [between, List.mem_cons, List.mem_append, List.not_mem_nil, or_false] at hq
      rcases hq with rfl | hq | rfl
      · exact List.cons_ne_nil _ _
      · exact (cuts_cut js.toList).text_ne_nil q (List.mem_of_mem_filter hq)
      · exact List.cons_ne_nil _ _
    have hnone : ∀ r, ¬Meets p ⟨.code, [].reverse⟩ r := by
      rintro r ⟨-, -, hjoins⟩
      cases hjoins
    have hiff := codeWords_joined_iff (p := p) hne []
    rw [isChain_cons_of_not_meets hnone, isChain_between_iff hbreak, codeWords_between hbreak,
      codeWords_withoutComments] at hiff
    rw [codeWords_stripComments hp hended]
    exact hiff

example : stripComments "return/* it */x;\nvar y = \x60a \nb\x60;" = "returnx;\nvar y = \x60a\nb\x60;\n" := by
  decide +kernel

end Piece

end Bundler.Script

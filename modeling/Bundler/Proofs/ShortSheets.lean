/-
The short form of a style sheet.

The short form is made in passes over the whole text, which know neither strings nor selectors. What they do
together can be told in one rule (`minify_eq`): the words of the sheet without its comments, that is its
parts without blanks, are put together with one blank between two of them, but with none where punctuation
stands on either side, and then a semicolon goes where a brace follows it. So a blank in front of a colon goes
in a selector as in a declaration, and blanks in strings are treated as all others.

The rest follows from the rule. Apart from comments, blanks and semicolons in front of braces nothing goes
(`filter_minify`). And the short form of a short form is the same just if it holds no comment, and no semicolon
in front of a brace, which is left where there were two (`minify_minify_iff`).
-/
import Bundler.Stylesheet
import Bundler.Proofs.Words

set_option autoImplicit false

namespace Bundler.Stylesheet

open Text

variable {behind inRun : Bool} {c d : Char} {as bs cs : List Char}

/-! ## The passes -/

theorem squeeze_of_not_blank (hc : isBlank c = false) (inRun : Bool) (cs : List Char) :
    squeeze inRun (c :: cs) = c :: squeeze false cs := by simp [squeeze, hc]

theorem squeeze_of_blank (hc : isBlank c = true) (inRun : Bool) (cs : List Char) :
    squeeze inRun (c :: cs) = (if inRun then [] else [' ']) ++ squeeze true cs := by
  cases inRun <;> simp [squeeze, hc]

theorem tighten_of_not_blank (hc : isBlank c = false) (behind : Bool) (cs : List Char) :
    tighten behind (c :: cs) = c :: tighten (isPunctuation c) cs := by simp [tighten, hc]

/-- Text without the semicolons that stand in front of a brace. -/
def dropSemicolons (cs : List Char) : List Char := replaceAll [';', '\x7d'] ['\x7d'] cs

theorem dropSemicolons_of_dropped (cs : List Char) :
    dropSemicolons (';' :: '\x7d' :: cs) = dropSemicolons ('\x7d' :: cs) := rfl

theorem dropSemicolons_of_kept (h : ¬(c = ';' ∧ cs.head? = some '\x7d')) :
    dropSemicolons (c :: cs) = c :: dropSemicolons cs := by
  refine if_neg ?_
  intro hprefix
  obtain ⟨tail, htail⟩ := List.isPrefixOf_iff_prefix.mp hprefix
  obtain ⟨rfl, rfl⟩ := List.cons.inj htail
  exact h ⟨rfl, rfl⟩

/-- Text without the blanks that the short form leaves out; `behind` says whether punctuation came just
before. -/
def short (behind : Bool) (cs : List Char) : List Char := tighten behind (squeeze false cs)

theorem minify_eq_trim (css : String) :
    (minify css).toList = trim (dropSemicolons (short false (dropComments 0 css.toList))) :=
  String.toList_ofList

theorem short_of_not_blank (hc : isBlank c = false) (behind : Bool) (cs : List Char) :
    short behind (c :: cs) = c :: short (isPunctuation c) cs := by
  rw [short, squeeze_of_not_blank hc, tighten_of_not_blank hc]
  rfl

/-- A text that starts with no blank. -/
def StartsFull (cs : List Char) : Prop := ∀ c ∈ cs.head?, isBlank c = false

/-- A text is empty, or it starts with another character than a blank, with two blanks or with one. -/
@[elab_as_elim]
theorem blanks_induction {P : List Char → Prop} (nil : P [])
    (full : ∀ c cs, isBlank c = false → P cs → P (c :: cs))
    (blanks : ∀ c d cs, isBlank c = true → isBlank d = true → P (d :: cs) → P (c :: d :: cs))
    (blank : ∀ c cs, isBlank c = true → StartsFull cs → P cs → P (c :: cs)) : ∀ cs, P cs
  | [] => nil
  | [c] => by
    cases hc : isBlank c with
    | true => exact blank c [] hc (fun _ h => by cases h) nil
    | false => exact full c [] hc nil
  | c :: d :: cs => by
    have hrest : P (d :: cs) := blanks_induction nil full blanks blank (d :: cs)
    cases hc : isBlank c with
    | false => exact full c (d :: cs) hc hrest
    | true =>
      cases hd : isBlank d with
      | true => exact blanks c d cs hc hd hrest
      | false => exact blank c (d :: cs) hc (fun e he => by cases he; exact hd) hrest

/-- One blank stands for blanks in a row. -/
theorem short_of_blanks (hc : isBlank c = true) (hd : isBlank d = true) (behind : Bool) (cs : List Char) :
    short behind (c :: d :: cs) = short behind (d :: cs) := by
  rw [short, squeeze_of_blank hc, squeeze_of_blank hd, short, squeeze_of_blank hd]
  rfl

/-- What follows a blank does not know of it. -/
theorem squeeze_of_startsFull (h : StartsFull cs) (inRun : Bool) : squeeze inRun cs = squeeze false cs := by
  cases cs with
  | nil => rfl
  | cons c cs => rw [squeeze_of_not_blank (h c rfl), squeeze_of_not_blank (h c rfl)]

theorem short_of_startsFull (h : StartsFull cs) (behind : Bool) : short behind cs = short false cs := by
  cases cs with
  | nil => rfl
  | cons c cs => rw [short_of_not_blank (h c rfl), short_of_not_blank (h c rfl)]

/-- What starts with no blank starts with the same character when it is short. -/
theorem head?_short (h : StartsFull cs) (behind : Bool) : (short behind cs).head? = cs.head? := by
  cases cs with
  | nil => rfl
  | cons c cs => rw [short_of_not_blank (h c rfl)]; rfl

/-- A blank between two texts, if no punctuation stands on either side. -/
def gapFor (behind : Bool) (cs : List Char) : List Char :=
  if behind || cs.head?.any isPunctuation then [] else [' ']

theorem short_of_blank (hc : isBlank c = true) (h : StartsFull cs) (behind : Bool) :
    short behind (c :: cs) = gapFor behind cs ++ short false cs := by
  have hblank : isBlank ' ' = true := by decide
  have hsqueezed : squeeze false (c :: cs) = ' ' :: squeeze false cs := by
    rw [squeeze_of_blank hc, squeeze_of_startsFull h]
    rfl
  have hdrop : (squeeze false cs).dropWhile isBlank = squeeze false cs ∧
      (squeeze false cs).head? = cs.head? := by
    cases cs with
    | nil => exact ⟨rfl, rfl⟩
    | cons d cs =>
      have hd := h d rfl
      rw [squeeze_of_not_blank hd]
      exact ⟨List.dropWhile_cons_of_neg (by simp [hd]), rfl⟩
  unfold gapFor
  rw [short, hsqueezed, tighten, if_pos hblank, hdrop.1, hdrop.2]
  split
  · exact short_of_startsFull h behind
  · rfl

/-! ## The words of a sheet -/

/-- A character that is not blank. -/
def isFull (c : Char) : Bool := !isBlank c

/-- Words with one blank between two of them, if no punctuation stands on either side. -/
def spaced : List (List Char) → List Char
  | [] => []
  | [w] => w
  | w :: v :: ws => w ++ (gapFor (w.getLast?.any isPunctuation) v ++ spaced (v :: ws))

theorem trimEnd_cons_of_not_blank (hc : isBlank c = false) (cs : List Char) :
    trimEnd (c :: cs) = c :: trimEnd cs := trimEnd_append_cons hc [] cs

/-- A character in front of a word is the start of it. -/
theorem spaced_cons {w : List Char} (hw : w ≠ []) (c : Char) (ws : List (List Char)) :
    spaced ((c :: w) :: ws) = c :: spaced (w :: ws) := by
  cases ws with
  | nil => rfl
  | cons v ws =>
    rw [spaced, spaced, List.getLast?_cons_of_ne_nil hw]
    rfl

/-- What a text starts with when it is short: a blank if it starts with blanks, and if neither punctuation
came before nor comes next. -/
def leadFor (behind : Bool) (cs : List Char) : List Char :=
  if cs.head?.any isBlank then
    match words isFull cs with
    | [] => []
    | w :: _ => gapFor behind w
  else []

theorem leadFor_of_startsFull (h : StartsFull cs) (behind : Bool) : leadFor behind cs = [] := by
  unfold leadFor
  cases cs with
  | nil => rfl
  | cons c cs => simp [h c rfl]

/-- The first word of a text starts as the text does, if that is with no blank. -/
theorem exists_words_of_startsFull (h : StartsFull (c :: cs)) : ∃ w ws,
    words isFull (c :: cs) = (c :: w) :: ws := by
  have hc : isFull c = true := by simp [isFull, h c rfl]
  obtain ⟨w, ws, hwords, -⟩ := exists_words_cons hc cs
  exact ⟨w, ws, hwords⟩

/-- A short text is its words with blanks between them, and with a blank in front and one behind or not. -/
theorem trimEnd_short (behind : Bool) (cs : List Char) :
    trimEnd (short behind cs) = leadFor behind cs ++ spaced (words isFull cs) := by
  induction cs using blanks_induction generalizing behind with
  | nil => rfl
  | blanks c d cs hc hd ih =>
    have hfull : isFull c = false := by simp [isFull, hc]
    rw [short_of_blanks hc hd, ih, words_cons_of_neg hfull, leadFor, leadFor, words_cons_of_neg hfull]
    simp only [List.head?_cons, Option.any_some, hc, hd]
  | blank c cs hc hstart ih =>
    have hfull : isFull c = false := by simp [isFull, hc]
    rw [short_of_blank hc hstart, leadFor, words_cons_of_neg hfull, List.head?_cons, Option.any_some, if_pos hc]
    cases cs with
    | nil =>
      -- a blank at the very end is trimmed
      unfold gapFor
      split <;> rfl
    | cons d cs =>
      obtain ⟨w, ws, hwords⟩ := exists_words_of_startsFull hstart
      have hrest := ih false
      rw [leadFor_of_startsFull hstart, List.nil_append] at hrest
      have hgap : trimEnd (gapFor behind (d :: cs) ++ short false (d :: cs))
          = gapFor behind (d :: cs) ++ trimEnd (short false (d :: cs)) := by
        rw [short_of_not_blank (hstart d rfl), trimEnd_append_cons (hstart d rfl),
          trimEnd_cons_of_not_blank (hstart d rfl)]
      rw [hgap, hrest, hwords]
      rfl
  | full c cs hc ih =>
    have hfull : isFull c = true := by simp [isFull, hc]
    have hstart : StartsFull (c :: cs) := fun d hd => by cases hd; exact hc
    obtain ⟨w, ws, hcons, hwords, hw⟩ := exists_words_cons hfull cs
    rw [short_of_not_blank hc, trimEnd_cons_of_not_blank hc, ih, leadFor_of_startsFull hstart, hcons]
    cases cs with
    | nil =>
      obtain rfl := hw rfl
      obtain rfl : ws = [] := hwords.symm
      rfl
    | cons d cs =>
      cases hd : isBlank d with
      | true =>
        -- the character is a word of its own
        have hhead : isFull d = false := by simp [isFull, hd]
        rw [List.head?_cons, Option.any_some, hhead] at hwords hw
        obtain rfl := hw rfl
        replace hwords : words isFull (d :: cs) = ws := hwords
        rw [leadFor, hwords, List.head?_cons, Option.any_some, hd, if_pos rfl]
        cases ws with
        | nil => rfl
        | cons v ws => rfl
      | false =>
        -- the character starts the first word of the rest
        have hhead : isFull d = true := by simp [isFull, hd]
        have hfirst : StartsFull (d :: cs) := fun e he => by cases he; exact hd
        obtain ⟨w', ws', hwords'⟩ := exists_words_of_startsFull hfirst
        rw [List.head?_cons, Option.any_some, hhead, if_pos rfl, hwords'] at hwords
        obtain ⟨rfl, rfl⟩ := List.cons.inj hwords
        rw [leadFor_of_startsFull hfirst, hwords', spaced_cons (List.cons_ne_nil d w')]
        rfl

theorem head?_spaced {w : List Char} (hw : w ≠ []) (ws : List (List Char)) :
    (spaced (w :: ws)).head? = w.head? := by
  cases ws with
  | nil => rfl
  | cons v ws => rw [spaced, List.head?_append_of_ne_nil _ hw]

theorem getLast?_spaced {ws : List (List Char)} (h : ∀ w ∈ ws, w ≠ []) :
    (spaced ws).getLast? = ws.getLast?.bind List.getLast? := by
  induction ws with
  | nil => rfl
  | cons w ws ih =>
    have hws : ∀ v ∈ ws, v ≠ [] := fun v hv => h v (List.mem_cons_of_mem w hv)
    cases ws with
    | nil => rfl
    | cons v ws =>
      have hne : spaced (v :: ws) ≠ [] := by
        intro hnil
        have hhead := head?_spaced (hws v List.mem_cons_self) ws
        rw [hnil] at hhead
        exact hws v List.mem_cons_self (List.head?_eq_none_iff.mp hhead.symm)
      rw [spaced, List.getLast?_append_of_ne_nil _ (by simp [hne]), List.getLast?_append_of_ne_nil _ hne, ih hws,
        List.getLast?_cons_of_ne_nil (List.cons_ne_nil v ws)]

theorem trimmed_spaced_words (cs : List Char) : Trimmed (spaced (words isFull cs)) := by
  have hfull : ∀ w ∈ words isFull cs, w ≠ [] ∧ ∀ c ∈ w, isBlank c = false := by
    intro w hw
    obtain ⟨hne, hall⟩ := mem_words hw
    exact ⟨hne, fun c hc => by simpa [isFull] using hall c hc⟩
  constructor
  · intro c hc
    cases hwords : words isFull cs with
    | nil =>
      rw [hwords] at hc
      cases hc
    | cons w ws =>
      obtain ⟨hne, hall⟩ := hfull w (hwords ▸ List.mem_cons_self)
      rw [hwords, head?_spaced hne] at hc
      exact hall c (List.mem_of_mem_head? hc)
  · intro c hc
    rw [getLast?_spaced fun w hw => (hfull w hw).1] at hc
    obtain ⟨w, hw, hlast⟩ := Option.bind_eq_some_iff.mp hc
    exact (hfull w (List.mem_of_getLast? hw)).2 c (List.mem_of_getLast? hlast)

theorem isBlank_of_mem_leadFor (behind : Bool) (cs : List Char) (hc : c ∈ leadFor behind cs) :
    isBlank c = true := by
  have hgap : ∀ w, c ∈ gapFor behind w → c = ' ' := by
    intro w hw
    unfold gapFor at hw
    split at hw
    · cases hw
    · exact List.mem_singleton.mp hw
  have hspace : c = ' ' := by
    unfold leadFor at hc
    split at hc
    · split at hc
      · cases hc
      · exact hgap _ hc
    · cases hc
  rw [hspace]
  decide

/-- Without the blanks around it a short text is its words with blanks between them. -/
theorem trim_short (behind : Bool) (cs : List Char) : trim (short behind cs) = spaced (words isFull cs) := by
  have hfirst := (trimmed_spaced_words cs).first
  rw [trim_eq_trimStart_trimEnd, trimEnd_short, trimStart,
    List.dropWhile_append_of_pos fun c => isBlank_of_mem_leadFor behind cs]
  cases hspaced : spaced (words isFull cs) with
  | nil => rfl
  | cons c rest =>
    rw [hspaced] at hfirst
    exact List.dropWhile_cons_of_neg (by simp [hfirst c rfl])

/-! ## Semicolons in front of braces -/

theorem dropSemicolons_cons (c : Char) (cs : List Char) : dropSemicolons (c :: cs)
    = if c = ';' ∧ cs.head? = some '\x7d' then dropSemicolons cs else c :: dropSemicolons cs := by
  split
  · rename_i h
    obtain ⟨rfl, hbrace⟩ := h
    obtain ⟨rest, rfl⟩ := List.head?_eq_some_iff.mp hbrace
    exact dropSemicolons_of_dropped rest
  · exact dropSemicolons_of_kept ‹_›

theorem dropSemicolons_eq_nil (h : dropSemicolons cs = []) : cs = [] := by
  induction cs with
  | nil => rfl
  | cons c cs ih =>
    rw [dropSemicolons_cons] at h
    split at h
    · rename_i hdropped
      rw [ih h] at hdropped
      cases hdropped.2
    · cases h

theorem head?_trimEnd {d : Char} (h : (trimEnd cs).head? = some d) : cs.head? = some d := by
  cases cs with
  | nil => exact h
  | cons c cs =>
    rw [trimEnd_cons] at h
    split at h
    · cases h
    · exact h

theorem trimEnd_dropSemicolons (cs : List Char) :
    trimEnd (dropSemicolons cs) = dropSemicolons (trimEnd cs) := by
  induction cs with
  | nil => rfl
  | cons c cs ih =>
    by_cases hdropped : c = ';' ∧ cs.head? = some '\x7d'
    · obtain ⟨rfl, hbrace⟩ := hdropped
      obtain ⟨rest, rfl⟩ := List.head?_eq_some_iff.mp hbrace
      have hbrace : trimEnd ('\x7d' :: rest) = '\x7d' :: trimEnd rest := trimEnd_append_cons (by decide) [] rest
      have hsemicolon : trimEnd (';' :: '\x7d' :: rest) = ';' :: '\x7d' :: trimEnd rest :=
        (trimEnd_append_cons (by decide) [] _).trans (congrArg (';' :: ·) hbrace)
      rw [dropSemicolons_of_dropped, ih, hsemicolon, hbrace, dropSemicolons_of_dropped]
    · have hkept : ¬(c = ';' ∧ (trimEnd cs).head? = some '\x7d') :=
        fun h => hdropped ⟨h.1, head?_trimEnd h.2⟩
      rw [dropSemicolons_of_kept hdropped, trimEnd_cons, trimEnd_cons, ih]
      by_cases hnil : isBlank c = true ∧ trimEnd cs = []
      · rw [if_pos hnil, if_pos ⟨hnil.1, by rw [hnil.2]; rfl⟩]
        rfl
      · rw [if_neg hnil, if_neg fun h => hnil ⟨h.1, dropSemicolons_eq_nil h.2⟩, dropSemicolons_of_kept hkept]

theorem trimStart_dropSemicolons (cs : List Char) :
    trimStart (dropSemicolons cs) = dropSemicolons (trimStart cs) := by
  unfold trimStart
  induction cs with
  | nil => rfl
  | cons c cs ih =>
    cases hc : isBlank c with
    | true =>
      have hkept : ¬(c = ';' ∧ cs.head? = some '\x7d') := by
        rintro ⟨rfl, -⟩
        cases hc
      rw [dropSemicolons_of_kept hkept, List.dropWhile_cons_of_pos hc, List.dropWhile_cons_of_pos hc, ih]
    | false =>
      rw [List.dropWhile_cons_of_neg (by simp [hc]), dropSemicolons_cons]
      split
      · rename_i hdropped
        obtain ⟨rest, rfl⟩ := List.head?_eq_some_iff.mp hdropped.2
        rw [ih, List.dropWhile_cons_of_neg (by decide)]
      · exact List.dropWhile_cons_of_neg (by simp [hc])

theorem trim_dropSemicolons (cs : List Char) : trim (dropSemicolons cs) = dropSemicolons (trim cs) := by
  rw [trim, trimStart_dropSemicolons, trimEnd_dropSemicolons, trim]

/-- **What the short form is.** The words of the sheet without its comments, with one blank between two of
them if no punctuation stands on either side, and then without the semicolons in front of braces. -/
theorem minify_eq (css : String) :
    (minify css).toList = dropSemicolons (spaced (words isFull (dropComments 0 css.toList))) := by
  rw [minify_eq_trim, trim_dropSemicolons, trim_short]

example : minify "a :hover , b > c \x7b x : \"y  z\" ; ; \x7d" = "a:hover,b>c\x7bx:\"y z\";\x7d" := by
  decide +kernel

/-! ## What goes -/

theorem filter_cons_of_blank (hc : isBlank c = true) (cs : List Char) :
    (c :: cs).filter isFull = cs.filter isFull := List.filter_cons_of_neg (by simp [isFull, hc])

theorem filter_trim (cs : List Char) : (trim cs).filter isFull = cs.filter isFull := by
  have hnone : ∀ {blanks : List Char}, (∀ c ∈ blanks, isBlank c = true) → blanks.filter isFull = [] := by
    intro blanks hblank
    exact List.filter_eq_nil_iff.mpr fun c hc => by simp [isFull, hblank c hc]
  obtain ⟨behind, hcs, hblank⟩ := exists_trim cs
  conv_rhs => rw [hcs]
  rw [List.filter_append, List.filter_append, hnone hblank, hnone fun c => List.mem_takeWhile_imp,
    List.nil_append, List.append_nil]

/-- Behind punctuation a short text starts with the first character that is not blank. -/
theorem head?_short_true (cs : List Char) : (short true cs).head? = (cs.filter isFull).head? := by
  induction cs using blanks_induction with
  | nil => rfl
  | full c cs hc _ =>
    rw [short_of_not_blank hc, List.filter_cons_of_pos (by simp [isFull, hc])]
    rfl
  | blanks c d cs hc hd ih => rw [short_of_blanks hc hd, ih, filter_cons_of_blank hc]
  | blank c cs hc hstart ih =>
    rw [short_of_blank hc hstart, filter_cons_of_blank hc, ← ih, short_of_startsFull hstart true]
    rfl

/-- A blank comes between a semicolon and a brace only where it is dropped. -/
theorem filter_dropSemicolons_short (behind : Bool) (cs : List Char) :
    (dropSemicolons (short behind cs)).filter isFull = dropSemicolons (cs.filter isFull) := by
  induction cs using blanks_induction generalizing behind with
  | nil => rfl
  | full c cs hc ih =>
    have hfull : isFull c = true := by simp [isFull, hc]
    rw [short_of_not_blank hc, List.filter_cons_of_pos hfull, dropSemicolons_cons, dropSemicolons_cons,
      ← ih (isPunctuation c)]
    by_cases hsemicolon : c = ';'
    · -- no blank is left behind a semicolon, so a brace stands next to it here just if it does there
      subst hsemicolon
      have hhead : (short (isPunctuation ';') cs).head? = (cs.filter isFull).head? := head?_short_true cs
      by_cases hbrace : (cs.filter isFull).head? = some '\x7d'
      · rw [if_pos ⟨rfl, hhead.trans hbrace⟩, if_pos ⟨rfl, hbrace⟩]
      · rw [if_neg fun h => hbrace (hhead.symm.trans h.2), if_neg fun h => hbrace h.2,
          List.filter_cons_of_pos hfull]
    · rw [if_neg fun h => hsemicolon h.1, if_neg fun h => hsemicolon h.1, List.filter_cons_of_pos hfull]
  | blanks c d cs hc hd ih => rw [short_of_blanks hc hd, ih, filter_cons_of_blank hc]
  | blank c cs hc hstart ih =>
    rw [short_of_blank hc hstart, filter_cons_of_blank hc, ← ih false]
    unfold gapFor
    split
    · rfl
    · rw [List.singleton_append, dropSemicolons_of_kept (by simp)]
      exact List.filter_cons_of_neg (by decide)

/-- **Nothing else goes.** Blanks apart, the short form is the sheet without its comments and without the
semicolons in front of braces. -/
theorem filter_minify (css : String) : (minify css).toList.filter isFull
    = dropSemicolons ((dropComments 0 css.toList).filter isFull) := by
  rw [minify_eq_trim, filter_trim, filter_dropSemicolons_short]

/-! ## Once more -/

theorem head?_dropSemicolons (h : cs.head? ≠ some ';') : (dropSemicolons cs).head? = cs.head? := by
  cases cs with
  | nil => rfl
  | cons c cs =>
    rw [dropSemicolons_of_kept fun hdropped => h (congrArg some hdropped.1)]
    rfl

theorem startsFull_dropSemicolons (h : StartsFull cs) : StartsFull (dropSemicolons cs) := by
  by_cases hsemicolon : cs.head? = some ';'
  · obtain ⟨rest, rfl⟩ := List.head?_eq_some_iff.mp hsemicolon
    rw [dropSemicolons_cons]
    split
    · rename_i hdropped
      rw [StartsFull, head?_dropSemicolons (by rw [hdropped.2]; decide), hdropped.2]
      rintro c ⟨⟩
      decide
    · rintro c ⟨⟩
      decide
  · rw [StartsFull, head?_dropSemicolons hsemicolon]
    exact h

/-- What is short stays as it is. -/
theorem short_dropSemicolons_short (behind : Bool) (cs : List Char) :
    short behind (dropSemicolons (short behind cs)) = dropSemicolons (short behind cs) := by
  induction cs using blanks_induction generalizing behind with
  | nil => rfl
  | full c cs hc ih =>
    rw [short_of_not_blank hc, dropSemicolons_cons]
    split
    · -- behind a semicolon that goes stands a brace
      rename_i hdropped
      have hstart : StartsFull (dropSemicolons (short (isPunctuation c) cs)) := by
        rw [StartsFull, head?_dropSemicolons (by rw [hdropped.2]; decide), hdropped.2]
        rintro d ⟨⟩
        decide
      rw [short_of_startsFull hstart, ← short_of_startsFull hstart (isPunctuation c), ih]
    · rw [short_of_not_blank hc, ih]
  | blanks c d cs hc hd ih => rw [short_of_blanks hc hd, ih]
  | blank c cs hc hstart ih =>
    have hshort : StartsFull (dropSemicolons (short false cs)) :=
      startsFull_dropSemicolons fun d hd => hstart d (by rwa [head?_short hstart] at hd)
    rw [short_of_blank hc hstart]
    by_cases hgap : (behind || cs.head?.any isPunctuation) = true
    · rw [gapFor, if_pos hgap, List.nil_append, short_of_startsFull hshort, ih]
    · -- a blank is left, so the rest starts with no punctuation, and with no semicolon that could go
      have hhead : (dropSemicolons (short false cs)).head? = cs.head? := by
        rw [head?_dropSemicolons, head?_short hstart]
        intro hsemicolon
        rw [head?_short hstart] at hsemicolon
        rw [hsemicolon] at hgap
        exact hgap (Bool.or_true _)
      have hblank : isBlank ' ' = true := by decide
      rw [gapFor, if_neg hgap, List.singleton_append, dropSemicolons_of_kept (by simp),
        short_of_blank hblank hshort, gapFor, hhead, if_neg hgap, ih]
      rfl

/-- The words of a short form are put together as they stand there. -/
theorem spaced_words_minify (css : String) : spaced (words isFull (minify css).toList) = (minify css).toList := by
  have hfull : ∀ c, isBlank c = true → isFull c = false := fun c hc => by simp [isFull, hc]
  rw [minify_eq_trim, words_trim hfull, ← trim_short false, short_dropSemicolons_short]

theorem dropComments_sublist (skip : Nat) (cs : List Char) : (dropComments skip cs).Sublist cs := by
  induction cs generalizing skip with
  | nil => cases skip <;> exact .slnil
  | cons c cs ih =>
    cases skip with
    | succ skip => exact (ih skip).cons c
    | zero =>
      unfold dropComments
      split
      · split
        · exact (ih _).cons c
        · exact (ih 0).cons_cons c
      · exact (ih 0).cons_cons c

theorem length_dropSemicolons_le (cs : List Char) : (dropSemicolons cs).length ≤ cs.length := by
  induction cs with
  | nil => exact Nat.le_refl _
  | cons c cs ih =>
    rw [dropSemicolons_cons]
    split
    · exact Nat.le_succ_of_le ih
    · exact Nat.succ_le_succ ih

theorem length_short_le (behind : Bool) (cs : List Char) : (short behind cs).length ≤ cs.length := by
  induction cs using blanks_induction generalizing behind with
  | nil => exact Nat.le_refl _
  | full c cs hc ih =>
    rw [short_of_not_blank hc]
    exact Nat.succ_le_succ (ih _)
  | blanks c d cs hc hd ih =>
    rw [short_of_blanks hc hd]
    exact Nat.le_succ_of_le (ih _)
  | blank c cs hc hstart ih =>
    have hrest := ih false
    rw [short_of_blank hc hstart, List.length_append, gapFor]
    split <;> simp <;> omega

theorem length_trim_le (cs : List Char) : (trim cs).length ≤ cs.length := by
  obtain ⟨behind, hcs, -⟩ := exists_trim cs
  have hlength := congrArg List.length hcs
  simp only [List.length_append] at hlength
  omega

theorem dropSemicolons_eq_self_iff : dropSemicolons cs = cs ↔ ¬[';', '\x7d'] <:+: cs := by
  induction cs with
  | nil =>
    refine iff_of_true rfl ?_
    rintro ⟨before, after, heq⟩
    cases before <;> cases heq
  | cons c cs ih =>
    have hoccurs : [';', '\x7d'] <:+: c :: cs ↔ (c = ';' ∧ cs.head? = some '\x7d') ∨ [';', '\x7d'] <:+: cs := by
      rw [List.infix_cons_iff, List.cons_prefix_cons, List.singleton_prefix_iff_head?_eq_some, eq_comm]
    rw [hoccurs, dropSemicolons_cons]
    split
    · rename_i hdropped
      refine iff_of_false (fun heq => ?_) fun hnone => hnone (.inl hdropped)
      have hlength := length_dropSemicolons_le cs
      rw [heq, List.length_cons] at hlength
      omega
    · rename_i hkept
      rw [List.cons_inj_right, ih, or_iff_right hkept]

/-- **Once more.** The short form of a short form is the same just if there is no comment in it, and no
semicolon in front of a brace. -/
theorem minify_minify_iff (css : String) : minify (minify css) = minify css ↔
    dropComments 0 (minify css).toList = (minify css).toList ∧ ¬[';', '\x7d'] <:+: (minify css).toList := by
  have hagain := minify_eq (minify css)
  rw [← String.toList_inj, ← dropSemicolons_eq_self_iff]
  constructor
  · intro h
    -- no pass adds characters, so none can have gone with a comment
    have hcomments : dropComments 0 (minify css).toList = (minify css).toList := by
      refine (dropComments_sublist 0 _).eq_of_length_le ?_
      calc (minify css).toList.length
          = (minify (minify css)).toList.length := by rw [h]
        _ ≤ (dropComments 0 (minify css).toList).length := by
          rw [minify_eq_trim]
          exact (length_trim_le _).trans ((length_dropSemicolons_le _).trans (length_short_le _ _))
    rw [hcomments, spaced_words_minify, h] at hagain
    exact ⟨hcomments, hagain.symm⟩
  · rintro ⟨hcomments, hsemicolons⟩
    rw [hagain, hcomments, spaced_words_minify, hsemicolons]

end Bundler.Stylesheet

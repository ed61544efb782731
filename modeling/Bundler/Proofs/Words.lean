/-
The words of a text, and the blanks between them.

A word is a part of a text whose characters are all of a class, as long as it can be. Putting two texts
together keeps their words, unless the first ends and the second starts with a character of the class: then
two words become one, and there is one word less (`length_words_append`). So whether words were joined can
be told from their number.

Where lines are shortened at their ends and blank lines are dropped, a line break stands for all the blanks
up to it (`compact`). Blanks stay blanks, so the words stay, for every class without blanks
(`words_compact`), and the text stays as it is just if no blank stands in front of a line break
(`compact_eq_self_iff`).
-/
import Bundler.Proofs.Names
import Bundler.Proofs.Trimming

set_option autoImplicit false

namespace Bundler.Text

variable {p : Char → Bool} {c : Char} {as bs cs : List Char}

/-! ## Words -/

/-- The longest parts of a text whose characters are all of a class. -/
def words (p : Char → Bool) (cs : List Char) : List (List Char) :=
  (splitWhere (fun c => !p c) cs).filter fun w => !w.isEmpty

theorem words_nil : words p [] = [] := rfl

/-- What is not of the class parts the words before it from those behind it. -/
theorem words_append_cons (hc : p c = false) (as bs : List Char) :
    words p (as ++ c :: bs) = words p as ++ words p bs := by
  unfold words
  rw [splitWhere_append_cons (by simp [hc]), List.filter_append]

theorem words_cons_of_neg (hc : p c = false) (cs : List Char) : words p (c :: cs) = words p cs :=
  words_append_cons hc [] cs

/-- The first piece of a text is empty unless the text starts with a character of the class. -/
private theorem isEmpty_first {w : List Char} {pieces : List (List Char)}
    (h : splitWhere (fun c => !p c) cs = w :: pieces) : w.isEmpty = !cs.head?.any p := by
  cases cs with
  | nil =>
    cases h
    rfl
  | cons d cs =>
    obtain ⟨piece, more, hsplit⟩ := List.exists_cons_of_ne_nil (splitWhere_ne_nil (fun c => !p c) cs)
    rw [splitWhere, hsplit] at h
    cases hd : p d with
    | false =>
      rw [if_pos (by simp [hd])] at h
      cases h
      simp [hd]
    | true =>
      rw [if_neg (by simp [hd])] at h
      cases h
      simp [hd]

/-- A character of the class goes in front of the first word of the rest, or it is a word before them. -/
theorem exists_words_cons (hc : p c = true) (cs : List Char) : ∃ w ws, words p (c :: cs) = (c :: w) :: ws ∧
    words p cs = (if cs.head?.any p then w :: ws else ws) ∧ (cs.head?.any p = false → w = []) := by
  obtain ⟨w, pieces, hsplit⟩ := List.exists_cons_of_ne_nil (splitWhere_ne_nil (fun c => !p c) cs)
  have hempty := isEmpty_first hsplit
  refine ⟨w, pieces.filter fun w => !w.isEmpty, ?_, ?_, ?_⟩
  · simp [words, splitWhere, hc, hsplit]
  · unfold words
    rw [hsplit, List.filter_cons, hempty, Bool.not_not]
  · intro hnone
    rw [hnone] at hempty
    exact List.isEmpty_iff.mp hempty

/-- A word has characters, and all are of the class. -/
theorem mem_words {w : List Char} (h : w ∈ words p cs) : w ≠ [] ∧ ∀ c ∈ w, p c = true := by
  induction cs generalizing w with
  | nil => cases h
  | cons c cs ih =>
    cases hc : p c with
    | false =>
      rw [words_cons_of_neg hc] at h
      exact ih h
    | true =>
      obtain ⟨v, vs, hcons, hwords, hv⟩ := exists_words_cons hc cs
      -- the rest of the first word is a word of what follows, or there is no rest
      have hall : (∀ d ∈ v, p d = true) ∧ ∀ u ∈ vs, u ≠ [] ∧ ∀ d ∈ u, p d = true := by
        cases hhead : cs.head?.any p with
        | true =>
          rw [hhead] at hwords
          exact ⟨(ih (hwords ▸ List.mem_cons_self)).2, fun u hu => ih (hwords ▸ List.mem_cons_of_mem v hu)⟩
        | false =>
          rw [hhead] at hwords
          refine ⟨fun d hd => ?_, fun u hu => ih (hwords ▸ hu)⟩
          rw [hv hhead] at hd
          cases hd
      rw [hcons] at h
      rcases List.mem_cons.mp h with rfl | h
      · refine ⟨List.cons_ne_nil c v, fun d hd => ?_⟩
        rcases List.mem_cons.mp hd with rfl | hd
        · exact hc
        · exact hall.1 d hd
      · exact hall.2 w h

/-- A word of the first text goes on in the second one. -/
def joins (p : Char → Bool) (as bs : List Char) : Bool := as.getLast?.any p && bs.head?.any p

theorem joins_nil (bs : List Char) : joins p [] bs = false := rfl

theorem joins_cons (a : Char) (hne : as ≠ []) (bs : List Char) : joins p (a :: as) bs = joins p as bs := by
  unfold joins
  rw [List.getLast?_cons_of_ne_nil hne]

theorem joins_singleton (a : Char) (bs : List Char) : joins p [a] bs = (p a && bs.head?.any p) := by
  simp [joins]

theorem joins_append_left (hne : bs ≠ []) (as cs : List Char) : joins p (as ++ bs) cs = joins p bs cs := by
  unfold joins
  rw [List.getLast?_append_of_ne_nil _ hne]

theorem joins_of_ends (h : (∀ c ∈ as.getLast?, p c = false) ∨ ∀ c ∈ bs.head?, p c = false) :
    joins p as bs = false := by
  unfold joins
  rcases h with hlast | hfirst
  · cases has : as.getLast? with
    | none => rfl
    | some c => rw [Option.any_some, hlast c has, Bool.false_and]
  · cases hbs : bs.head? with
    | none => rw [Option.any_none, Bool.and_false]
    | some c => rw [Option.any_some, hfirst c hbs, Bool.and_false]

/-- A character that no character of the class follows is a word of its own. -/
theorem words_cons_of_end (hc : p c = true) (h : cs.head?.any p = false) :
    words p (c :: cs) = [c] :: words p cs := by
  obtain ⟨w, ws, hcons, hwords, hw⟩ := exists_words_cons hc cs
  rw [hcons, hwords, hw h, if_neg (ne_true_of_eq_false h)]

/-- Two texts have the words of both, if none goes on. -/
theorem words_append (h : joins p as bs = false) : words p (as ++ bs) = words p as ++ words p bs := by
  induction as with
  | nil => rfl
  | cons a as ih =>
    cases ha : p a with
    | false =>
      have hrest : joins p as bs = false := by
        by_cases hnil : as = []
        · rw [hnil, joins_nil]
        · rwa [joins_cons a hnil] at h
      rw [List.cons_append, words_cons_of_neg ha, words_cons_of_neg ha, ih hrest]
    | true =>
      cases as with
      | nil =>
        rw [joins_singleton, ha, Bool.true_and] at h
        rw [List.singleton_append, words_cons_of_end ha h, words_cons_of_end ha rfl]
        rfl
      | cons d as =>
        -- what follows the first character is the same with and without the second text
        have hrest := ih (joins_cons a (List.cons_ne_nil d as) bs ▸ h)
        obtain ⟨w, ws, hcons, hwords, hw⟩ := exists_words_cons ha (d :: as ++ bs)
        obtain ⟨v, vs, hcons', hwords', hv⟩ := exists_words_cons ha (d :: as)
        rw [hwords, hwords'] at hrest
        change p d = false → w = [] at hw
        change p d = false → v = [] at hv
        change (if p d then w :: ws else ws) = (if p d then v :: vs else vs) ++ words p bs at hrest
        rw [List.cons_append, hcons, hcons']
        cases hd : p d with
        | true =>
          rw [hd] at hrest
          obtain ⟨rfl, rfl⟩ := List.cons.inj hrest
          rfl
        | false =>
          rw [hd] at hrest
          rw [hw hd, hv hd, List.cons_append]
          exact congrArg ([a] :: ·) hrest

theorem words_of_all_neg (h : ∀ c ∈ cs, p c = false) : words p cs = [] := by
  induction cs with
  | nil => rfl
  | cons c cs ih =>
    rw [words_cons_of_neg (h c List.mem_cons_self)]
    exact ih fun d hd => h d (List.mem_cons_of_mem c hd)

/-- What is around the words can be trimmed. -/
theorem words_trim (hp : ∀ c, isBlank c = true → p c = false) (cs : List Char) :
    words p (trim cs) = words p cs := by
  obtain ⟨behind, hcs, hblank⟩ := exists_trim cs
  have hlead : ∀ c ∈ cs.takeWhile isBlank, p c = false := fun c hc => hp c (List.mem_takeWhile_imp hc)
  have hbehind : ∀ c ∈ behind, p c = false := fun c hc => hp c (hblank c hc)
  conv_rhs => rw [hcs]
  rw [words_append (joins_of_ends (.inl fun c hc => hlead c (List.mem_of_getLast? hc))),
    words_append (joins_of_ends (.inr fun c hc => hbehind c (List.mem_of_mem_head? hc))),
    words_of_all_neg hlead, words_of_all_neg hbehind, List.nil_append, List.append_nil]

theorem length_words_cons (c : Char) (cs : List Char) : (words p (c :: cs)).length
    = (words p cs).length + if p c && !cs.head?.any p then 1 else 0 := by
  cases hc : p c with
  | false => simp [words_cons_of_neg hc]
  | true =>
    obtain ⟨w, ws, hcons, hwords, -⟩ := exists_words_cons hc cs
    rw [hcons, hwords]
    cases cs.head?.any p <;> simp

/-- A word that goes on is counted once. -/
theorem length_words_append (as bs : List Char) : (words p (as ++ bs)).length + (if joins p as bs then 1 else 0)
    = (words p as).length + (words p bs).length := by
  induction as with
  | nil => simp [joins_nil, words_nil]
  | cons a as ih =>
    rw [List.cons_append, length_words_cons, length_words_cons]
    cases as with
    | nil =>
      rw [joins_singleton, words_nil, List.nil_append]
      generalize bs.head?.any p = goesOn
      cases p a <;> cases goesOn <;> simp [Nat.add_comm]
    | cons d as =>
      rw [joins_cons a (List.cons_ne_nil d as), show (d :: as ++ bs).head? = (d :: as).head? from rfl]
      omega

/-! ## Blanks before line breaks -/

/-- A line break follows, blanks apart. -/
def breaksOff (cs : List Char) : Bool := (cs.takeWhile isBlank).contains '\n'

theorem breaksOff_cons_of_not_blank (hc : isBlank c = false) (cs : List Char) :
    breaksOff (c :: cs) = false := by
  simp [breaksOff, hc]

theorem breaksOff_cons_of_blank (hc : isBlank c = true) (cs : List Char) :
    breaksOff (c :: cs) = ('\n' == c || breaksOff cs) := by
  unfold breaksOff
  rw [List.takeWhile_cons_of_pos hc, List.contains_cons]

/-- A line break that follows a text of blanks follows its first one. -/
theorem breaksOff_append (hblank : ∀ c ∈ as, isBlank c = true) (bs : List Char) :
    breaksOff (as ++ bs) = (as.contains '\n' || breaksOff bs) := by
  unfold breaksOff
  rw [List.takeWhile_append_of_pos hblank, List.contains_append]

theorem exists_of_breaksOff (h : breaksOff cs = true) : ∃ b behind, cs = b :: behind ∧ isBlank b = true := by
  cases cs with
  | nil => cases h
  | cons b behind =>
    cases hb : isBlank b with
    | true => exact ⟨b, behind, rfl, hb⟩
    | false =>
      rw [breaksOff_cons_of_not_blank hb] at h
      cases h

/-- A text in which a line break stands for all the blanks up to it. -/
def compact : List Char → List Char
  | [] => []
  | c :: cs => if isBlank c && breaksOff cs then compact cs else c :: compact cs

theorem compact_cons_of_not_blank (hc : isBlank c = false) (cs : List Char) :
    compact (c :: cs) = c :: compact cs := by
  simp [compact, hc]

theorem compact_cons_of_breaksOff (hc : isBlank c = true) (h : breaksOff cs = true) :
    compact (c :: cs) = compact cs := by
  simp [compact, hc, h]

theorem compact_cons_of_not_breaksOff (h : breaksOff cs = false) : compact (c :: cs) = c :: compact cs := by
  simp [compact, h]

/-- Where a text goes on with a blank, what is left of it goes on with a blank, and elsewhere it goes on with
the same character. -/
theorem head?_compact (cs : List Char) : (compact cs).head? = cs.head? ∨
    ∃ b ∈ (compact cs).head?, ∃ c ∈ cs.head?, isBlank b = true ∧ isBlank c = true := by
  induction cs with
  | nil => exact .inl rfl
  | cons c cs ih =>
    unfold compact
    split
    · rename_i hdropped
      obtain ⟨hc, hbreak⟩ := Bool.and_eq_true_iff.mp hdropped
      obtain ⟨d, behind, rfl, hd⟩ := exists_of_breaksOff hbreak
      rcases ih with heq | ⟨b, hb, d', hd', hblank, -⟩
      · exact .inr ⟨d, heq, c, rfl, hd, hc⟩
      · exact .inr ⟨b, hb, c, rfl, hblank, hc⟩
    · exact .inl rfl

theorem exists_compact_of_breaksOff (h : breaksOff cs = true) :
    ∃ b more, compact cs = b :: more ∧ isBlank b = true := by
  obtain ⟨d, behind, rfl, hd⟩ := exists_of_breaksOff h
  rcases head?_compact (d :: behind) with heq | ⟨b, hb, -, -, hblank, -⟩
  · obtain ⟨more, hmore⟩ := List.head?_eq_some_iff.mp heq
    exact ⟨d, more, hmore, hd⟩
  · obtain ⟨more, hmore⟩ := List.head?_eq_some_iff.mp hb
    exact ⟨b, more, hmore, hblank⟩

theorem head?_any_compact (hp : ∀ c, isBlank c = true → p c = false) (cs : List Char) :
    (compact cs).head?.any p = cs.head?.any p := by
  rcases head?_compact cs with heq | ⟨b, hb, c, hc, hblank, hblank'⟩
  · rw [heq]
  · rw [Option.mem_def.mp hb, Option.mem_def.mp hc, Option.any_some, Option.any_some, hp b hblank,
      hp c hblank']

/-- Words have no blanks, so they stay. -/
theorem words_compact (hp : ∀ c, isBlank c = true → p c = false) (cs : List Char) :
    words p (compact cs) = words p cs := by
  induction cs with
  | nil => rfl
  | cons c cs ih =>
    unfold compact
    split
    · rename_i hdropped
      rw [ih, words_cons_of_neg (hp c (Bool.and_eq_true_iff.mp hdropped).1)]
    · cases hc : p c with
      | false => rw [words_cons_of_neg hc, words_cons_of_neg hc, ih]
      | true =>
        obtain ⟨w, ws, hcons, hwords, hw⟩ := exists_words_cons hc (compact cs)
        obtain ⟨v, vs, hcons', hwords', hv⟩ := exists_words_cons hc cs
        -- the word goes on in what is left just if it went on before
        rw [head?_any_compact hp] at hwords hw
        rw [hwords, hwords'] at ih
        rw [hcons, hcons']
        cases hd : cs.head?.any p with
        | true =>
          rw [hd] at ih
          obtain ⟨rfl, rfl⟩ := List.cons.inj ih
          rfl
        | false =>
          rw [hd] at ih
          rw [hw hd, hv hd]
          exact congrArg ([c] :: ·) ih

/-- The last character of a text stays. -/
theorem compact_ne_nil (h : cs ≠ []) : compact cs ≠ [] := by
  rcases head?_compact cs with heq | ⟨b, hb, -⟩
  · intro hnil
    rw [hnil] at heq
    exact h (List.head?_eq_none_iff.mp heq.symm)
  · intro hnil
    rw [hnil] at hb
    cases hb

/-- Behind a character that is not blank nothing can break off. -/
theorem breaksOff_append_of_not_blank (h : ∃ c ∈ as, isBlank c = false) (bs : List Char) :
    breaksOff (as ++ bs) = breaksOff as := by
  induction as with
  | nil =>
    obtain ⟨c, hmem, -⟩ := h
    cases hmem
  | cons a as ih =>
    cases ha : isBlank a with
    | false => rw [List.cons_append, breaksOff_cons_of_not_blank ha, breaksOff_cons_of_not_blank ha]
    | true =>
      have hrest : ∃ c ∈ as, isBlank c = false := by
        obtain ⟨c, hmem, hc⟩ := h
        rcases List.mem_cons.mp hmem with rfl | hmem
        · rw [ha] at hc
          cases hc
        · exact ⟨c, hmem, hc⟩
      rw [List.cons_append, breaksOff_cons_of_blank ha, breaksOff_cons_of_blank ha, ih hrest]

theorem breaksOff_of_head? (h : ∀ c ∈ cs.head?, isBlank c = false) : breaksOff cs = false := by
  cases cs with
  | nil => rfl
  | cons c cs => exact breaksOff_cons_of_not_blank (h c rfl) cs

/-- Where blanks do not go on from one text to another, a line break of the second does not count in the
first. -/
theorem breaksOff_append_of_ends {a : Char} (ha : isBlank a = true)
    (h : (∀ c ∈ (a :: as).getLast?, isBlank c = false) ∨ ∀ c ∈ bs.head?, isBlank c = false) :
    breaksOff (as ++ bs) = breaksOff as := by
  by_cases hblank : ∀ c ∈ as, isBlank c = true
  · -- the first text is all blank, so the second starts with something else
    have hbs : ∀ c ∈ bs.head?, isBlank c = false := by
      refine h.resolve_left fun hlast => ?_
      have hmem := List.getLast_mem (List.cons_ne_nil a as)
      have hall : isBlank ((a :: as).getLast (List.cons_ne_nil a as)) = true := by
        rcases List.mem_cons.mp hmem with heq | hmem
        · rw [heq, ha]
        · exact hblank _ hmem
      rw [hlast _ (List.getLast?_eq_some_getLast (List.cons_ne_nil a as))] at hall
      cases hall
    have hfirst : breaksOff as = as.contains '\n' := by
      simpa [breaksOff] using breaksOff_append hblank []
    rw [breaksOff_append hblank, breaksOff_of_head? hbs, Bool.or_false, hfirst]
  · exact breaksOff_append_of_not_blank (by simpa using hblank) bs

/-- Where blanks do not go on from one text to another, both are compacted for themselves. -/
theorem compact_append (h : (∀ c ∈ as.getLast?, isBlank c = false) ∨ ∀ c ∈ bs.head?, isBlank c = false) :
    compact (as ++ bs) = compact as ++ compact bs := by
  induction as with
  | nil => rfl
  | cons a as ih =>
    have hrest : compact (as ++ bs) = compact as ++ compact bs :=
      ih (h.imp_left fun hlast c hc => hlast c (List.mem_getLast?_cons hc))
    cases ha : isBlank a with
    | false => rw [List.cons_append, compact_cons_of_not_blank ha, compact_cons_of_not_blank ha, hrest]; rfl
    | true =>
      have hbreak : breaksOff (as ++ bs) = breaksOff as := breaksOff_append_of_ends ha h
      cases hoff : breaksOff as with
      | true =>
        rw [List.cons_append, compact_cons_of_breaksOff ha (hbreak.trans hoff),
          compact_cons_of_breaksOff ha hoff, hrest]
      | false =>
        rw [List.cons_append, compact_cons_of_not_breaksOff (hbreak.trans hoff),
          compact_cons_of_not_breaksOff hoff, hrest]
        rfl

/-- A blank stands in front of a line break. -/
def HasLooseEnd (cs : List Char) : Prop :=
  ∃ before b behind, cs = before ++ b :: '\n' :: behind ∧ isBlank b = true

theorem hasLooseEnd_cons : HasLooseEnd (c :: cs) ↔ (isBlank c = true ∧ cs.head? = some '\n') ∨ HasLooseEnd cs := by
  constructor
  · rintro ⟨before, b, behind, heq, hb⟩
    cases before with
    | nil =>
      cases heq
      exact .inl ⟨hb, rfl⟩
    | cons d before =>
      cases heq
      exact .inr ⟨before, b, behind, rfl, hb⟩
  · rintro (⟨hc, hbreak⟩ | ⟨before, b, behind, rfl, hb⟩)
    · obtain ⟨behind, rfl⟩ := List.head?_eq_some_iff.mp hbreak
      exact ⟨[], c, behind, rfl, hc⟩
    · exact ⟨c :: before, b, behind, rfl, hb⟩

theorem hasLooseEnd_of_breaksOff (hc : isBlank c = true) (h : breaksOff cs = true) : HasLooseEnd (c :: cs) := by
  induction cs generalizing c with
  | nil => cases h
  | cons d cs ih =>
    cases hd : isBlank d with
    | false =>
      rw [breaksOff_cons_of_not_blank hd] at h
      cases h
    | true =>
      rw [breaksOff_cons_of_blank hd, Bool.or_eq_true, beq_iff_eq] at h
      rcases h with rfl | h
      · exact hasLooseEnd_cons.mpr (.inl ⟨hc, rfl⟩)
      · exact hasLooseEnd_cons.mpr (.inr (ih hd h))

theorem length_compact_le (cs : List Char) : (compact cs).length ≤ cs.length := by
  induction cs with
  | nil => exact Nat.le_refl _
  | cons c cs ih =>
    unfold compact
    split
    · exact Nat.le_succ_of_le ih
    · exact Nat.succ_le_succ ih

/-- A text stays as it is just if no blank stands in front of a line break. -/
theorem compact_eq_self_iff (cs : List Char) : compact cs = cs ↔ ¬HasLooseEnd cs := by
  induction cs with
  | nil =>
    refine iff_of_true rfl ?_
    rintro ⟨before, b, behind, heq, -⟩
    cases before <;> cases heq
  | cons c cs ih =>
    constructor
    · intro h hloose
      unfold compact at h
      split at h
      · have hlength := length_compact_le cs
        rw [h, List.length_cons] at hlength
        omega
      · rename_i hkept
        rcases hasLooseEnd_cons.mp hloose with ⟨hc, hbreak⟩ | hrest
        · obtain ⟨behind, rfl⟩ := List.head?_eq_some_iff.mp hbreak
          exact hkept (by rw [hc]; rfl)
        · exact ih.mp (List.cons.inj h).2 hrest
    · intro h
      have hrest : compact cs = cs := ih.mpr fun hloose => h (hasLooseEnd_cons.mpr (.inr hloose))
      unfold compact
      rw [if_neg, hrest]
      intro hdropped
      obtain ⟨hc, hoff⟩ := Bool.and_eq_true_iff.mp hdropped
      exact h (hasLooseEnd_of_breaksOff hc hoff)

end Bundler.Text

/-
Calls that are read back.

The text of a call that was edited is put together from the texts of its arguments. Read again, it ends at
its own last parenthesis and falls apart at the commas between its arguments, if each of them is a text that
stands as an argument and the last is not empty (`Call.Sound.readsBack_iff`). What a build sets is made of
literals and of what it has read, so it is enough that the texts it has read lead to code
(`Session.readsBack_iff_of_render`). A comment at the end of an argument that goes on to the end of the line
does not, since the line break behind it is trimmed away, and neither does a literal that its line cuts off:
then the last parenthesis is not found (`Call.ReadsBack.leads_to_code`).
-/
import Bundler.Proofs.ArgumentTexts
import Bundler.Proofs.Edits

set_option autoImplicit false

namespace Bundler.Script

open Bundler.Text Literals

/-! ## Brackets -/

/-- No character is barred. -/
def anywhere (_ : Char) : Bool := false

/-- Where nothing is barred, a character leads nowhere only if it closes more than is open. -/
theorem step_anywhere_eq_none {place : Situation × Nat} {c : Char} {ahead : Option Char}
    (h : step anywhere place c ahead = none) :
    place.1.covers c ahead = false ∧ isClosing c = true ∧ place.2 = 0 := by
  unfold step anywhere at h
  simp only [Bool.false_and, Bool.false_eq_true, if_false] at h
  split at h
  · cases h
  split at h
  · cases h
  split at h
  · split at h
    · exact ⟨Bool.not_eq_true _ ▸ ‹_›, ‹_›, ‹_›⟩
    · cases h
  · cases h

theorem isMute_of_isClosing {c : Char} (h : isClosing c = true) : IsMute (some c) := by
  refine ⟨fun heq => ?_, fun heq => ?_⟩
  · cases heq
    cases h
  · cases heq
    cases h

/-- Commas bar a character only if it is a comma in code outside of brackets. -/
theorem step_commas_cases {place next : Situation × Nat} {c : Char} {ahead : Option Char}
    (h : step anywhere place c ahead = some next) :
    step commas place c ahead = some next ∨
      (c = ',' ∧ place.1.covers c ahead = false ∧ place.2 = 0 ∧ next = (.code, 0)) := by
  unfold step anywhere commas at *
  simp only [Bool.false_and, Bool.false_eq_true, if_false] at h ⊢
  split at h
  · exact .inl (by rw [if_pos ‹_›, h])
  rw [if_neg ‹_›]
  split at h
  · exact .inl (by rw [if_pos ‹_›, h])
  rw [if_neg ‹_›]
  split at h
  · exact .inl (by rw [if_pos ‹_›, h])
  rw [if_neg ‹_›]
  by_cases hbar : (c == ',' && place.2 == 0) = true
  · rw [Bool.and_eq_true, beq_iff_eq, beq_iff_eq] at hbar
    refine .inr ⟨hbar.1, Bool.not_eq_true _ ▸ ‹_›, hbar.2, ?_⟩
    rw [← Option.some.inj h, hbar.2, Situation.code_of_not_covers (Bool.not_eq_true _ ▸ ‹_›)]
  · exact .inl (by rw [if_neg hbar, h])

/-- A text either has no comma outside of brackets or has a first one. -/
theorem walk_commas_cases {ahead : Option Char} {place' : Situation × Nat} :
    ∀ {cs : List Char} {place : Situation × Nat}, walk anywhere ahead place cs = some place' →
      walk commas ahead place cs = some place' ∨
        ∃ s as bs, cs = as ++ ',' :: bs ∧ walk commas (some ',') place as = some (s, 0) ∧
          s.covers ',' (bs.head?.or ahead) = false ∧ walk anywhere ahead (.code, 0) bs = some place'
  | [], _, h => .inl h
  | c :: cs, place, h => by
    obtain ⟨next, hstep, h⟩ := Option.bind_eq_some_iff.mp h
    rcases step_commas_cases hstep with hstep | ⟨rfl, hcovers, hdepth, rfl⟩
    · rcases walk_commas_cases h with hwalk | ⟨s, as, bs, rfl, hwalk, hcovers, hrest⟩
      · exact .inl (by rw [walk_cons, hstep]; exact hwalk)
      · refine .inr ⟨s, c :: as, bs, rfl, ?_, hcovers, hrest⟩
        rw [List.head?_append, Option.or_assoc] at hstep
        change step commas place c (as.head?.or (some ',')) = some next at hstep
        rw [walk_cons, hstep]
        exact hwalk
    · exact .inr ⟨place.1, [], cs, rfl, by rw [walk, ← hdepth], hcovers, h⟩

/-- Blanks do nothing in code. -/
theorem isPlain_of_isBlank {c : Char} (h : isBlank c = true) : IsPlain c :=
  isPlain_of_class (by decide) h

namespace Literals

variable {ls : Literals} {ahead : Option Char} {pos depth depth' : Nat} {s s' : Situation} {c : Char}
  {as cs rest : List Char}

/-- One character on, the end of a call is looked for where the character leads. -/
theorem findClose_cons (h : ls.contains pos = s.covers c ahead) :
    ls.findClose pos (depth + 1) (c :: cs) = match step anywhere (s, depth) c ahead with
      | some (_, next) => ls.findClose (pos + c.utf8Size) (next + 1) cs
      | none => some pos := by
  conv_lhs => unfold findClose
  unfold step anywhere
  simp only [h, Bool.false_and, Bool.false_eq_true, if_false]
  split
  · rfl
  split
  · rfl
  split
  · split
    · rw [if_pos (by omega)]
    · rw [if_neg (by omega)]
      simp only [Nat.sub_add_cancel (show 1 ≤ depth by omega), Nat.add_sub_cancel]
  · rfl

/-- The parenthesis of a call is the first to be open. -/
theorem findClose_open (h : ls.contains pos = false) :
    ls.findClose pos 0 ('(' :: cs) = ls.findClose (pos + 1) 1 cs := by
  conv_lhs => unfold findClose
  rw [h]
  rfl

/-- The end of a call is not in a part that closes no more than it opens. -/
theorem findClose_append :
    ∀ {as : List Char} {pos depth : Nat} {s : Situation}, ls.Reads ahead pos s as →
      walk anywhere ahead (s, depth) as = some (s', depth') →
        ls.findClose pos (depth + 1) (as ++ rest) = ls.findClose (pos + size as) (depth' + 1) rest
  | [], _, _, _, _, h => by
    cases h
    rfl
  | a :: as, pos, depth, s, hreads, h => by
    obtain ⟨⟨t, d⟩, hstep, h⟩ := Option.bind_eq_some_iff.mp h
    rw [List.cons_append, findClose_cons hreads.1, hstep, size, ← Nat.add_assoc]
    exact findClose_append (step_eq hstep ▸ hreads.2) h

/-- A call ends in code. -/
theorem contains_of_findClose {closing : Nat} :
    ∀ {cs : List Char} {pos depth : Nat}, ls.findClose pos depth cs = some closing →
      ls.contains closing = false
  | [], _, _, h => by cases h
  | c :: cs, pos, depth, h => by
    unfold findClose at h
    simp only at h
    split at h
    · exact contains_of_findClose h
    split at h
    · exact contains_of_findClose h
    split at h
    · split at h
      · cases h
        exact Bool.not_eq_true _ ▸ ‹_›
      · exact contains_of_findClose h
    · exact contains_of_findClose h

/-- Where a call ends, all that was opened is closed, and the bracket that ends it is in code. -/
theorem exists_of_findClose {closing : Nat} :
    ∀ {cs : List Char} {pos depth : Nat} {s : Situation}, ls.Reads none pos s cs →
      ls.findClose pos (depth + 1) cs = some closing → ∃ inside c behind s',
        cs = inside ++ c :: behind ∧ closing = pos + size inside ∧ isClosing c = true ∧
          s'.covers c behind.head? = false ∧ walk anywhere (some c) (s, depth) inside = some (s', 0)
  | [], _, _, _, _, h => by cases h
  | c :: cs, pos, depth, s, hreads, h => by
    rw [findClose_cons hreads.1] at h
    cases hstep : step anywhere (s, depth) c (cs.head?.or none) with
    | none =>
      rw [hstep] at h
      cases h
      obtain ⟨hcovers, hclosing, hdepth⟩ := step_anywhere_eq_none hstep
      rw [Option.or_none] at hcovers
      exact ⟨[], c, cs, s, rfl, rfl, hclosing, hcovers, by rw [show depth = 0 from hdepth]; rfl⟩
    | some next =>
      obtain ⟨t, d⟩ := next
      rw [hstep] at h
      obtain ⟨inside, c', behind, s', rfl, rfl, hclosing, hcovers, hwalk⟩ :=
        exists_of_findClose (step_eq hstep ▸ hreads.2) h
      refine ⟨c :: inside, c', behind, s', rfl, by rw [size]; omega, hclosing, hcovers, ?_⟩
      rw [List.head?_append, Option.or_none] at hstep
      rw [walk_cons, show (inside.head?.or (some c')) = inside.head?.or (c' :: behind).head? from rfl, hstep]
      exact hwalk

/-! ## Pieces -/

/-- The first of the pieces with a part in front of it. -/
def extended (pos : Nat) (part : List Char) : List Piece → List Piece
  | [] => [(pos, part)]
  | (_, piece) :: pieces => (pos, part ++ piece) :: pieces

theorem splitCommas_eq (ls : Literals) (pos depth : Nat) (c : Char) (cs : List Char) :
    ls.splitCommas pos depth (c :: cs) =
      if ls.contains pos then extended pos [c] (ls.splitCommas (pos + c.utf8Size) depth cs)
      else if isOpening c then extended pos [c] (ls.splitCommas (pos + c.utf8Size) (depth + 1) cs)
      else if isClosing c then extended pos [c] (ls.splitCommas (pos + c.utf8Size) (depth - 1) cs)
      else if c == ',' && depth == 0 then (pos, []) :: ls.splitCommas (pos + c.utf8Size) depth cs
      else extended pos [c] (ls.splitCommas (pos + c.utf8Size) depth cs) := by
  have hextend : ∀ d, (match ls.splitCommas (pos + c.utf8Size) d cs with
      | [] => [(pos, [c])]
      | (_, piece) :: pieces => (pos, c :: piece) :: pieces)
      = extended pos [c] (ls.splitCommas (pos + c.utf8Size) d cs) := by
    intro d
    cases ls.splitCommas (pos + c.utf8Size) d cs <;> rfl
  conv_lhs => unfold splitCommas
  exact if_congr .rfl (hextend depth) (if_congr .rfl (hextend (depth + 1))
    (if_congr .rfl (hextend (depth - 1)) (if_congr .rfl rfl (hextend depth))))

/-- The first piece starts where the text does. -/
theorem exists_splitCommas (ls : Literals) (pos depth : Nat) (cs : List Char) :
    ∃ first pieces, ls.splitCommas pos depth cs = (pos, first) :: pieces := by
  have hextended : ∀ (c : Char) (rest : List Piece), ∃ first pieces,
      extended pos [c] rest = (pos, first) :: pieces := by
    rintro c (_ | ⟨⟨_, piece⟩, pieces⟩)
    · exact ⟨[c], [], rfl⟩
    · exact ⟨c :: piece, pieces, rfl⟩
  cases cs with
  | nil => exact ⟨[], [], rfl⟩
  | cons c cs =>
    rw [splitCommas_eq]
    split
    · exact hextended c _
    split
    · exact hextended c _
    split
    · exact hextended c _
    split
    · exact ⟨[], _, rfl⟩
    · exact hextended c _

/-- A character that leads on belongs to the first piece. -/
theorem splitCommas_cons (h : ls.contains pos = s.covers c ahead)
    (hstep : step commas (s, depth) c ahead = some (s', depth')) :
    ls.splitCommas pos depth (c :: cs)
      = extended pos [c] (ls.splitCommas (pos + c.utf8Size) depth' cs) := by
  rw [splitCommas_eq, h]
  unfold step commas at hstep
  simp only at hstep
  split at hstep
  · cases hstep
    rw [if_pos ‹_›]
  rw [if_neg ‹_›]
  split at hstep
  · cases hstep
    rw [if_pos ‹_›]
  rw [if_neg ‹_›]
  split at hstep
  · split at hstep
    · cases hstep
    · cases hstep
      rw [if_pos ‹_›]
  rw [if_neg ‹_›]
  split at hstep
  · cases hstep
  · cases hstep
    rw [if_neg ‹_›]

/-- So does a text that leads on. -/
theorem splitCommas_append :
    ∀ {as : List Char} {pos depth : Nat} {s : Situation}, ls.Reads ahead pos s as →
      walk commas ahead (s, depth) as = some (s', depth') →
        ls.splitCommas pos depth (as ++ rest)
          = extended pos as (ls.splitCommas (pos + size as) depth' rest)
  | [], pos, _, _, _, h => by
    cases h
    obtain ⟨first, pieces, heq⟩ := exists_splitCommas ls pos depth' rest
    rw [List.nil_append, size, Nat.add_zero, heq]
    rfl
  | a :: as, pos, depth, s, hreads, h => by
    obtain ⟨⟨t, d⟩, hstep, h⟩ := Option.bind_eq_some_iff.mp h
    rw [List.cons_append, splitCommas_cons hreads.1 hstep,
      splitCommas_append (step_eq hstep ▸ hreads.2) h, size, Nat.add_assoc]
    cases ls.splitCommas (pos + (a.utf8Size + size as)) depth' rest <;> rfl

/-- Without a comma outside of brackets a text is one piece. -/
theorem splitCommas_eq_singleton (hreads : ls.Reads ahead pos s cs)
    (h : walk commas ahead (s, depth) cs = some (s', depth')) :
    ls.splitCommas pos depth cs = [(pos, cs)] := by
  have hone : ls.splitCommas pos depth (cs ++ [])
      = extended pos cs (ls.splitCommas (pos + size cs) depth' []) := splitCommas_append hreads h
  rw [List.append_nil] at hone
  rw [hone]
  exact congrArg (fun text => [(pos, text)]) (List.append_nil cs)

/-- A comma in code outside of brackets begins another piece. -/
theorem splitCommas_comma (h : ls.contains pos = false) :
    ls.splitCommas pos 0 (',' :: cs) = (pos, []) :: ls.splitCommas (pos + 1) 0 cs := by
  rw [splitCommas_eq, h]
  rfl

/-! ## Arguments in their places -/

/-- Where a text leads from code to code, what follows it is read from code on. -/
theorem Reads.behind {bars : Char → Bool} {text more : List Char}
    (h : ls.Reads ahead pos .code (text ++ more))
    (hwalk : walk bars (more.head?.or ahead) (.code, depth) text = some (.code, depth')) :
    ls.Reads (more.head?.or ahead) pos .code text ∧ ls.Reads ahead (pos + size text) .code more := by
  rwa [reads_append, ← walk_fst hwalk] at h

/-- Arguments are found again between the commas. -/
theorem trim_splitCommas (hahead : IsMute ahead) :
    ∀ {texts : List (List Char)}, texts ≠ [] → (∀ t ∈ texts, IsArgument t) →
      ∀ {lead : List Char} {pos : Nat}, (∀ c ∈ lead, isBlank c = true) →
        ls.Reads ahead pos .code (lead ++ joined texts) →
          (ls.splitCommas pos 0 (lead ++ joined texts)).map (fun p => trim p.2) = texts
  | [], hne, _, _, _, _, _ => absurd rfl hne
  | t :: ts, _, ht, lead, pos, hlead, hreads => by
    have harg : IsArgument t := ht t List.mem_cons_self
    have hwalk : ∀ {a}, IsMute a → walk commas a (.code, 0) (lead ++ t) = some (.code, 0) :=
      fun ha => (walk_of_append (walk_plain eq_of_commas
        fun c hc => isPlain_of_isBlank (hlead c hc))).trans
          (harg.walk_in eq_of_commas ha)
    cases ts with
    | nil =>
      have hone : joined [t] = t := List.intercalate_singleton
      rw [hone] at hreads ⊢
      rw [splitCommas_eq_singleton hreads (hwalk hahead)]
      exact congrArg (fun text => [text]) (harg.trimmed.trim_eq hlead)
    | cons u ts =>
      rw [joined_cons_cons, ← List.append_assoc] at hreads ⊢
      have hmute : IsMute (some ',') := by decide
      obtain ⟨hfirst, hcomma, hlater⟩ := hreads.behind (hwalk hmute)
      have hblank : ∀ c ∈ [' '], isBlank c = true := List.forall_mem_singleton.mpr (by decide)
      have hrest := trim_splitCommas hahead (List.cons_ne_nil u ts)
        (fun v hv => ht v (List.mem_cons_of_mem _ hv)) hblank hlater
      rw [splitCommas_append hfirst (hwalk hmute), splitCommas_comma hcomma]
      change trim (lead ++ t ++ []) :: _ = _
      rw [List.append_nil, harg.trimmed.trim_eq hlead]
      exact congrArg (t :: ·) hrest

/-- A list of texts without an empty one at its end. -/
def withoutEmptyLast (texts : List (List Char)) : List (List Char) :=
  if texts.getLast? = some [] then texts.dropLast else texts

theorem withoutEmptyLast_eq_iff {texts : List (List Char)} :
    withoutEmptyLast texts = texts ↔ texts.getLast? ≠ some [] := by
  unfold withoutEmptyLast
  split
  · rename_i hlast
    refine ⟨fun heq => ?_, fun hne => absurd hlast hne⟩
    have hlength := congrArg List.length heq
    rw [List.length_dropLast] at hlength
    cases texts with
    | nil => cases hlast
    | cons t ts =>
      rw [List.length_cons] at hlength
      omega
  · exact ⟨fun _ => ‹_›, fun _ => rfl⟩

/-- The texts of the arguments between two parentheses. -/
theorem splitArguments_snd (ls : Literals) (pos : Nat) (inside : List Char) :
    (ls.splitArguments pos inside).map Prod.snd
      = withoutEmptyLast ((ls.splitCommas pos 0 inside).map fun p => trim p.2) := by
  have htrim : (ls.splitCommas pos 0 inside).map (fun p => trim p.2)
      = ((ls.splitCommas pos 0 inside).map trimPiece).map Prod.snd := by
    rw [List.map_map]
    exact List.map_congr_left fun p _ => (trimPiece_snd p).symm
  rw [htrim]
  unfold splitArguments withoutEmptyLast
  generalize (ls.splitCommas pos 0 inside).map trimPiece = pieces
  simp only
  rw [List.getLast?_map, ← List.map_dropLast]
  cases pieces.getLast? with
  | none => rfl
  | some p =>
    obtain ⟨q, text⟩ := p
    cases text with
    | nil => rfl
    | cons c cs => simp

/-! ## What is read as an argument -/

/-- A piece of what stands between two parentheses closes what it opens, and has no comma outside of
brackets. -/
theorem walk_of_mem_splitCommas {p : Piece} (hahead : IsMute ahead) :
    ∀ {cs : List Char} {pos : Nat} {s' : Situation}, ls.Reads ahead pos .code cs →
      walk anywhere ahead (.code, 0) cs = some (s', 0) → p ∈ ls.splitCommas pos 0 cs →
        ∃ t, walk commas none (.code, 0) p.2 = some (t, 0)
  | cs, pos, s', hreads, h, hp => by
    rcases walk_commas_cases h with hwalk | ⟨s, as, bs, heq, hwalk, hcovers, hrest⟩
    · rw [splitCommas_eq_singleton hreads hwalk] at hp
      cases List.mem_singleton.mp hp
      exact ⟨s', by rw [← walk_mute hahead, hwalk]⟩
    · have hmute : IsMute (some ',') := by decide
      obtain rfl := Situation.eq_code_of_not_covers hcovers (by decide)
      rw [heq] at hreads hp
      obtain ⟨hfirst, hcomma, hlater⟩ := hreads.behind hwalk
      rw [splitCommas_append hfirst hwalk, splitCommas_comma (hcomma.trans hcovers)] at hp
      rcases List.mem_cons.mp hp with rfl | hp
      · exact ⟨.code, by rw [List.append_nil, ← walk_mute hmute, hwalk]⟩
      · exact walk_of_mem_splitCommas hahead hlater hrest hp
  termination_by cs => cs.length
  decreasing_by
    have hlength := congrArg List.length heq
    rw [List.length_append, List.length_cons] at hlength
    omega

/-- Blanks leave no bracket open and close none. -/
theorem walk_blank {bars : Char → Bool} :
    ∀ {cs : List Char} {place place' : Situation × Nat}, (∀ c ∈ cs, isBlank c = true) →
      walk bars ahead place cs = some place' → place'.2 = place.2
  | [], _, _, _, h => by
    cases h
    rfl
  | c :: cs, (s, d), place', hblank, h => by
    obtain ⟨next, hstep, h⟩ := Option.bind_eq_some_iff.mp h
    have hplain := isPlain_of_isBlank (hblank c List.mem_cons_self)
    rw [walk_blank (fun e he => hblank e (List.mem_cons_of_mem _ he)) h]
    unfold step at hstep
    simp only [hplain.opening, hplain.closing, Bool.false_eq_true, if_false] at hstep
    split at hstep
    · cases hstep
      rfl
    split at hstep
    · cases hstep
    · cases hstep
      rfl

/-- Without the blanks around it a text closes what it did with them. -/
theorem walk_trim {text : List Char} {t : Situation}
    (h : walk commas none (.code, 0) text = some (t, 0)) :
    ∃ t', walk commas none (.code, 0) (trim text) = some (t', 0) := by
  obtain ⟨behind, heq, hblank⟩ := exists_trim text
  rw [heq, walk_of_append (walk_plain eq_of_commas fun c hc =>
    isPlain_of_isBlank (List.mem_takeWhile_imp hc)), walk_append] at h
  obtain ⟨⟨t', d⟩, hwalk, hbehind⟩ := Option.bind_eq_some_iff.mp h
  have hmute : IsMute (behind.head?.or none) := by
    rw [Option.or_none]
    refine ⟨fun hc => ?_, fun hc => ?_⟩
    · exact absurd (hblank _ (List.mem_of_mem_head? hc)) (by decide)
    · exact absurd (hblank _ (List.mem_of_mem_head? hc)) (by decide)
  have hdepth : 0 = d := walk_blank hblank hbehind
  exact ⟨t', by rw [← walk_mute hmute, hwalk, hdepth]⟩

/-- What is read as an argument stands as one, if it leads to code. -/
theorem isArgument_of_mem_splitArguments {p : Piece} {inside : List Char} {s' : Situation}
    (hahead : IsMute ahead) (hreads : ls.Reads ahead pos .code inside)
    (hwalk : walk anywhere ahead (.code, 0) inside = some (s', 0))
    (hp : p ∈ ls.splitArguments pos inside) (hcode : Situation.code.after none p.2 = .code) :
    IsArgument p.2 := by
  have hmem : p ∈ (ls.splitCommas pos 0 inside).map trimPiece := by
    unfold splitArguments at hp
    simp only at hp
    split at hp
    · exact (List.dropLast_sublist _).subset hp
    · exact hp
  obtain ⟨q, hq, rfl⟩ := List.mem_map.mp hmem
  rw [trimPiece_snd] at hcode ⊢
  obtain ⟨t, ht⟩ := walk_of_mem_splitCommas hahead hreads hwalk hq
  obtain ⟨t', ht'⟩ := walk_trim ht
  refine ⟨?_, trimmed_trim q.2⟩
  rw [ht', walk_fst ht', hcode]

end Literals

namespace Pattern

theorem isPlain_of_isNamePart {c : Char} (h : isNamePart c = true) : IsPlain c :=
  isPlain_of_class (by decide +kernel) h

theorem callee?_word {names : List String}
    (hnames : names.all (fun name => name.toList.all fun c => IsPlain c) = true) {here paren : List Char} {name : String} (h : callee? names here = some (name, paren)) :
    (∃ word, here = word ++ paren ∧ ∀ c ∈ word, IsPlain c) ∧ ∀ c ∈ name.toList, IsPlain c := by
  obtain ⟨text, htext, h⟩ := List.exists_of_findSome?_eq_some h
  have hplain := List.all_iff_forall_prop.mp (List.all_eq_true.mp hnames text htext)
  split at h
  · rename_i behind hbehind
    split at h
    · rename_i inside hspaces
      cases h
      have hblank : behind = behind.takeWhile isBlank ++ '(' :: inside := by
        rw [← hspaces]
        exact (List.takeWhile_append_dropWhile).symm
      refine ⟨⟨name.toList ++ behind.takeWhile isBlank, ?_, fun c hc => ?_⟩, hplain⟩
      · rw [token_eq hbehind, List.append_assoc, ← hblank]
      · rcases List.mem_append.mp hc with hc | hc
        · exact hplain c hc
        · exact isPlain_of_isBlank (List.mem_takeWhile_imp hc)
    · cases h
  · cases h

/-- What leads to the parenthesis of a call does nothing in code. -/
theorem call?_word {here paren : List Char} {object : Option String} {method : String}
    (h : call? here = some ((object, method), paren)) :
    (∃ word, here = word ++ paren ∧ ∀ c ∈ word, IsPlain c) ∧
      (∀ o ∈ object, ∀ c ∈ o.toList, IsPlain c) ∧ ∀ c ∈ method.toList, IsPlain c := by
  have hobject : ∀ c ∈ "b.".toList, IsPlain c := List.all_iff_forall_prop.mp (by decide)
  unfold call? at h
  split at h
  · rename_i behind hbehind
    obtain ⟨⟨name, rest⟩, hname, heq⟩ := Option.map_eq_some_iff.mp h
    cases heq
    obtain ⟨⟨word, rfl, hword⟩, hmethod⟩ := callee?_word (by decide) hname
    refine ⟨⟨"b.".toList ++ word, ?_, fun c hc => ?_⟩, fun o ho => ?_, hmethod⟩
    · rw [token_eq hbehind, List.append_assoc]
    · rcases List.mem_append.mp hc with hc | hc
      · exact hobject c hc
      · exact hword c hc
    · cases ho
      exact List.all_iff_forall_prop.mp (by decide)
  · obtain ⟨⟨name, rest⟩, hname, heq⟩ := Option.map_eq_some_iff.mp h
    cases heq
    obtain ⟨hword, hmethod⟩ := callee?_word (by decide) hname
    exact ⟨hword, fun o ho => (by cases ho), hmethod⟩

end Pattern

end Bundler.Script

namespace Bundler

open Text Script Literals

/-! ## Calls -/

namespace Call

/-- A call whose parts keep to their places: its name does nothing in code, and the texts that are kept in
its arguments stand as arguments. -/
structure Sound (c : Call) : Prop where
  object : ∀ o ∈ c.object, ∀ ch ∈ o.toList, IsPlain ch
  method : ∀ ch ∈ c.method.toList, IsPlain ch
  args : ∀ e ∈ c.args, e.Sound

/-- A call is read back from its text: behind its name stands a parenthesis that is closed by the last
character of the text, and between the two its arguments are found, in order. -/
structure ReadsBack (c : Call) : Prop where
  name : '(' ∉ c.callee.toList
  inside : ∃ inside, c.render.toList = c.callee.toList ++ '(' :: (inside ++ [')']) ∧
    (scan c.render.toList).findClose (size c.callee.toList) 0 ('(' :: (inside ++ [')']))
      = some (size c.callee.toList + 1 + size inside) ∧
    ((scan c.render.toList).splitArguments (size c.callee.toList + 1) inside).map Prod.snd
      = c.args.map fun e => e.render.toList

variable {c : Call}

theorem toList_render (c : Call) : c.render.toList
    = c.callee.toList ++ '(' :: (joined (c.args.map fun e => e.render.toList) ++ [')']) := by
  unfold render
  rw [String.toList_append, String.toList_append, String.toList_append,
    Expr.toList_intercalate_renderAll, List.append_assoc, List.append_assoc]
  rfl

theorem Sound.callee (h : c.Sound) : ∀ ch ∈ c.callee.toList, IsPlain ch := by
  unfold Call.callee
  cases hobject : c.object with
  | none => exact h.method
  | some object =>
    intro ch hch
    simp only [String.toList_append, List.mem_append] at hch
    rcases hch with (hch | hch) | hch
    · exact h.object object hobject ch hch
    · obtain rfl := List.mem_singleton.mp hch
      decide
    · exact h.method ch hch

/-- The text of a sound call ends where its parenthesis is closed, and its arguments are found in it. -/
theorem Sound.reads (h : c.Sound) :
    (scan c.render.toList).findClose (size c.callee.toList) 0
        ('(' :: (joined (c.args.map fun e => e.render.toList) ++ [')']))
      = some (size c.callee.toList + 1 + size (joined (c.args.map fun e => e.render.toList))) ∧
    ((scan c.render.toList).splitArguments (size c.callee.toList + 1)
        (joined (c.args.map fun e => e.render.toList))).map Prod.snd
      = withoutEmptyLast (c.args.map fun e => e.render.toList) := by
  have hargs : ∀ t ∈ c.args.map fun e => e.render.toList, IsArgument t := fun t ht => by
    obtain ⟨e, he, rfl⟩ := List.mem_map.mp ht
    exact Expr.isArgument_render (h.args e he)
  have hreads := reads_scan c.render.toList
  rw [toList_render] at hreads ⊢
  generalize scan _ = ls at hreads ⊢
  generalize c.args.map _ = texts at hargs hreads ⊢
  have hname : walk anywhere (some '(') (.code, 0) c.callee.toList = some (.code, 0) :=
    walk_plain (fun _ hc => by cases hc) h.callee
  obtain ⟨-, hopening, hinside⟩ := hreads.behind hname
  rw [Nat.zero_add] at hopening hinside
  change ls.Reads none (size c.callee.toList + 1) .code (joined texts ++ [')']) at hinside
  have hwalk : walk anywhere (some ')') (.code, 0) (joined texts) = some (.code, 0) :=
    walk_joined (.inr rfl) (fun _ hc => by cases hc) (by decide) hargs
  obtain ⟨hpart, hclosing, -⟩ := hinside.behind hwalk
  refine ⟨?_, ?_⟩
  · have hend : ls.findClose (size c.callee.toList + 1) (0 + 1) (joined texts ++ [')'])
        = ls.findClose (size c.callee.toList + 1 + size (joined texts)) (0 + 1) [')'] :=
      findClose_append hpart hwalk
    rw [findClose_open hopening, hend, findClose_cons hclosing]
    rfl
  · rw [splitArguments_snd]
    cases texts with
    | nil => rfl
    | cons t ts =>
      have hmute : IsMute (some ')') := by decide
      have hnone : ∀ c ∈ ([] : List Char), isBlank c = true := fun c hc => by cases hc
      exact congrArg withoutEmptyLast
        (trim_splitCommas hmute (List.cons_ne_nil t ts) hargs hnone hpart)

/-- A sound call is read back just if its last argument is not empty. -/
theorem Sound.readsBack_iff (h : c.Sound) :
    c.ReadsBack ↔ ∀ e ∈ c.args.getLast?, e.render.toList ≠ [] := by
  have hlast : withoutEmptyLast (c.args.map fun e => e.render.toList)
      = (c.args.map fun e => e.render.toList) ↔ ∀ e ∈ c.args.getLast?, e.render.toList ≠ [] := by
    rw [withoutEmptyLast_eq_iff, List.getLast?_map]
    cases c.args.getLast? <;> simp
  refine ⟨fun hback => ?_, fun hne => ⟨?_, _, toList_render c, h.reads.1, ?_⟩⟩
  · obtain ⟨inside, htext, -, hargs⟩ := hback.inside
    have hinside := (toList_render c).symm.trans htext
    rw [List.append_cancel_left_eq, List.cons.injEq, List.append_cancel_right_eq] at hinside
    rw [← hinside.2, h.reads.2] at hargs
    exact hlast.mp hargs
  · exact fun hmem => absurd (h.callee _ hmem) (by decide)
  · rw [h.reads.2, hlast.mpr hne]

/-- Where a call is read back, what stands before its last parenthesis leads to code. -/
theorem ReadsBack.leads_to_code (h : c.ReadsBack) : Situation.code.after (some ')')
    (c.callee.toList ++ '(' :: joined (c.args.map fun e => e.render.toList)) = .code := by
  obtain ⟨inside, htext, hclose, -⟩ := h.inside
  have hinside := (toList_render c).symm.trans htext
  rw [List.append_cancel_left_eq, List.cons.injEq, List.append_cancel_right_eq] at hinside
  rw [hinside.2]
  have hreads := reads_scan c.render.toList
  have hparts : c.render.toList = (c.callee.toList ++ '(' :: inside) ++ [')'] := by
    rw [htext, List.append_assoc, List.cons_append]
  have hplace : 0 + size (c.callee.toList ++ '(' :: inside) = size c.callee.toList + 1 + size inside := by
    rw [size_append, size, show '('.utf8Size = 1 from rfl]
    omega
  nth_rewrite 2 [hparts] at hreads
  obtain ⟨-, hclosing, -⟩ := reads_append.mp hreads
  rw [hplace, contains_of_findClose hclose] at hclosing
  exact Situation.eq_code_of_not_covers hclosing.symm (by decide)

/-- A comment at the end of the last argument takes the parenthesis in. -/
example : ¬ (⟨none, "t", [.str "x", .raw "b // c"], ⟨0, 15, 1, 1, 2, 2⟩, none, true⟩ : Call).ReadsBack :=
  fun h => absurd h.leads_to_code (by decide +kernel)

/-! ## Calls as they are read -/

/-- The arguments that are kept as texts lead to code. -/
def EndsInCode (c : Call) : Prop :=
  ∀ text, Expr.raw text ∈ c.args → Situation.code.after none text.toList = .code

end Call

namespace Script

/-- What is read is sound, if it is when it is kept as its text. -/
theorem sound_readExpr {ls : Literals} {pos : Nat} {text : List Char}
    (h : readExpr ls pos text = .raw (String.ofList text) → IsArgument text) :
    (readExpr ls pos text).Sound := by
  unfold readExpr at h ⊢
  split
  · trivial
  rw [if_neg ‹_›] at h
  simp only at h ⊢
  split
  · trivial
  rw [if_neg ‹_›] at h
  split
  · trivial
  rw [if_neg ‹_›] at h
  split
  · trivial
  rw [if_neg ‹_›] at h
  split
  · trivial
  · rename_i hnone
    simp only [hnone] at h
    change IsArgument (String.ofList text).toList
    rw [String.toList_ofList]
    exact h trivial

/-- The word of a call leads to code, if the call starts outside of literals. -/
theorem Literals.Reads.behind_word {ls : Literals} {pos : Nat} {s : Situation} {word inside : List Char}
    (h : ls.Reads none pos s (word ++ '(' :: inside)) (hword : ∀ c ∈ word, IsPlain c)
    (houtside : ls.contains pos = false) : ls.Reads none (pos + size word) .code ('(' :: inside) := by
  cases word with
  | nil =>
    obtain rfl := Situation.eq_code_of_not_covers (h.1.symm.trans houtside) (by decide)
    exact h
  | cons c word =>
    have hcode := Situation.code_of_not_covers (h.1.symm.trans houtside)
    have hrest := h.2
    rw [hcode] at hrest
    have hwalk : walk anywhere (some '(') (.code, 0) word = some (.code, 0) :=
      walk_plain (fun _ hc => by cases hc) fun d hd => hword d (List.mem_cons_of_mem _ hd)
    have hbehind := (hrest.behind hwalk).2
    rwa [Nat.add_assoc] at hbehind

/-- What stands between the parentheses of a call that was read is read from code on, and closes what it
opens. -/
theorem CallRead.reads {text here : List Char} {c : Call} (h : CallRead text (scan text) here c)
    (hhere : here <:+ text) : ∃ pos inside closing s', isClosing closing = true ∧
      (scan text).Reads (some closing) pos .code inside ∧
      walk anywhere (some closing) (.code, 0) inside = some (s', 0) ∧
      c.args = ((scan text).splitArguments pos inside).map fun p => readExpr (scan text) p.1 p.2 := by
  obtain ⟨paren, closing, inside, hcall, hclose, hslice, hargs⟩ := h.found
  obtain ⟨⟨word, hword, hplain⟩, -⟩ := Pattern.call?_word hcall
  obtain ⟨-, behindParen, hparen⟩ := Pattern.call?_suffix hcall
  obtain ⟨before, htext⟩ := hhere
  have hpos : size text - size here = size before := by
    rw [← htext, size_append, Nat.add_sub_cancel_right]
  have hopening : size text - size paren = size before + size word := by
    rw [← htext, hword, size_append, size_append, ← Nat.add_assoc, Nat.add_sub_cancel_right]
  have hreads := reads_scan text
  have houtside := h.outside
  rw [hopening, hparen] at hclose
  rw [hopening] at hslice hargs
  rw [hpos] at houtside
  generalize scan text = ls at *
  rw [← htext, hword, hparen, reads_append, Nat.zero_add] at hreads
  have hbehind := hreads.2.behind_word hplain houtside
  rw [findClose_open hbehind.1] at hclose
  obtain ⟨args, c', behind, s', rfl, rfl, hclosing, -, hwalk⟩ := exists_of_findClose hbehind.2 hclose
  have hstands : Stands text (size before + size word + 1) (args ++ c' :: behind) :=
    ⟨before ++ word ++ ['('], by rw [← htext, hword, hparen]; simp, by rw [size_append, size_append]; rfl⟩
  obtain rfl := Option.some.inj (hslice.symm.trans hstands.slice?)
  exact ⟨_, inside, c', s', hclosing, (reads_append.mp hbehind.2).1, hwalk, hargs⟩

/-- A call that was read is sound, if the arguments that are kept as texts lead to code. -/
theorem CallRead.sound {text here : List Char} {c : Call} (h : CallRead text (scan text) here c)
    (hhere : here <:+ text) (hcode : c.EndsInCode) : c.Sound := by
  obtain ⟨paren, -, -, hcall, -⟩ := h.found
  obtain ⟨-, hobject, hmethod⟩ := Pattern.call?_word hcall
  obtain ⟨pos, inside, closing, s', hclosing, hreads, hwalk, hargs⟩ := h.reads hhere
  refine ⟨hobject, hmethod, fun e he => ?_⟩
  have hmem := he
  rw [hargs] at hmem
  obtain ⟨p, hp, rfl⟩ := List.mem_map.mp hmem
  refine sound_readExpr fun heq =>
    isArgument_of_mem_splitArguments (isMute_of_isClosing hclosing) hreads hwalk hp ?_
  have hend := hcode (String.ofList p.2) (heq ▸ he)
  rwa [String.toList_ofList] at hend

/-- So are all calls of a script that was read. -/
theorem sound_of_read {file source : String} {s : Script} {ds : List Diagnostic} {c : Call}
    (h : read file source = .ok (s, ds)) (hc : c ∈ s.calls) (hcode : c.EndsInCode) : c.Sound := by
  obtain ⟨here, hhere, hread⟩ := exists_of_mem_calls h hc
  exact hread.sound hhere hcode

end Script

/-! ## Edits -/

/-- What is made of sound arguments is sound. -/
theorem Expr.MadeOf.sound {args : List Expr} {value : Expr} (h : value.MadeOf args)
    (hargs : ∀ e ∈ args, e.Sound) : value.Sound := by
  induction h with
  | argument h => exact hargs _ h
  | str | num | null => trivial
  | lambda _ ih => exact allSound_iff.mpr ih
  | concat _ _ ihleft ihright => exact ⟨ihleft, ihright⟩

namespace Editing

variable {e e' : Editing}

/-- All calls of a script under edit are sound. -/
def SoundCalls (e : Editing) : Prop := ∀ c ∈ e.script.calls, c.Sound

theorem SoundCalls.editCall {id : Nat} {change : Call → Call} (he : e.SoundCalls)
    (h : e.editCall id change = .ok e')
    (hchange : ∀ c, e.call id = .ok c → c.Sound → (change c).Sound) : e'.SoundCalls := by
  obtain ⟨c, hc, -, hscript⟩ := exists_of_editCall h
  intro d hd
  rw [hscript] at hd
  rcases List.mem_or_eq_of_mem_set hd with hd | rfl
  · exact he d hd
  · have hsound := hchange c hc (he c (List.mem_of_getElem? (getElem?_of_call hc)))
    exact ⟨hsound.object, hsound.method, hsound.args⟩

theorem sound_resize {args : List Expr} {n : Nat} (h : ∀ a ∈ args, a.Sound) :
    ∀ a ∈ resize args n, a.Sound := by
  intro a ha
  rcases List.mem_append.mp ha with ha | ha
  · exact h a (List.mem_of_mem_take ha)
  · rw [List.eq_of_mem_replicate ha]
    trivial

/-- Edits keep calls sound. -/
theorem SoundCalls.edit (he : e.SoundCalls) (h : Edit e e') : e'.SoundCalls := by
  cases h with
  | method hname h =>
    exact he.editCall h fun c _ hc => ⟨hc.object, fun ch hch =>
      Pattern.isPlain_of_isNamePart (hname ch hch), hc.args⟩
  | @argument id index value d hcall hvalue h =>
    refine he.editCall h fun c hc hsound => ⟨hsound.object, hsound.method, fun a ha => ?_⟩
    cases hcall.symm.trans hc
    have hresized : ∀ a ∈ (if d.args.length ≤ index then resize d.args (index + 1) else d.args),
        a.Sound := by
      split
      · exact sound_resize hsound.args
      · exact hsound.args
    rcases List.mem_or_eq_of_mem_set ha with ha | rfl
    · exact hresized a ha
    · exact hvalue.sound hsound.args
  | argumentCount h =>
    exact he.editCall h fun c _ hc => ⟨hc.object, hc.method, sound_resize hc.args⟩
  | init h =>
    unfold setInit at h
    split at h
    · cases h
    · cases h
      exact he

theorem SoundCalls.leads (he : e.SoundCalls) (h : Leads e e') : e'.SoundCalls := by
  induction h with
  | refl => exact he
  | tail _ hedit ih => exact ih.edit hedit

end Editing

namespace Session

variable {file source : String} {script : Script} {ds : List Diagnostic} {c : Call}

/-- Whatever a build sets in a script that it has read, each call is read back from its text, unless its
last argument is empty. -/
theorem readsBack_iff_of_leads {e : Editing} (hread : Script.read file source = .ok (script, ds))
    (hcode : ∀ c ∈ script.calls, c.EndsInCode) (h : (Editing.start script).Leads e)
    (hc : c ∈ e.script.calls) : c.ReadsBack ↔ ∀ a ∈ c.args.getLast?, a.render.toList ≠ [] := by
  have hsound : (Editing.start script).SoundCalls := fun d hd => Script.sound_of_read hread hd (hcode d hd)
  exact (hsound.leads h c hc).readsBack_iff

/-- So is each call of what a build writes. -/
theorem readsBack_iff_of_render {refs : References} {overrides : List Override}
    {o : Script.WriteOptions} {written : Script.Written} {p p' : Project}
    (hread : Script.read file source = .ok (script, ds))
    (hcode : ∀ c ∈ script.calls, c.EndsInCode)
    (h : render file script refs overrides o p = .ok written p') :
    ∃ e : Editing, e.script.write o = .ok written ∧ ∀ c ∈ e.script.calls,
      (c.ReadsBack ↔ ∀ a ∈ c.args.getLast?, a.render.toList ≠ []) := by
  obtain ⟨e, hleads, hwrite⟩ := render_ok h
  exact ⟨e, hwrite, fun c hc => readsBack_iff_of_leads hread hcode hleads hc⟩

end Session

end Bundler

/-
String values on their way through a build.

A string literal of a script is read as its value, and a value is written as a quoted text. What a script
takes a literal for is `Script.denoted?`. Reading resolves the escapes with a table of its own, which
does not have the letters for backspace, form feed and vertical tab. So a literal is read as what it
stands for if and only if it has none of these escapes (`Script.readExpr_eq_str_iff`), and then it is
also written back as a literal of the same value (`Script.denoted?_render_readExpr_iff`). A quoted
text is read as that text if and only if it has no backspace and no form feed, which quoting writes
with such letters (`Script.readExpr_quote_iff`).
-/
import Mathlib.Data.Bool.AllAny
import Bundler.Script.Literal
import Bundler.Proofs.Lexing
import Bundler.Proofs.ModuleNames

set_option autoImplicit false

namespace Bundler.Script

open Bundler.Text

/-! ## Spellings -/

/-- A spelling of one character between quotes. -/
inductive Spelled (quote : Char) : List Char → Char → Prop where
  | plain {c : Char} (hquote : c ≠ quote) (hbackslash : c ≠ '\\') (hline : c ≠ '\n') :
    Spelled quote [c] c
  | letter {d c : Char} (hd : d ≠ 'u') (h : escaped? d = some c) : Spelled quote ['\\', d] c
  | code {digits : List Char} {c : Char} (h : coded? digits = some c) :
    Spelled quote ('\\' :: 'u' :: digits) c

/-- A spelling of a text between quotes. -/
inductive Spells (quote : Char) : List Char → List Char → Prop where
  | nil : Spells quote [] []
  | cons {spelling body value : List Char} {c : Char} (hc : Spelled quote spelling c)
    (h : Spells quote body value) : Spells quote (spelling ++ body) (c :: value)

theorem length_of_coded? {digits : List Char} {c : Char} (h : coded? digits = some c) :
    digits.length = 4 := by
  unfold coded? at h
  split at h
  · assumption
  · cases h

/-- What stands for a text is a spelling of it, with the quote behind it. -/
theorem spells_of_denotedFrom {quote : Char} :
    ∀ {skip : Nat} {cs value : List Char}, denotedFrom quote skip cs = some value →
      ∃ body, cs.drop skip = body ++ [quote] ∧ Spells quote body value
  | _, [], _, h => by simp [denotedFrom] at h
  | skip + 1, _ :: cs, value, h => by
    have hrest : denotedFrom quote skip cs = some value := h
    obtain ⟨body, hbody, hspells⟩ := spells_of_denotedFrom hrest
    exact ⟨body, hbody, hspells⟩
  | 0, c :: cs, value, h => by
    rw [denotedFrom] at h
    split at h
    · rename_i hquote
      split at h
      · rename_i hcs
        cases h
        exact ⟨[], by rw [List.isEmpty_iff.mp hcs, beq_iff_eq.mp hquote]; rfl, .nil⟩
      · cases h
    rename_i hquote
    split at h
    · cases h
    rename_i hline
    have hfeed : c ≠ '\n' := fun hc => hline (by simp [hc])
    split at h
    · rename_i hbackslash
      obtain rfl : c = '\\' := beq_iff_eq.mp hbackslash
      split at h
      · rename_i hu
        obtain ⟨d, hd, h⟩ := Option.bind_eq_some_iff.mp h
        obtain ⟨rest, hrest, rfl⟩ := Option.map_eq_some_iff.mp h
        obtain ⟨body, hbody, hspells⟩ := spells_of_denotedFrom hrest
        obtain ⟨tail, rfl⟩ : ∃ tail, cs = 'u' :: tail := by
          cases cs with
          | nil => simp at hu
          | cons x tail => exact ⟨tail, by simpa using hu⟩
        refine ⟨('\\' :: 'u' :: tail.take 4) ++ body, ?_, .cons (.code hd) hspells⟩
        have htail : tail = tail.take 4 ++ (body ++ [quote]) := by
          rw [← hbody, List.drop_succ_cons, List.take_append_drop]
        rw [List.drop_zero, List.append_assoc, List.cons_append, List.cons_append, ← htail]
      · rename_i hu
        obtain ⟨d, hd, h⟩ := Option.bind_eq_some_iff.mp h
        obtain ⟨rest, hrest, rfl⟩ := Option.map_eq_some_iff.mp h
        obtain ⟨body, hbody, hspells⟩ := spells_of_denotedFrom hrest
        obtain ⟨x, tail, rfl⟩ : ∃ x tail, cs = x :: tail := by
          cases cs with
          | nil => simp at hd
          | cons x tail => exact ⟨x, tail, rfl⟩
        refine ⟨['\\', x] ++ body, ?_, .cons (.letter (by simpa using hu) (by simpa using hd)) hspells⟩
        have htail : tail = body ++ [quote] := by simpa using hbody
        simp [htail]
    · rename_i hbackslash
      obtain ⟨rest, hrest, rfl⟩ := Option.map_eq_some_iff.mp h
      obtain ⟨body, hbody, hspells⟩ := spells_of_denotedFrom hrest
      refine ⟨[c] ++ body, ?_, .cons (.plain ?_ ?_ hfeed) hspells⟩
      · simpa using hbody
      · simpa using hquote
      · simpa using hbackslash

/-- A literal is a spelling of what it stands for, between two quotes of one kind. -/
theorem spells_of_denotedChars {text value : List Char} (h : denotedChars? text = some value) :
    ∃ quote body, (quote = '"' ∨ quote = '\'') ∧ text = quote :: (body ++ [quote]) ∧
      Spells quote body value := by
  unfold denotedChars? at h
  split at h
  · cases h
  · rename_i quote cs
    split at h
    · rename_i hquote
      obtain ⟨body, hbody, hspells⟩ := spells_of_denotedFrom h
      exact ⟨quote, body, by simpa using hquote, by rw [← hbody, List.drop_zero], hspells⟩
    · cases h

/-! ## A spelling is one literal -/

/-- A hexadecimal digit does nothing in a literal. -/
theorem ne_of_hexDigit? {c : Char} (h : (hexDigit? c).isSome) {d : Char} (hd : hexDigit? d = none) :
    c ≠ d := by
  rintro rfl
  rw [hd] at h
  cases h

theorem isSome_of_mem_mapM {α β : Type} {f : α → Option β} :
    ∀ {as : List α} {bs : List β}, as.mapM f = some bs → ∀ a ∈ as, (f a).isSome
  | [], _, _, _, ha => absurd ha List.not_mem_nil
  | a :: as, _, h, x, hx => by
    rw [List.mapM_cons] at h
    obtain ⟨b, hb, h⟩ := Option.bind_eq_some_iff.mp h
    obtain ⟨bs, hbs, -⟩ := Option.bind_eq_some_iff.mp h
    rcases List.mem_cons.mp hx with rfl | hx
    · rw [hb]
      rfl
    · exact isSome_of_mem_mapM hbs x hx

theorem isSome_of_coded? {digits : List Char} {c : Char} (h : coded? digits = some c) :
    ∀ d ∈ digits, (hexDigit? d).isSome := by
  unfold coded? at h
  split at h
  · obtain ⟨ns, hns, -⟩ := Option.bind_eq_some_iff.mp h
    exact isSome_of_mem_mapM hns
  · cases h

section Literal

variable {quote : Char} (hquote : quote = '"' ∨ quote = '\'') (start : Nat)

/-- A reader between quotes stays there over characters that do nothing. -/
private theorem literalsFrom_plain (rest : List Char) :
    ∀ {cs : List Char}, (∀ d ∈ cs, d ≠ quote ∧ d ≠ '\\' ∧ d ≠ '\n') → ∀ pos,
      literalsFrom pos (.quoted start quote false) (cs ++ rest)
        = literalsFrom (pos + size cs) (.quoted start quote false) rest
  | [], _, _ => rfl
  | d :: cs, h, pos => by
    obtain ⟨hd, hbackslash, hfeed⟩ := h d List.mem_cons_self
    have hstay : (d == '\\') = false := beq_eq_false_iff_ne.mpr hbackslash
    rw [List.cons_append, literalsFrom, size, ← Nat.add_assoc,
      ← literalsFrom_plain rest fun e he => h e (List.mem_cons_of_mem _ he)]
    simp [hd, hfeed, hstay]

include hquote

/-- A reader between quotes stays there over the spelling of a character. -/
theorem literalsFrom_spelled {c : Char} {spelling : List Char} (h : Spelled quote spelling c)
    (pos : Nat) (rest : List Char) :
    literalsFrom pos (.quoted start quote false) (spelling ++ rest)
      = literalsFrom (pos + size spelling) (.quoted start quote false) rest := by
  have hescape : ∀ d rest, literalsFrom pos (.quoted start quote false) ('\\' :: d :: rest)
      = literalsFrom (pos + size ['\\', d]) (.quoted start quote false) rest := by
    intro d rest
    have hbackslash : '\\' ≠ quote := by rcases hquote with rfl | rfl <;> decide
    rw [literalsFrom, if_neg (by simp [hbackslash]), beq_self_eq_true, literalsFrom]
    simp only [size, Nat.add_zero, Nat.add_assoc]
  cases h with
  | plain hc hbackslash hfeed =>
    exact literalsFrom_plain start rest
      (fun d hd => List.mem_singleton.mp hd ▸ ⟨hc, hbackslash, hfeed⟩) pos
  | letter hd h => exact hescape _ rest
  | @code digits _ h =>
    have hdigits : ∀ d ∈ digits, d ≠ quote ∧ d ≠ '\\' ∧ d ≠ '\n' := by
      intro d hd
      have hsome := isSome_of_coded? h d hd
      refine ⟨?_, ne_of_hexDigit? hsome rfl, ne_of_hexDigit? hsome rfl⟩
      rcases hquote with rfl | rfl <;> exact ne_of_hexDigit? hsome rfl
    rw [List.cons_append, List.cons_append, hescape, literalsFrom_plain start rest hdigits]
    congr 1
    simp only [size]
    omega

/-- A reader between quotes stays there over the spelling of a text. -/
theorem literalsFrom_spells {body value : List Char} (h : Spells quote body value) (rest : List Char) :
    ∀ pos, literalsFrom pos (.quoted start quote false) (body ++ rest)
      = literalsFrom (pos + size body) (.quoted start quote false) rest := by
  induction h with
  | nil => exact fun _ => rfl
  | cons hc h ih =>
    intro pos
    rw [List.append_assoc, literalsFrom_spelled hquote start hc, ih, size_append, Nat.add_assoc]

end Literal

/-- A literal that stands in code is one range from end to end. -/
theorem containing_literal {before text value : List Char} (rest : List Char)
    (hcode : Situation.code.after text.head? before = .code) (h : denotedChars? text = some value) :
    (Literals.scan (before ++ (text ++ rest))).containing (size before)
      = some (size before + size text) := by
  obtain ⟨quote, body, hquote, rfl, hspells⟩ := spells_of_denotedChars h
  have hopen : literalsFrom (size before) .code (quote :: (body ++ [quote]) ++ rest)
      = literalsFrom (size before + quote.utf8Size) (.quoted (size before) quote false)
          (body ++ (quote :: rest)) := by
    rw [List.cons_append, List.append_assoc, List.singleton_append]
    rcases hquote with rfl | rfl <;> simp [literalsFrom, isQuote]
  have hpos := quote.utf8Size_pos
  rw [Literals.containing_of_code (quote :: (body ++ [quote]) ++ rest) hcode, hopen,
    literalsFrom_spells hquote _ hspells, literalsFrom,
    if_pos (by simp), Literals.containing_cons (Nat.le_refl _) (by omega)]
  simp only [size, size_append]
  congr 1
  omega

/-! ## What is read -/

/-- A literal that stands in code is read as a string. -/
theorem readExpr_of_denoted {before text rest value : List Char}
    (hcode : Situation.code.after text.head? before = .code) (h : denotedChars? text = some value) :
    readExpr (Literals.scan (before ++ (text ++ rest))) (size before) text
      = .str (String.ofList (unescape (text.drop 1).dropLast)) := by
  have hliteral : isOneLiteral (Literals.scan (before ++ (text ++ rest))) (size before) text = true := by
    have hcontaining := containing_literal rest hcode h
    obtain ⟨quote, body, hquote, rfl, -⟩ := spells_of_denotedChars h
    obtain ⟨next, tail, htail⟩ : ∃ next tail, body ++ [quote] = next :: tail :=
      List.exists_cons_of_ne_nil (List.append_ne_nil_of_right_ne_nil _ (List.cons_ne_nil _ _))
    have hlast : (quote :: (body ++ [quote])).getLast? = some quote := by
      rw [← List.cons_append, List.getLast?_append_of_ne_nil _ (List.cons_ne_nil _ _)]
      rfl
    rw [htail] at hcontaining hlast ⊢
    simp only [isOneLiteral, hlast, hcontaining, beq_self_eq_true, Bool.and_true]
    rcases hquote with rfl | rfl <;> rfl
  unfold readExpr
  rw [if_pos hliteral]

/-- The characters that stand behind a backslash; `escaped` where one stands before the text. -/
def escapeLetters : Bool → List Char → List Char
  | _, [] => []
  | true, d :: cs => d :: escapeLetters false cs
  | false, c :: cs => escapeLetters (c == '\\') cs

/-- A letter whose escape reading takes for the letter: that of backspace, form feed or vertical tab. -/
def IsMisread (d : Char) : Prop := d = 'b' ∨ d = 'f' ∨ d = 'v'

instance (d : Char) : Decidable (IsMisread d) := inferInstanceAs (Decidable (_ ∨ _))

private theorem escapeLetters_plain (body : List Char) :
    ∀ {cs : List Char}, (∀ d ∈ cs, d ≠ '\\') →
      escapeLetters false (cs ++ body) = escapeLetters false body
  | [], _ => rfl
  | d :: cs, h => by
    have hstay : (d == '\\') = false := beq_eq_false_iff_ne.mpr (h d List.mem_cons_self)
    rw [List.cons_append, escapeLetters, hstay]
    exact escapeLetters_plain body fun e he => h e (List.mem_cons_of_mem _ he)

private theorem unescapeFrom_skip (cs : List Char) :
    ∀ taken : List Char, unescapeFrom taken.length (taken ++ cs) = unescapeFrom 0 cs
  | [] => rfl
  | _ :: taken => unescapeFrom_skip cs taken

/-- The letter of an escape is read as what it stands for, unless it is one of three. -/
theorem letterEscape_eq_iff {d c : Char} (h : escaped? d = some c) :
    letterEscape d = c ↔ ¬ IsMisread d := by
  have hnamed : ∀ l ∈ ['b', 't', 'n', 'v', 'f', 'r'],
      escaped? l = some (letterEscape l) ↔ ¬ IsMisread l := List.all_iff_forall_prop.mp (by decide)
  by_cases hl : d ∈ ['b', 't', 'n', 'v', 'f', 'r']
  · rw [← hnamed d hl, h, Option.some.injEq, eq_comm]
  · simp only [List.mem_cons, List.not_mem_nil, or_false, not_or] at hl
    obtain ⟨hb, ht, hn, hv, hf, hr⟩ := hl
    have hmisread : ¬ IsMisread d := by simp [IsMisread, hb, hf, hv]
    simp only [escaped?, beq_iff_eq, hb, ht, hn, hv, hf, hr, if_false] at h
    split at h
    · cases h
    · rename_i hother
      cases h
      have hzero : d ≠ '0' := fun hd => hother (by simp [hd])
      simp [letterEscape, ht, hn, hr, hzero, hmisread]

private theorem foldl_hexDigit? :
    ∀ {digits : List Char} {ns : List Nat}, digits.mapM hexDigit? = some ns → ∀ n : Nat,
      digits.foldl (fun (n : Option Nat) c => do return (← n) * 16 + (← hexDigit? c)) (some n)
        = some (ns.foldl (fun n d => n * 16 + d) n)
  | [], _, h, _ => by
    cases h
    rfl
  | c :: digits, ns, h, n => by
    rw [List.mapM_cons] at h
    obtain ⟨d, hd, h⟩ := Option.bind_eq_some_iff.mp h
    obtain ⟨rest, hrest, h⟩ := Option.bind_eq_some_iff.mp h
    cases h
    rw [List.foldl_cons, hd]
    exact foldl_hexDigit? hrest (n * 16 + d)

/-- A code of four digits is read as the character it stands for. -/
theorem numericEscape_of_coded? {digits : List Char} {c : Char} (h : coded? digits = some c) :
    numericEscape digits = [c] := by
  have hplus : ∀ rest, digits ≠ '+' :: rest := by
    rintro rest rfl
    exact ne_of_hexDigit? (isSome_of_coded? h '+' List.mem_cons_self) rfl rfl
  have hlength := length_of_coded? h
  have hempty : digits.isEmpty = false := by
    cases digits with
    | nil => cases hlength
    | cons _ _ => rfl
  obtain ⟨ns, hns, hchar⟩ : ∃ ns, digits.mapM hexDigit? = some ns ∧
      charOfCode? (ns.foldl (fun n d => n * 16 + d) 0) = some c := by
    unfold coded? at h
    rw [if_pos hlength] at h
    exact Option.bind_eq_some_iff.mp h
  have hnumber : hexNumber? digits = some (ns.foldl (fun n d => n * 16 + d) 0) := by
    unfold hexNumber?
    split
    · exact absurd rfl (hplus _)
    · simp only [hempty, Bool.false_eq_true, if_false]
      exact foldl_hexDigit? hns 0
  unfold numericEscape
  rw [hnumber, Option.bind_some, hchar]

/-- The escapes of a text that starts with the spelling of a character are those of the parts. -/
theorem escapeLetters_spelled {quote c : Char} {spelling : List Char} (h : Spelled quote spelling c)
    (rest : List Char) :
    escapeLetters false (spelling ++ rest)
      = escapeLetters false spelling ++ escapeLetters false rest := by
  cases h with
  | plain _ hbackslash _ =>
    have hstay : (c == '\\') = false := beq_eq_false_iff_ne.mpr hbackslash
    simp [escapeLetters, hstay]
  | letter hd h => rfl
  | @code digits _ h =>
    have hplain : ∀ d ∈ digits, d ≠ '\\' := fun d hd => ne_of_hexDigit? (isSome_of_coded? h d hd) rfl
    have hnone := escapeLetters_plain [] hplain
    rw [List.append_nil] at hnone
    change 'u' :: escapeLetters false (digits ++ rest) = 'u' :: (escapeLetters false digits ++ _)
    rw [escapeLetters_plain rest hplain, hnone]
    rfl

/-- The spelling of a character is read as one character. It is the one that is spelled, unless the
letter of the spelling is one of three. -/
theorem unescape_spelled {quote c : Char} {spelling : List Char} (h : Spelled quote spelling c)
    (rest : List Char) :
    ∃ d, unescape (spelling ++ rest) = d :: unescape rest ∧
      (d = c ↔ ∀ l ∈ escapeLetters false spelling, ¬ IsMisread l) := by
  cases h with
  | plain _ hbackslash _ =>
    refine ⟨c, ?_, by simp [escapeLetters]⟩
    simp [unescape, unescapeFrom, hbackslash]
  | @letter d _ hd h =>
    refine ⟨letterEscape d, ?_, by simpa [escapeLetters] using letterEscape_eq_iff h⟩
    simp [unescape, unescapeFrom]
  | @code digits _ h =>
    refine ⟨c, ?_, ?_⟩
    · have hlength := length_of_coded? h
      have htake : (digits ++ rest).take 4 = digits := by rw [← hlength, List.take_left]
      have hskip := unescapeFrom_skip rest ('u' :: digits)
      rw [List.length_cons, hlength] at hskip
      change numericEscape ((digits ++ rest).take 4) ++
        unescapeFrom (1 + ((digits ++ rest).take 4).length) ('u' :: (digits ++ rest)) = _
      rw [htake, hlength, numericEscape_of_coded? h]
      exact congrArg (c :: ·) hskip
    · have hplain : ∀ d ∈ digits, d ≠ '\\' := fun d hd =>
        ne_of_hexDigit? (isSome_of_coded? h d hd) rfl
      have hnone := escapeLetters_plain [] hplain
      rw [List.append_nil] at hnone
      have hletters : escapeLetters false ('\\' :: 'u' :: digits) = ['u'] := congrArg ('u' :: ·) hnone
      rw [hletters]
      simp [IsMisread]

/-- What is between the quotes is read as what it stands for if and only if none of three letters is
behind a backslash. -/
theorem unescape_eq_iff {quote : Char} {body value : List Char} (h : Spells quote body value) :
    unescape body = value ↔ ∀ d ∈ escapeLetters false body, ¬ IsMisread d := by
  induction h with
  | nil => simp [unescape, unescapeFrom, escapeLetters]
  | @cons spelling body value c hc h ih =>
    obtain ⟨d, hread, hiff⟩ := unescape_spelled hc body
    rw [hread, escapeLetters_spelled hc, List.cons.injEq, hiff, ih]
    simp only [List.mem_append, or_imp, forall_and]

/-! ## What is read and written back -/

/-- A literal has the escapes that it has between its quotes. -/
theorem escapeLetters_literal {quote : Char} (hquote : quote = '"' ∨ quote = '\'')
    {body value : List Char} (h : Spells quote body value) :
    escapeLetters false (quote :: (body ++ [quote])) = escapeLetters false body := by
  have hstay : (quote == '\\') = false := by rcases hquote with rfl | rfl <;> rfl
  have hbody : escapeLetters false (body ++ [quote]) = escapeLetters false body := by
    induction h with
    | nil => rfl
    | cons hc h ih => rw [List.append_assoc, escapeLetters_spelled hc, ih, escapeLetters_spelled hc]
  rw [escapeLetters, hstay, hbody]

section Literal

variable {before text value : List Char} (rest : List Char)
  (hcode : Situation.code.after text.head? before = .code) (h : denotedChars? text = some value)

include hcode h

/-- A literal of a script is read as the text it stands for if and only if none of its escapes is that
of backspace, form feed or vertical tab. -/
theorem readExpr_eq_str_iff :
    readExpr (Literals.scan (before ++ (text ++ rest))) (size before) text
        = .str (String.ofList value) ↔
      ∀ d ∈ escapeLetters false text, ¬ IsMisread d := by
  rw [readExpr_of_denoted hcode h]
  obtain ⟨quote, body, hquote, rfl, hspells⟩ := spells_of_denotedChars h
  have hinside : ((quote :: (body ++ [quote])).drop 1).dropLast = body := by simp
  rw [hinside, escapeLetters_literal hquote hspells, ← unescape_eq_iff hspells, Expr.str.injEq,
    String.ofList_inj]

/-- And just then it is written back as a literal of the same value. -/
theorem denoted?_render_readExpr_iff :
    denoted? (readExpr (Literals.scan (before ++ (text ++ rest))) (size before) text).render
        = denoted? (String.ofList text) ↔
      ∀ d ∈ escapeLetters false text, ¬ IsMisread d := by
  rw [← readExpr_eq_str_iff rest hcode h, readExpr_of_denoted hcode h]
  change denoted? (Json.quote _) = _ ↔ _
  rw [denoted?_quote, denoted?, String.toList_ofList, h, Option.map_some, Option.some.injEq,
    Expr.str.injEq]

end Literal

/-- What is written for a character in quotes is a spelling of it. -/
theorem spelled_escapeChar (c : Char) : Spelled '"' (Json.escapeChar c) c := by
  rcases escapeChar_cases c with ⟨d, hc, hd, hletter⟩ | ⟨digits, hc, -, hcode⟩ |
    ⟨hc, hquote, hbackslash, hlow⟩
  · rw [hc]
    exact .letter hd hletter
  · rw [hc]
    exact .code hcode
  · rw [hc]
    exact .plain hquote hbackslash (by rintro rfl; exact absurd hlow (by decide))

theorem spells_flatMap_escapeChar : ∀ cs : List Char, Spells '"' (cs.flatMap Json.escapeChar) cs
  | [] => .nil
  | c :: cs => .cons (spelled_escapeChar c) (spells_flatMap_escapeChar cs)

/-- Two characters are written with letters that reading does not know. -/
theorem escapeLetters_escapeChar_iff (c : Char) :
    (∀ d ∈ escapeLetters false (Json.escapeChar c), ¬ IsMisread d) ↔
      c ≠ Char.ofNat 8 ∧ c ≠ Char.ofNat 12 := by
  have hcontrol : ∀ n < 32,
      (escapeLetters false (Json.escapeChar (Char.ofNat n))).all (fun d => ¬ IsMisread d) ↔
        Char.ofNat n ≠ Char.ofNat 8 ∧ Char.ofNat n ≠ Char.ofNat 12 := by
    decide
  by_cases hlow : c.toNat < 32
  · have hc := hcontrol c.toNat hlow
    rwa [Char.ofNat_toNat, List.all_iff_forall_prop] at hc
  · have hne : c ≠ Char.ofNat 8 ∧ c ≠ Char.ofNat 12 :=
      ⟨by rintro rfl; exact hlow (by decide), by rintro rfl; exact hlow (by decide)⟩
    refine iff_of_true ?_ hne
    unfold Json.escapeChar
    split
    · exact List.all_iff_forall_prop.mp (by decide)
    split
    · exact List.all_iff_forall_prop.mp (by decide)
    · simp [escapeLetters]

/-- A text that is written in quotes is read as that text if and only if it has no backspace and no
form feed. -/
theorem readExpr_quote_iff {before : List Char} (rest : List Char)
    (hcode : Situation.code.after (some '"') before = .code) (s : String) :
    readExpr (Literals.scan (before ++ ((Json.quote s).toList ++ rest))) (size before)
        (Json.quote s).toList = .str s ↔
      ∀ c ∈ s.toList, c ≠ Char.ofNat 8 ∧ c ≠ Char.ofNat 12 := by
  have hdenoted : denotedChars? (Json.quote s).toList = some s.toList := by
    have h := denoted?_quote s
    unfold denoted? at h
    obtain ⟨value, hvalue, rfl⟩ := Option.map_eq_some_iff.mp h
    rw [hvalue, String.toList_ofList]
  have hopen : Situation.code.after (Json.quote s).toList.head? before = .code := by
    rwa [Json.quote, String.toList_ofList]
  have hiff := readExpr_eq_str_iff rest hopen hdenoted
  rw [String.ofList_toList] at hiff
  have hletters : ∀ cs : List Char,
      (∀ d ∈ escapeLetters false (cs.flatMap Json.escapeChar), ¬ IsMisread d) ↔
        ∀ c ∈ cs, c ≠ Char.ofNat 8 ∧ c ≠ Char.ofNat 12 := by
    intro cs
    induction cs with
    | nil => simp [escapeLetters]
    | cons c cs ih =>
      rw [List.flatMap_cons, escapeLetters_spelled (spelled_escapeChar c), List.forall_mem_append,
        escapeLetters_escapeChar_iff, ih, List.forall_mem_cons]
  have hquoted : (Json.quote s).toList = '"' :: (s.toList.flatMap Json.escapeChar ++ ['"']) :=
    String.toList_ofList
  rw [hiff, hquoted, escapeLetters_literal (.inl rfl) (spells_flatMap_escapeChar s.toList), hletters]

/-- A backspace comes back as the letter that it is written with. -/
example :
    readExpr (Literals.scan (Json.quoteChars [Char.ofNat 8])) 0 (Json.quoteChars [Char.ofNat 8])
      = .str "b" := by decide

end Bundler.Script

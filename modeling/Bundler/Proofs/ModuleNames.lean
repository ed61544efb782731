/-
How the modules of a bundle are called, and under which names they are found.

A module is registered under its name, other modules ask for it by its name, and entries are started by
their names. In the text of a bundle a name stands as a string literal. `Script.denoted?` is what a script
takes such a literal for. A quoted name is taken for the name (`Script.denoted?_quote`), whatever
characters it has, and requests, starts and the registrations of a merged bundle are written so. A fast
bundle writes its registrations with single quotes around the name as it is. These are taken for the
name if and only if it has no single quote, no backslash and no line break
(`Script.denoted?_singleQuotes_iff`).

A written script asks for a module that its import was found in by the id of the module
(`Session.moduleNames_ok`), and the loader looks a name up as it is unless it starts with a point. So
registrations and requests meet for all ids that do not start with a point: in a merged bundle without
short names always (`Bundle.found_merged`), and in a fast bundle if the single quotes do no harm
(`Bundle.found_fast_iff`).
-/
import Bundler.Bundle.Merged
import Bundler.Proofs.Step
import Bundler.Proofs.Names
import Bundler.Session

set_option autoImplicit false

namespace Bundler

/-! ## String literals -/

namespace Script

/-- The character that a letter behind a backslash stands for. Digits and the letter of a numeric escape
in two digits are not read here, nor are line breaks. -/
def escaped? (c : Char) : Option Char :=
  if c == 'b' then some (Char.ofNat 8)
  else if c == 't' then some '\t'
  else if c == 'n' then some '\n'
  else if c == 'v' then some (Char.ofNat 11)
  else if c == 'f' then some (Char.ofNat 12)
  else if c == 'r' then some '\r'
  else if c == 'x' || c.isDigit || c == '\n' || c == '\r' then none
  else some c

/-- The character with a code of four digits. -/
def coded? (digits : List Char) : Option Char :=
  if digits.length = 4 then (digits.mapM hexDigit?).bind fun ds =>
    charOfCode? (ds.foldl (fun n d => n * 16 + d) 0)
  else none

/-- What the rest of a literal is taken for, up to the quote that has to be its end; `skip` characters
belong to an escape already read. -/
def denotedFrom (quote : Char) : Nat → List Char → Option (List Char)
  | _, [] => none
  | skip + 1, _ :: cs => denotedFrom quote skip cs
  | 0, c :: cs =>
    if c == quote then if cs.isEmpty then some [] else none
    else if c == '\n' || c == '\r' then none
    else if c == '\\' then
      if cs.head? == some 'u' then
        (coded? (cs.tail.take 4)).bind fun d => (denotedFrom quote 5 cs).map (d :: ·)
      else
        (cs.head?.bind escaped?).bind fun d => (denotedFrom quote 1 cs).map (d :: ·)
    else (denotedFrom quote 0 cs).map (c :: ·)

/-- The text that a script takes a string literal for, if the characters are one from end to end. -/
def denotedChars? : List Char → Option (List Char)
  | [] => none
  | quote :: cs => if quote == '"' || quote == '\'' then denotedFrom quote 0 cs else none

/-- The text that a script takes a string literal for. -/
def denoted? (text : String) : Option String :=
  (denotedChars? text.toList).map String.ofList

/-- A character as it is written in quotes: behind a backslash stands a letter for it, or its code, or
it is written as it is. -/
theorem escapeChar_cases (c : Char) :
    (∃ d, Json.escapeChar c = ['\\', d] ∧ d ≠ 'u' ∧ escaped? d = some c) ∨
    (∃ digits, Json.escapeChar c = '\\' :: 'u' :: digits ∧ digits.length = 4 ∧ coded? digits = some c) ∨
    (Json.escapeChar c = [c] ∧ c ≠ '"' ∧ c ≠ '\\' ∧ 32 ≤ c.toNat) := by
  have hcontrol : ∀ n < 32,
      (Json.escapeChar (Char.ofNat n) = ['\\', (Json.escapeChar (Char.ofNat n)).getLastD '\\'] ∧
        (Json.escapeChar (Char.ofNat n)).getLastD '\\' ≠ 'u' ∧
        escaped? ((Json.escapeChar (Char.ofNat n)).getLastD '\\') = some (Char.ofNat n)) ∨
      (Json.escapeChar (Char.ofNat n) = '\\' :: 'u' :: (Json.escapeChar (Char.ofNat n)).drop 2 ∧
        ((Json.escapeChar (Char.ofNat n)).drop 2).length = 4 ∧
        coded? ((Json.escapeChar (Char.ofNat n)).drop 2) = some (Char.ofNat n)) := by
    decide
  by_cases hquote : c = '"'
  · subst hquote
    exact .inl ⟨'"', rfl, by decide, rfl⟩
  by_cases hbackslash : c = '\\'
  · subst hbackslash
    exact .inl ⟨'\\', rfl, by decide, rfl⟩
  by_cases hlow : c.toNat < 32
  · have hc := hcontrol c.toNat hlow
    rw [Char.ofNat_toNat] at hc
    rcases hc with hletter | hcode
    · exact .inl ⟨_, hletter⟩
    · exact .inr (.inl ⟨_, hcode⟩)
  · refine .inr (.inr ⟨?_, hquote, hbackslash, by omega⟩)
    unfold Json.escapeChar
    simp [hquote, hbackslash, hlow]

private theorem denotedFrom_skip (quote : Char) (taken cs : List Char) :
    denotedFrom quote taken.length (taken ++ cs) = denotedFrom quote 0 cs := by
  induction taken with
  | nil => rfl
  | cons c taken ih => exact ih

theorem denotedFrom_escapeChar (c : Char) (cs : List Char) :
    denotedFrom '"' 0 (Json.escapeChar c ++ cs) = (denotedFrom '"' 0 cs).map (c :: ·) := by
  rcases escapeChar_cases c with ⟨d, hc, hd, hletter⟩ | ⟨digits, hc, hlength, hcode⟩ |
    ⟨hc, hquote, hbackslash, hlow⟩
  · have hskip := denotedFrom_skip '"' [d] cs
    rw [hc, denotedFrom.eq_def]
    simp_all
  · have hskip := denotedFrom_skip '"' ('u' :: digits) cs
    rw [hc, denotedFrom.eq_def]
    simp_all
  · have hline : c ≠ '\n' ∧ c ≠ '\r' := ⟨by rintro rfl; exact absurd hlow (by decide),
      by rintro rfl; exact absurd hlow (by decide)⟩
    rw [hc, denotedFrom.eq_def]
    simp [hquote, hbackslash, hline]

/-- A quoted text is taken for that text. -/
theorem denoted?_quote (s : String) : denoted? (Json.quote s) = some s := by
  have hbody : ∀ cs : List Char, denotedFrom '"' 0 (cs.flatMap Json.escapeChar ++ ['"']) = some cs := by
    intro cs
    induction cs with
    | nil => rfl
    | cons c cs ih =>
      rw [List.flatMap_cons, List.append_assoc, denotedFrom_escapeChar, ih, Option.map_some]
  unfold denoted? Json.quote
  rw [String.toList_ofList]
  change (denotedFrom '"' 0 (s.toList.flatMap Json.escapeChar ++ ['"'])).map String.ofList = some s
  rw [hbody, Option.map_some, String.ofList_toList]

/-- A character that single quotes do no harm to. -/
def Plain (c : Char) : Prop := c ≠ '\'' ∧ c ≠ '\\' ∧ c ≠ '\n' ∧ c ≠ '\r'

instance (c : Char) : Decidable (Plain c) := inferInstanceAs (Decidable (_ ∧ _))

private theorem denotedFrom_plain {cs : List Char} (h : ∀ c ∈ cs, Plain c) :
    denotedFrom '\'' 0 (cs ++ ['\'']) = some cs := by
  induction cs with
  | nil => rfl
  | cons c cs ih =>
    obtain ⟨hquote, hbackslash, hfeed, hreturn⟩ := h c List.mem_cons_self
    rw [List.cons_append, denotedFrom]
    simp [hquote, hbackslash, hfeed, hreturn, ih fun d hd => h d (List.mem_cons_of_mem _ hd)]

/-- A literal is not taken for more characters than stand between its quotes, and for fewer if there is
a backslash among them. -/
private theorem length_denotedFrom {quote : Char} (hquote : quote ≠ '\\') :
    ∀ {cs : List Char} {skip : Nat} {text : List Char}, denotedFrom quote skip cs = some text →
      text.length + skip + 1 ≤ cs.length ∧
        ('\\' ∈ cs.drop skip → text.length + skip + 1 < cs.length)
  | [], _, _, h => by simp [denotedFrom] at h
  | c :: cs, skip + 1, text, h => by
    have hrest : denotedFrom quote skip cs = some text := h
    obtain ⟨hle, hlt⟩ := length_denotedFrom hquote hrest
    rw [List.length_cons, List.drop_succ_cons]
    exact ⟨by omega, fun hmem => by have := hlt hmem; omega⟩
  | c :: cs, 0, text, h => by
    have hescape : ∀ {n : Nat} {x : Option Char}, 1 ≤ n →
        (x.bind fun d => (denotedFrom quote n cs).map (d :: ·)) = some text →
        text.length + 1 < (c :: cs).length := by
      intro n x hn h
      obtain ⟨d, -, h⟩ := Option.bind_eq_some_iff.mp h
      obtain ⟨rest, hrest, rfl⟩ := Option.map_eq_some_iff.mp h
      obtain ⟨hle, -⟩ := length_denotedFrom hquote hrest
      simp only [List.length_cons]
      omega
    rw [denotedFrom] at h
    split at h
    · rename_i hc
      split at h
      · rename_i hcs
        cases h
        rw [beq_iff_eq] at hc
        rw [List.isEmpty_iff.mp hcs, hc]
        simp [Ne.symm hquote]
      · cases h
    · split at h
      · cases h
      · split at h
        · have hlt : text.length + 1 < (c :: cs).length := by
            split at h
            · exact hescape (by omega) h
            · exact hescape (by omega) h
          exact ⟨by omega, fun _ => hlt⟩
        · rename_i hbackslash
          obtain ⟨rest, hrest, rfl⟩ := Option.map_eq_some_iff.mp h
          obtain ⟨hle, hlt⟩ := length_denotedFrom hquote hrest
          have hne : '\\' ≠ c := fun heq => hbackslash (by rw [← heq]; rfl)
          simp only [List.length_cons, List.drop_zero, List.mem_cons, hne, false_or]
          exact ⟨by omega, fun hmem => by have := hlt hmem; omega⟩

private theorem plain_of_denotedFrom {cs : List Char} (hbackslash : '\\' ∉ cs)
    (h : (denotedFrom '\'' 0 (cs ++ ['\''])).isSome) : ∀ c ∈ cs, Plain c := by
  induction cs with
  | nil => exact fun c hc => absurd hc List.not_mem_nil
  | cons c cs ih =>
    rw [List.mem_cons, not_or] at hbackslash
    rw [List.cons_append, denotedFrom] at h
    split at h
    · simp at h
    · split at h
      · simp at h
      · rename_i hquote hline
        simp only [beq_iff_eq, Bool.or_eq_true, not_or, Ne.symm hbackslash.1, if_false,
          Option.isSome_map] at hquote hline h
        exact List.forall_mem_cons.mpr
          ⟨⟨hquote, Ne.symm hbackslash.1, hline.1, hline.2⟩, ih hbackslash.2 h⟩

/-- A text between single quotes is taken for that text just if the quotes do it no harm. -/
theorem denoted?_singleQuotes_iff (s : String) :
    denoted? ("'" ++ s ++ "'") = some s ↔ ∀ c ∈ s.toList, Plain c := by
  have hopen : denoted? ("'" ++ s ++ "'")
      = (denotedFrom '\'' 0 (s.toList ++ ['\''])).map String.ofList := by
    unfold denoted?
    rw [String.toList_append, String.toList_append]
    rfl
  rw [hopen]
  constructor
  · intro h
    obtain ⟨text, htext, rfl⟩ := Option.map_eq_some_iff.mp h
    rw [String.toList_ofList] at htext ⊢
    have hbackslash : '\\' ∉ text := fun hmem => by
      have := (length_denotedFrom (by decide) htext).2 (List.mem_append_left _ hmem)
      simp at this
    exact plain_of_denotedFrom hbackslash (by rw [htext]; rfl)
  · intro h
    rw [denotedFrom_plain h, Option.map_some, String.ofList_toList]

end Script

/-! ## What the loader looks up -/

namespace Bundle

/-- The parts of a path behind a segment of a relative name. -/
def followed (parts : List (List Char)) (segment : List Char) : List (List Char) :=
  if segment == ['.', '.'] then parts.dropLast
  else if segment == ['.'] || segment.isEmpty then parts
  else parts ++ [segment]

/-- The name that the loader looks up when a module asks for a name. This is what `norm` does in the
lines of the loader: a name that starts with a point is read in the directory of the module that asks. -/
def lookedUp (asker name : String) : String :=
  if Text.startsWith name "." then
    let directory := (Text.splitWhere (· == '/') asker.toList).dropLast
    let parts := (Text.splitWhere (· == '/') name.toList).foldl followed directory
    String.ofList (List.intercalate ['/'] parts)
  else name

variable {asker name dep : String}

theorem lookedUp_of_name (h : Text.startsWith name "." = false) : lookedUp asker name = name := by
  unfold lookedUp
  rw [h]
  rfl

private theorem mem_foldl_followed {part : List Char} (hpart : part = ['.', '.'] ∨ '/' ∈ part) :
    ∀ {segments parts : List (List Char)}, (∀ s ∈ segments, '/' ∉ s) →
      part ∈ segments.foldl followed parts → part ∈ parts
  | [], _, _, h => h
  | segment :: segments, parts, hsegments, h => by
    have hone := mem_foldl_followed hpart (fun s hs => hsegments s (List.mem_cons_of_mem _ hs)) h
    unfold followed at hone
    split at hone
    · exact (List.dropLast_sublist _).subset hone
    · split at hone
      · exact hone
      · rename_i hup _
        refine (List.mem_append.mp hone).resolve_right fun heq => ?_
        rw [List.mem_singleton] at heq
        subst heq
        rcases hpart with rfl | hslash
        · exact hup rfl
        · exact hsegments _ List.mem_cons_self hslash

/-- A name that leads out of the directory of the bundle is not found from within: a module inside that
asks for it gets another one, or none. -/
theorem lookedUp_ne (hasker : ['.', '.'] ∉ Text.splitWhere (· == '/') asker.toList)
    (hname : Text.startsWith name "../" = true) : lookedUp asker name ≠ name := by
  obtain ⟨rest, hrest⟩ : ∃ rest, name.toList = ['.', '.'] ++ '/' :: rest := by
    obtain ⟨rest, hrest⟩ := List.isPrefixOf_iff_prefix.mp hname
    exact ⟨rest, hrest.symm⟩
  have hpoint : Text.startsWith name "." = true := by
    unfold Text.startsWith
    rw [hrest]
    rfl
  have hsplit : Text.splitWhere (· == '/') name.toList
      = ['.', '.'] :: Text.splitWhere (· == '/') rest := by
    rw [hrest]
    exact Text.splitWhere_append (by rfl) rest (by simp)
  have hslash : ∀ (cs : List Char), ∀ s ∈ Text.splitWhere (· == '/') cs, '/' ∉ s := by
    intro cs s hs hmem
    have := Text.not_mem_splitWhere (· == '/') cs s hs _ hmem
    simp at this
  obtain ⟨parts, hparts⟩ : ∃ parts, (Text.splitWhere (· == '/') name.toList).foldl followed
      (Text.splitWhere (· == '/') asker.toList).dropLast = parts := ⟨_, rfl⟩
  have hfrom : ∀ part ∈ parts, ¬(part = ['.', '.'] ∨ '/' ∈ part) := by
    intro part hmem hpart
    rw [← hparts] at hmem
    have hold := (List.dropLast_sublist _).subset (mem_foldl_followed hpart (hslash _) hmem)
    rcases hpart with rfl | hmem
    · exact hasker hold
    · exact hslash _ _ hold hmem
  intro heq
  have hjoined : List.intercalate ['/'] parts = name.toList := by
    unfold lookedUp at heq
    simp only [hpoint, if_true] at heq
    rw [← heq, String.toList_ofList, hparts]
  by_cases hnil : parts = []
  · rw [hnil, hrest] at hjoined
    cases hjoined
  · have hsame : Text.splitWhere (· == '/') (List.intercalate ['/'] parts) = parts :=
      Text.splitWhere_intercalate (by rfl) hnil fun part hpart c hc => by
        refine beq_eq_false_iff_ne.mpr fun hslash => hfrom part hpart (.inr (hslash ▸ hc))
    rw [hjoined, hsplit] at hsame
    exact hfrom ['.', '.'] (hsame ▸ List.mem_cons_self) (.inl rfl)

/-- In a merged bundle without short names a module is found under what another one asks for. -/
theorem found_merged (asker : String) (h : Text.startsWith dep "." = false) :
    ∃ asked, Script.denoted? (Json.quote dep) = some asked ∧
      Script.denoted? (Json.quote (registeredName [] dep)) = some (lookedUp asker asked) :=
  ⟨dep, Script.denoted?_quote dep, by
    rw [lookedUp_of_name h]
    exact Script.denoted?_quote dep⟩

/-- In a fast bundle it is found if and only if single quotes do its name no harm. -/
theorem found_fast_iff (asker : String) (h : Text.startsWith dep "." = false) :
    (∃ asked, Script.denoted? (Json.quote dep) = some asked ∧
      Script.denoted? ("'" ++ dep ++ "'") = some (lookedUp asker asked)) ↔
    ∀ c ∈ dep.toList, Script.Plain c := by
  simp only [Script.denoted?_quote, Option.some.injEq, exists_eq_left', lookedUp_of_name h]
  exact Script.denoted?_singleQuotes_iff dep

end Bundle

/-! ## What a written script asks for -/

namespace Session

open Step

private theorem insertNames_ok : ∀ {deps : List (String × String)}
    {start names : OrderedMap String String},
    deps.foldlM (fun (m : OrderedMap String String) d => do
      return m.insert d.1 (← Path.moduleId d.2)) start = (.ok names : Except Fault _) →
    (∀ d ∈ deps, ∃ file id, (d.1, file) ∈ deps ∧ Path.moduleId file = .ok id ∧
      names.get? d.1 = some id) ∧
    ∀ specifier, (∀ d ∈ deps, d.1 ≠ specifier) → names.get? specifier = start.get? specifier
  | [], _, _, h => by
    cases h
    exact ⟨fun d hd => absurd hd List.not_mem_nil, fun _ _ => rfl⟩
  | (specifier, file) :: deps, start, names, h => by
    rw [List.foldlM_cons] at h
    obtain ⟨next, hnext, h⟩ := (except_bind_ok_iff _ _ _).mp h
    obtain ⟨id, hid, hnext⟩ := (except_bind_ok_iff _ _ _).mp hnext
    cases hnext
    obtain ⟨hlater, hother⟩ := insertNames_ok h
    refine ⟨fun d hd => ?_, fun s hs => ?_⟩
    · -- The last import under a specifier counts.
      by_cases hagain : ∃ e ∈ deps, e.1 = d.1
      · obtain ⟨e, he, hsame⟩ := hagain
        obtain ⟨file', id', hmem, hid', hget⟩ := hlater e he
        exact ⟨file', id', List.mem_cons_of_mem _ (hsame ▸ hmem), hid', hsame ▸ hget⟩
      · obtain rfl := (List.mem_cons.mp hd).resolve_right fun hd => hagain ⟨d, hd, rfl⟩
        refine ⟨file, id, List.mem_cons_self, hid, ?_⟩
        rw [hother specifier fun e he heq => hagain ⟨e, he, heq⟩, OrderedMap.get?_insert, if_pos rfl]
    · rw [hother s fun e he => hs e (List.mem_cons_of_mem _ he), OrderedMap.get?_insert,
        if_neg (hs _ List.mem_cons_self)]

/-- In a bundle a written script asks for a module that one of its imports was found in by the id of the
module. -/
theorem moduleNames_ok {config : Config} {refs : References} {jsName : String}
    {o : Script.WriteOptions} (h : writeOptions config refs jsName = .ok o)
    (hbundle : config.bundle ≠ .none) {specifier file : String}
    (hdep : (specifier, file) ∈ refs.sourceDeps) :
    ∃ found id, (specifier, found) ∈ refs.sourceDeps ∧ Path.moduleId found = .ok id ∧
      o.moduleNames.get? specifier = some id := by
  unfold writeOptions at h
  simp only at h
  rw [if_neg (by simpa using hbundle)] at h
  obtain ⟨names, hnames, h⟩ := (except_bind_ok_iff _ _ _).mp h
  cases h
  exact (insertNames_ok hnames).1 _ hdep

end Session

end Bundler

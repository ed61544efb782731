/-
The references of a style sheet.

A sheet is searched for references by one pattern, which knows neither comments nor strings nor names, and
which ends an argument at the first quote or closing parenthesis. Whatever it finds, the pieces make up the
sheet (`flatMap_written_pieces`). They are the references of the sheet just if the pattern sees each token as
what it is: no reference starts inside of a comment, a string or a name, and no quoted argument has a quote
or a closing parenthesis in it (`pieces_eq_iff`).

In such a sheet mapping does what it is for (`mapUrls_tokens`): the references into the project get new
arguments, asked for one by one in the order of the sheet, and everything else stays as it is.
-/
import Bundler.Proofs.SheetStrings

set_option autoImplicit false

namespace Bundler.Stylesheet

open Text
open Script.Piece (Closes)

variable {c : Char} {cs rest quote content behind before argument after : List Char}

/-! ## One reference -/

/-- A character that an argument ends at. -/
def endsArgument (c : Char) : Bool := isQuote c || c == ')'

theorem takeQuote_append (cs : List Char) : (takeQuote cs).1 ++ (takeQuote cs).2 = cs := by
  cases cs with
  | nil => rfl
  | cons c cs =>
    rw [takeQuote]
    split <;> rfl

theorem takeQuote_of_quote (h : isQuote c = true) (cs : List Char) : takeQuote (c :: cs) = ([c], cs) := if_pos h

theorem takeQuote_of_head? (h : ∀ c ∈ cs.head?, isQuote c = false) : takeQuote cs = ([], cs) := by
  cases cs with
  | nil => rfl
  | cons c cs => exact if_neg (by simp [h c rfl])

theorem urlStart_prefix (h : reference? cs = some (quote, content, behind)) : urlStart <+: cs := by
  unfold reference? at h
  split at h
  · cases h
  · rename_i hstart
    exact List.isPrefixOf_iff_prefix.mp (by simpa using hstart)

/-- How a reference is read behind its start: a quote, the content up to what ends it, a quote, and the
parenthesis. -/
theorem reference?_append_iff : reference? (urlStart ++ cs) = some (quote, content, behind) ↔
    ∃ inner closing, takeQuote (cs.dropWhile isBlank) = (quote, inner) ∧
      inner.span (fun c => !endsArgument c) = (content, closing) ∧
      (takeQuote closing).2.dropWhile isBlank = ')' :: behind := by
  have hstart : (!urlStart.isPrefixOf (urlStart ++ cs)) = false := by
    rw [List.isPrefixOf_iff_prefix.mpr (List.prefix_append _ _)]
    rfl
  unfold reference? endsArgument
  rw [hstart, List.drop_left, if_neg Bool.false_ne_true]
  constructor
  · intro h
    split at h
    rename_i inner hopening
    split at h
    rename_i closing hspan
    split at h
    rename_i last rest hlast
    split at h
    · rename_i hbehind
      cases h
      exact ⟨inner, closing, hopening, hspan, by rw [hlast]; exact hbehind⟩
    · cases h
  · rintro ⟨inner, closing, hopening, hspan, hbehind⟩
    simp only [hopening, hspan, hbehind]

/-- A reference is a part of the text, and nothing in its content ends it. -/
theorem of_reference?_eq_some (h : reference? cs = some (quote, content, behind)) :
    (∃ inside, cs = urlStart ++ inside ++ behind) ∧ ∀ c ∈ content, endsArgument c = false := by
  obtain ⟨cs, rfl⟩ := urlStart_prefix h
  obtain ⟨inner, closing, hopening, hspan, hbehind⟩ := reference?_append_iff.mp h
  rw [List.span_eq_takeWhile_dropWhile] at hspan
  obtain ⟨rfl, rfl⟩ := Prod.mk.inj hspan
  constructor
  · have hcs : cs = cs.takeWhile isBlank ++ (quote ++ inner) := by
      have hquote := takeQuote_append (cs.dropWhile isBlank)
      rw [hopening] at hquote
      rw [hquote, List.takeWhile_append_dropWhile]
    obtain ⟨closing', hclosing⟩ : ∃ closing', inner = closing' ++ ')' :: behind := by
      refine ⟨inner.takeWhile (fun c => !endsArgument c) ++
        ((takeQuote (inner.dropWhile fun c => !endsArgument c)).1 ++
          (takeQuote (inner.dropWhile fun c => !endsArgument c)).2.takeWhile isBlank), ?_⟩
      rw [← hbehind, List.append_assoc, List.append_assoc, List.takeWhile_append_dropWhile, takeQuote_append,
        List.takeWhile_append_dropWhile]
    refine ⟨cs.takeWhile isBlank ++ (quote ++ (closing' ++ [')'])), ?_⟩
    conv_lhs => rw [hcs, hclosing]
    simp
  · intro c hc
    simpa using List.mem_takeWhile_imp hc

/-! ## Tokens -/

/-- A token of a style sheet: a text without references, or a reference with its quote, its argument and the
blanks around them. -/
inductive Token where
  | passive (text : List Char)
  | url (quote before argument after : List Char)

namespace Token

/-- The text of a token. -/
def text : Token → List Char
  | passive text => text
  | url quote before argument after => urlStart ++ before ++ quote ++ argument ++ quote ++ after ++ [')']

/-- What stands between the quotes of a reference. Without quotes the blanks behind the argument belong to
it. -/
def inner (quote argument after : List Char) : List Char :=
  if quote.isEmpty then argument ++ after else argument

/-- The quotes of a reference are of one kind. Without quotes, blanks and all that could end the argument are
not in it, and if there is none, all blanks stand before it. -/
inductive Formed : Token → Prop where
  | passive (text : List Char) : Formed (passive text)
  | quoted {c : Char} {before argument after : List Char} (hquote : isQuote c = true)
    (hbefore : ∀ c ∈ before, isBlank c = true) (hafter : ∀ c ∈ after, isBlank c = true) :
    Formed (url [c] before argument after)
  | plain {before argument after : List Char} (hbefore : ∀ c ∈ before, isBlank c = true)
    (hafter : ∀ c ∈ after, isBlank c = true)
    (hargument : ∀ c ∈ argument, endsArgument c = false ∧ isBlank c = false) (hnone : argument = [] → after = []) :
    Formed (url [] before argument after)

/-- The pieces of a sheet that starts with a token. -/
def pieces : Token → List Piece → List Piece
  | passive text, ps => text.foldr consChar ps
  | url quote before argument after, ps =>
    .url quote (inner quote argument after) (url quote before argument after).text :: ps

/-- The pattern sees a token in front of `rest` as what it is: it finds nothing inside of a text without
references, and nothing in an argument ends it. -/
def Seen (rest : List Char) : Token → Prop
  | passive text => ∀ before behind, text = before ++ behind → behind ≠ [] → reference? (behind ++ rest) = none
  | url _ _ argument _ => ∀ c ∈ argument, endsArgument c = false

end Token

/-- The text of tokens. -/
def textOf (ts : List Token) : List Char := ts.flatMap Token.text

/-- The pieces that tokens make: texts without references next to each other are one. -/
def piecesOf (ts : List Token) : List Piece := ts.foldr Token.pieces []

/-- The pattern sees all tokens as what they are. -/
def Seen : List Token → Prop
  | [] => True
  | t :: ts => t.Seen (textOf ts) ∧ Seen ts

theorem dropWhile_append_of_blank (hbefore : ∀ c ∈ before, isBlank c = true)
    (hrest : ∀ c ∈ rest.head?, isBlank c = false) : (before ++ rest).dropWhile isBlank = rest := by
  rw [List.dropWhile_append_of_pos hbefore]
  cases rest with
  | nil => rfl
  | cons c cs => exact List.dropWhile_cons_of_neg (by simp [hrest c rfl])

theorem span_append_of_ends (hcontent : ∀ c ∈ content, endsArgument c = false)
    (hend : endsArgument c = true) :
    (content ++ c :: rest).span (fun c => !endsArgument c) = (content, c :: rest) := by
  have hall : ∀ c ∈ content, (!endsArgument c) = true := fun c hc => by rw [hcontent c hc]; rfl
  rw [List.span_eq_takeWhile_dropWhile, List.takeWhile_append_of_pos hall, List.dropWhile_append_of_pos hall,
    List.takeWhile_cons_of_neg (by simp [hend]), List.dropWhile_cons_of_neg (by simp [hend]), List.append_nil]

theorem reference?_quoted (hquote : isQuote c = true) (hbefore : ∀ c ∈ before, isBlank c = true)
    (hafter : ∀ c ∈ after, isBlank c = true) (hargument : ∀ c ∈ argument, endsArgument c = false)
    (rest : List Char) :
    reference? ((Token.url [c] before argument after).text ++ rest) = some ([c], argument, rest) := by
  have htext : (Token.url [c] before argument after).text ++ rest
      = urlStart ++ (before ++ c :: (argument ++ c :: (after ++ ')' :: rest))) := by
    simp [Token.text]
  rw [htext]
  refine reference?_append_iff.mpr
    ⟨argument ++ c :: (after ++ ')' :: rest), c :: (after ++ ')' :: rest), ?_, ?_, ?_⟩
  · rw [dropWhile_append_of_blank hbefore (by simpa using isBlank_quote hquote), takeQuote_of_quote hquote]
  · exact span_append_of_ends hargument (by simp [endsArgument, hquote])
  · rw [takeQuote_of_quote hquote]
    exact dropWhile_append_of_blank hafter (by simp; decide)

theorem not_endsArgument_of_blank (h : isBlank c = true) : endsArgument c = false := by
  cases hends : endsArgument c with
  | false => rfl
  | true =>
    simp only [endsArgument, Bool.or_eq_true, beq_iff_eq] at hends
    rcases hends with hquote | rfl
    · rw [isBlank_quote hquote] at h
      cases h
    · exact absurd h (by decide)

/-- Without quotes the blanks behind an argument are read with it. -/
theorem reference?_plain (hbefore : ∀ c ∈ before, isBlank c = true) (hafter : ∀ c ∈ after, isBlank c = true)
    (hargument : ∀ c ∈ argument, endsArgument c = false ∧ isBlank c = false)
    (hnone : argument = [] → after = []) (rest : List Char) :
    reference? ((Token.url [] before argument after).text ++ rest) = some ([], argument ++ after, rest) := by
  have htext : (Token.url [] before argument after).text ++ rest
      = urlStart ++ (before ++ (argument ++ after ++ ')' :: rest)) := by
    simp [Token.text]
  have hhead : ∀ c ∈ (argument ++ after ++ ')' :: rest).head?, isBlank c = false ∧ isQuote c = false := by
    cases argument with
    | nil =>
      rw [hnone rfl]
      simp
      decide
    | cons c cs =>
      have hc := hargument c List.mem_cons_self
      simp only [endsArgument, Bool.or_eq_false_iff] at hc
      simpa using ⟨hc.2, hc.1.1⟩
  have hcontent : ∀ c ∈ argument ++ after, endsArgument c = false := by
    intro c hc
    rcases List.mem_append.mp hc with hc | hc
    · exact (hargument c hc).1
    · exact not_endsArgument_of_blank (hafter c hc)
  rw [htext]
  refine reference?_append_iff.mpr ⟨argument ++ after ++ ')' :: rest, ')' :: rest, ?_, ?_, ?_⟩
  · rw [dropWhile_append_of_blank hbefore fun c hc => (hhead c hc).1,
      takeQuote_of_head? fun c hc => (hhead c hc).2]
  · exact span_append_of_ends (c := ')') hcontent rfl
  · rw [takeQuote_of_head? (by simp; decide)]
    exact List.dropWhile_cons_of_neg (by decide)

/-- A reference is read as it is, if nothing in its argument ends it. -/
theorem reference?_url (hformed : (Token.url quote before argument after).Formed)
    (hargument : ∀ c ∈ argument, endsArgument c = false) (rest : List Char) :
    reference? ((Token.url quote before argument after).text ++ rest)
      = some (quote, Token.inner quote argument after, rest) := by
  cases hformed with
  | quoted hquote hbefore hafter => exact reference?_quoted hquote hbefore hafter hargument rest
  | plain hbefore hafter hplain hnone => exact reference?_plain hbefore hafter hplain hnone rest

/-! ## Pieces -/

/-- A piece as it is written. -/
def Piece.written : Piece → List Char
  | .text cs => cs
  | .url _ _ written => written

theorem piecesFrom_skip (taken cs : List Char) : piecesFrom taken.length (taken ++ cs) = piecesFrom 0 cs := by
  induction taken with
  | nil => rfl
  | cons c taken ih => exact ih

theorem piecesFrom_of_none (h : reference? (c :: cs) = none) :
    piecesFrom 0 (c :: cs) = consChar c (piecesFrom 0 cs) := by
  rw [piecesFrom, h]

/-- A reference that is found is a piece. -/
theorem piecesFrom_of_some {written : List Char} (hne : written ≠ [])
    (h : reference? (written ++ behind) = some (quote, content, behind)) :
    piecesFrom 0 (written ++ behind) = .url quote content written :: piecesFrom 0 behind := by
  obtain ⟨c, inside, rfl⟩ := List.exists_cons_of_ne_nil hne
  rw [List.cons_append] at h ⊢
  rw [piecesFrom, h]
  have hlength : (inside ++ behind).length - behind.length = inside.length := by simp
  simp only [hlength, List.take_left, piecesFrom_skip]

/-- A text starts with a reference or with a character that is none. -/
theorem piecesFrom_cases (c : Char) (cs : List Char) :
    (reference? (c :: cs) = none ∧ piecesFrom 0 (c :: cs) = consChar c (piecesFrom 0 cs)) ∨
    ∃ quote content written behind, c :: cs = written ++ behind ∧ written ≠ [] ∧
      reference? (written ++ behind) = some (quote, content, behind) ∧
      piecesFrom 0 (c :: cs) = .url quote content written :: piecesFrom 0 behind := by
  cases hread : reference? (c :: cs) with
  | none => exact .inl ⟨rfl, piecesFrom_of_none hread⟩
  | some found =>
    obtain ⟨quote, content, behind⟩ := found
    obtain ⟨⟨inside, htext⟩, -⟩ := of_reference?_eq_some hread
    have hne : urlStart ++ inside ≠ [] := by simp [urlStart]
    refine .inr ⟨quote, content, urlStart ++ inside, behind, htext, hne, ?_⟩
    rw [htext] at hread ⊢
    exact ⟨hread, piecesFrom_of_some hne hread⟩

theorem flatMap_written_consChar (c : Char) (ps : List Piece) :
    (consChar c ps).flatMap Piece.written = c :: ps.flatMap Piece.written := by
  cases ps with
  | nil => rfl
  | cons p ps => cases p <;> rfl

/-- The pieces make up the sheet. -/
theorem flatMap_written_pieces (cs : List Char) : (pieces cs).flatMap Piece.written = cs := by
  -- behind a reference the scan goes on with a text that is shorter by more than one character
  suffices hlength : ∀ (n : Nat) (cs : List Char), cs.length ≤ n →
      (piecesFrom 0 cs).flatMap Piece.written = cs from hlength cs.length cs (Nat.le_refl _)
  intro n
  induction n with
  | zero =>
    intro cs hle
    obtain rfl := List.eq_nil_of_length_eq_zero (Nat.le_zero.mp hle)
    rfl
  | succ n ih =>
    intro cs hle
    cases cs with
    | nil => rfl
    | cons c cs =>
      rcases piecesFrom_cases c cs with ⟨-, hpieces⟩ | ⟨quote, content, written, behind, htext, hne, -, hpieces⟩
      · rw [hpieces, flatMap_written_consChar, ih cs (by simpa using hle)]
      · have hshort : behind.length ≤ n := by
          have hlen := congrArg List.length htext
          have hpos := List.length_pos_iff.mpr hne
          simp only [List.length_cons, List.length_append] at hlen hle
          omega
        rw [hpieces, List.flatMap_cons, ih behind hshort, htext]
        rfl

/-- The first piece is no empty text. -/
def HeadFull (ps : List Piece) : Prop := ps.head? ≠ some (.text [])

theorem headFull_consChar (c : Char) (ps : List Piece) : HeadFull (consChar c ps) := by
  unfold HeadFull
  cases ps with
  | nil => simp [consChar]
  | cons p ps => cases p <;> simp [consChar]

theorem headFull_piecesFrom (cs : List Char) : HeadFull (piecesFrom 0 cs) := by
  cases cs with
  | nil => simp [HeadFull, piecesFrom]
  | cons c cs =>
    rcases piecesFrom_cases c cs with ⟨-, hpieces⟩ | ⟨quote, content, written, behind, -, -, -, hpieces⟩
    · rw [hpieces]
      exact headFull_consChar c _
    · rw [hpieces]
      simp [HeadFull]

theorem headFull_piecesOf (ts : List Token) : HeadFull (piecesOf ts) := by
  induction ts with
  | nil => simp [HeadFull, piecesOf]
  | cons t ts ih =>
    cases t with
    | url quote before argument after => simp [HeadFull, piecesOf, Token.pieces]
    | passive text =>
      cases text with
      | nil => exact ih
      | cons c text => exact headFull_consChar c _

theorem consChar_inj {ps qs : List Piece} (hps : HeadFull ps) (hqs : HeadFull qs) :
    consChar c ps = consChar c qs ↔ ps = qs := by
  refine ⟨fun h => ?_, congrArg _⟩
  unfold HeadFull at hps hqs
  rcases ps with _ | ⟨⟨as⟩ | ⟨q, a, w⟩, ps⟩ <;> rcases qs with _ | ⟨⟨bs⟩ | ⟨q', b, w'⟩, qs⟩ <;>
    simp_all [consChar]

theorem consChar_ne_url {ps qs : List Piece} {written : List Char} :
    consChar c ps ≠ .url quote content written :: qs := by
  cases ps with
  | nil => simp [consChar]
  | cons p ps => cases p <;> simp [consChar]

/-! ## What the pattern sees -/

theorem seen_passive_cons : (Token.passive (c :: cs)).Seen rest ↔
    reference? (c :: cs ++ rest) = none ∧ (Token.passive cs).Seen rest := by
  constructor
  · intro h
    exact ⟨h [] (c :: cs) rfl (List.cons_ne_nil _ _), fun before behind htext hne =>
      h (c :: before) behind (by rw [htext]; rfl) hne⟩
  · rintro ⟨hfirst, hrest⟩ before behind htext hne
    cases before with
    | nil =>
      rw [List.nil_append] at htext
      rwa [← htext]
    | cons d before =>
      obtain ⟨-, htext⟩ := List.cons.inj htext
      exact hrest before behind htext hne

/-- A text that no reference starts in is a text piece, and nothing else is. -/
theorem piecesFrom_passive_iff {ps : List Piece} (hps : HeadFull ps) (cs rest : List Char) :
    piecesFrom 0 (cs ++ rest) = cs.foldr consChar ps ↔
      (Token.passive cs).Seen rest ∧ piecesFrom 0 rest = ps := by
  induction cs with
  | nil =>
    have hnothing : (Token.passive []).Seen rest := by
      intro before behind htext hne
      exact absurd (List.append_eq_nil_iff.mp htext.symm).2 hne
    exact ⟨fun h => ⟨hnothing, h⟩, fun h => h.2⟩
  | cons c cs ih =>
    have hfull : HeadFull (cs.foldr consChar ps) := by
      cases cs with
      | nil => exact hps
      | cons d cs => exact headFull_consChar d _
    rw [seen_passive_cons, List.cons_append, List.foldr_cons]
    rcases piecesFrom_cases c (cs ++ rest) with ⟨hnone, hpieces⟩ | ⟨quote, content, written, behind, htext, -, hsome, hpieces⟩
    · rw [hpieces, consChar_inj (headFull_piecesFrom _) hfull, ih]
      exact ⟨fun h => ⟨⟨hnone, h.1⟩, h.2⟩, fun h => ⟨h.1.2, h.2⟩⟩
    · rw [hpieces, htext, hsome]
      exact ⟨fun h => absurd h.symm consChar_ne_url, fun h => nomatch h.1.1⟩

/-- A reference is a piece with its argument just if nothing in the argument ends it. -/
theorem piecesFrom_url_iff {ps : List Piece} (hformed : (Token.url quote before argument after).Formed)
    (rest : List Char) :
    piecesFrom 0 ((Token.url quote before argument after).text ++ rest)
        = (Token.url quote before argument after).pieces ps ↔
      (Token.url quote before argument after).Seen rest ∧ piecesFrom 0 rest = ps := by
  have hne : (Token.url quote before argument after).text ≠ [] := by simp [Token.text]
  have hseen : (Token.url quote before argument after).Seen rest →
      piecesFrom 0 ((Token.url quote before argument after).text ++ rest)
        = .url quote (Token.inner quote argument after) (Token.url quote before argument after).text ::
          piecesFrom 0 rest :=
    fun h => piecesFrom_of_some hne (reference?_url hformed h rest)
  constructor
  · intro h
    have hargument : (Token.url quote before argument after).Seen rest := by
      obtain ⟨c, text, htext⟩ := List.exists_cons_of_ne_nil hne
      rw [htext, List.cons_append] at h
      rcases piecesFrom_cases c (text ++ rest) with ⟨-, hpieces⟩ | ⟨q, content, written, behind, -, -, hsome, hpieces⟩
      · exact absurd (hpieces.symm.trans h) consChar_ne_url
      · obtain ⟨hpiece, -⟩ := List.cons.inj (hpieces.symm.trans h)
        obtain ⟨-, rfl, -⟩ := Piece.url.inj hpiece
        intro d hd
        refine (of_reference?_eq_some hsome).2 d ?_
        unfold Token.inner
        split
        · exact List.mem_append_left _ hd
        · exact hd
    rw [hseen hargument] at h
    exact ⟨hargument, (List.cons.inj h).2⟩
  · rintro ⟨hargument, rfl⟩
    exact hseen hargument

/-- The pieces of a text are the references among its tokens, and what is between them, just if the pattern
sees each token as what it is. -/
theorem piecesFrom_textOf_iff {ts : List Token} (hformed : ∀ t ∈ ts, t.Formed) :
    piecesFrom 0 (textOf ts) = piecesOf ts ↔ Seen ts := by
  induction ts with
  | nil => exact ⟨fun _ => trivial, fun _ => rfl⟩
  | cons t ts ih =>
    have hrest := ih fun u hu => hformed u (List.mem_cons_of_mem _ hu)
    have htext : textOf (t :: ts) = t.text ++ textOf ts := rfl
    have hpieces : piecesOf (t :: ts) = t.pieces (piecesOf ts) := rfl
    have hall : Seen (t :: ts) ↔ t.Seen (textOf ts) ∧ Seen ts := Iff.rfl
    rw [htext, hpieces, hall, ← hrest]
    cases t with
    | passive text => exact piecesFrom_passive_iff (headFull_piecesOf ts) text (textOf ts)
    | url quote before argument after =>
      exact piecesFrom_url_iff (hformed _ List.mem_cons_self) (textOf ts)

/-- In a text that does not hold the start of a reference and cannot be the start of one, none is seen. -/
theorem seen_passive_of_not_infix (hinside : ¬urlStart <:+: cs) (hlast : ∀ c ∈ cs.getLast?, c ∉ urlStart)
    (rest : List Char) : (Token.passive cs).Seen rest := by
  intro before behind htext hne
  cases hread : reference? (behind ++ rest) with
  | none => rfl
  | some found =>
    exfalso
    obtain ⟨tail, htail⟩ := urlStart_prefix hread
    rcases List.append_eq_append_iff.mp htail with ⟨more, hmore, -⟩ | ⟨more, hmore, -⟩
    · exact hinside ⟨before, more, by rw [htext, hmore, List.append_assoc]⟩
    · -- what is left of the text is a part of the start, so its last character is one of it
      obtain ⟨c, hc⟩ := List.getLast?_isSome.mpr hne |> Option.isSome_iff_exists.mp
      refine hlast c ?_ ?_
      · rw [htext, List.getLast?_append, hc]
        rfl
      · rw [hmore]
        exact List.mem_append_left _ (List.mem_of_getLast? hc)

/-! ## Sheets -/

/-- A character that a name of a style sheet can have. -/
def isNamePart (c : Char) : Bool := c.isAlphanum || c == '-' || c == '_' || 128 ≤ c.toNat

/-- The text of a name, in which a backslash may stand before any character. -/
inductive IsName : List Char → Prop where
  | nil : IsName []
  | char {c : Char} {cs : List Char} (hname : isNamePart c = true) (hrest : IsName cs) : IsName (c :: cs)
  | escaped (c : Char) {cs : List Char} (hrest : IsName cs) : IsName ('\\' :: c :: cs)

/-- A sheet and its tokens. Names go as far as they can, comments and strings are ended, and a name `url` with
a parenthesis starts a reference. -/
inductive Sheet : List Char → List Token → Prop where
  | nil : Sheet [] []
  | char {c : Char} {cs : List Char} {ts : List Token} (hquote : isQuote c = false)
    (hname : isNamePart c = false) (hescape : c ≠ '\\') (hmark : ¬(c = '/' ∧ cs.head? = some '*'))
    (hrest : Sheet cs ts) : Sheet (c :: cs) (.passive [c] :: ts)
  | name {name cs : List Char} {ts : List Token} (hname : IsName name) (hne : name ≠ [])
    (hend : ∀ c ∈ cs.head?, isNamePart c = false ∧ c ≠ '\\') (hurl : ¬urlStart <+: name ++ cs)
    (hrest : Sheet cs ts) : Sheet (name ++ cs) (.passive name :: ts)
  | string {quote : Char} {inside cs : List Char} {ts : List Token} (hquote : isQuote quote = true)
    (hclosed : Closes quote inside) (hrest : Sheet cs ts) :
    Sheet (quote :: inside ++ cs) (.passive (quote :: inside) :: ts)
  | comment {inside behind cs : List Char} {ts : List Token}
    (hended : splitOnce? ['*', '/'] cs = some (inside, behind)) (hrest : Sheet behind ts) :
    Sheet ('/' :: '*' :: cs) (.passive ('/' :: '*' :: (inside ++ ['*', '/'])) :: ts)
  | quoted {quote : Char} {before argument after cs : List Char} {ts : List Token}
    (hquote : isQuote quote = true) (hbefore : ∀ c ∈ before, isBlank c = true)
    (hafter : ∀ c ∈ after, isBlank c = true) (hclosed : Closes quote (argument ++ [quote]))
    (hrest : Sheet cs ts) :
    Sheet ((Token.url [quote] before argument after).text ++ cs) (.url [quote] before argument after :: ts)
  | plain {before argument after cs : List Char} {ts : List Token} (hbefore : ∀ c ∈ before, isBlank c = true)
    (hafter : ∀ c ∈ after, isBlank c = true)
    (hargument : ∀ c ∈ argument, endsArgument c = false ∧ isBlank c = false ∧ c ≠ '(' ∧ c ≠ '\\')
    (hnone : argument = [] → after = []) (hrest : Sheet cs ts) :
    Sheet ((Token.url [] before argument after).text ++ cs) (.url [] before argument after :: ts)

variable {ts : List Token}

theorem Sheet.eq_textOf (h : Sheet cs ts) : cs = textOf ts := by
  induction h with
  | nil => rfl
  | comment hended _ ih =>
    rw [of_splitOnce?_eq_some (List.cons_ne_nil _ _) hended, ih]
    simp [textOf, Token.text]
  | char _ _ _ _ _ ih => exact congrArg (_ :: ·) ih
  | name _ _ _ _ _ ih => exact congrArg (_ ++ ·) ih
  | string _ _ _ ih => exact congrArg (_ ++ ·) ih
  | quoted _ _ _ _ _ ih => exact congrArg (_ ++ ·) ih
  | plain _ _ _ _ _ ih => exact congrArg (_ ++ ·) ih

theorem Sheet.formed (h : Sheet cs ts) : ∀ t ∈ ts, t.Formed := by
  induction h with
  | nil => exact fun _ ht => absurd ht List.not_mem_nil
  | char _ _ _ _ _ ih => exact List.forall_mem_cons.mpr ⟨.passive _, ih⟩
  | name _ _ _ _ _ ih => exact List.forall_mem_cons.mpr ⟨.passive _, ih⟩
  | string _ _ _ ih => exact List.forall_mem_cons.mpr ⟨.passive _, ih⟩
  | comment _ _ ih => exact List.forall_mem_cons.mpr ⟨.passive _, ih⟩
  | quoted hquote hbefore hafter _ _ ih =>
    exact List.forall_mem_cons.mpr ⟨.quoted hquote hbefore hafter, ih⟩
  | plain hbefore hafter hargument hnone _ ih =>
    exact List.forall_mem_cons.mpr
      ⟨.plain hbefore hafter (fun c hc => ⟨(hargument c hc).1, (hargument c hc).2.1⟩) hnone, ih⟩

/-- **The references of a sheet.** They are what the pattern finds just if no reference starts inside of a
comment, a string or a name, and no quoted argument has a quote or a closing parenthesis in it. -/
theorem pieces_eq_iff (h : Sheet cs ts) : pieces cs = piecesOf ts ↔ Seen ts := by
  rw [h.eq_textOf]
  exact piecesFrom_textOf_iff h.formed

/-- A sheet in which the reference behind a comment is seen. -/
example : let reference := Token.url ['"'] [] ['a'] []
    Sheet (['/', '*', '*', '/'] ++ (reference.text ++ [])) [.passive ['/', '*', '*', '/'], reference] ∧
      Seen [.passive ['/', '*', '*', '/'], reference] := by
  intro reference
  have hended : splitOnce? ['*', '/'] (['*', '/'] ++ (reference.text ++ []))
      = some ([], reference.text ++ []) := by decide +kernel
  have hclosed : Closes '"' (['a'] ++ ['"']) := .plain (by decide) (by decide) .quote
  have hnone : ∀ c ∈ ([] : List Char), isBlank c = true := fun _ hc => absurd hc List.not_mem_nil
  have hlast : ∀ c ∈ ['/', '*', '*', '/'].getLast?, c ∉ urlStart := by
    intro c hc
    obtain rfl := Option.some.inj hc
    decide
  have hargument : ∀ c ∈ ['a'], endsArgument c = false := by
    intro c hc
    obtain rfl := List.mem_singleton.mp hc
    decide
  exact ⟨.comment hended (.quoted (by decide) hnone hnone hclosed .nil),
    seen_passive_of_not_infix (by decide +kernel) hlast _, hargument, trivial⟩

/-! ## Mapping -/

section

variable {m : Type → Type} [Monad m] (target : String → m String)

/-- A token with a new argument, if it is a reference into the project. The blanks around the argument go. -/
def mapToken : Token → m (List Char)
  | .passive text => pure text
  | .url quote before argument after => do
    if isInternal argument then
      let new ← target (String.ofList argument)
      return urlStart ++ quote ++ new.toList ++ quote ++ [')']
    else return (Token.url quote before argument after).text

/-- The pieces of a sheet, mapped one after the other. -/
def mapPieces (ps : List Piece) : m (List Char) := List.flatten <$> ps.mapM (mapPiece target)

/-- The tokens of a sheet, mapped one after the other. -/
def mapTokens (ts : List Token) : m (List Char) := List.flatten <$> ts.mapM (mapToken target)

variable [LawfulMonad m]

theorem mapUrls_eq (css : String) : mapUrls css target = String.ofList <$> mapPieces target (pieces css.toList) := by
  simp [mapUrls, mapPieces]

theorem mapPieces_cons (p : Piece) (ps : List Piece) : mapPieces target (p :: ps)
    = mapPiece target p >>= fun first => (first ++ ·) <$> mapPieces target ps := by
  simp [mapPieces]

theorem mapTokens_cons (t : Token) (ts : List Token) : mapTokens target (t :: ts)
    = mapToken target t >>= fun first => (first ++ ·) <$> mapTokens target ts := by
  simp [mapTokens]

theorem mapPieces_consChar (c : Char) (ps : List Piece) :
    mapPieces target (consChar c ps) = (c :: ·) <$> mapPieces target ps := by
  have hnew : ∀ ps, mapPieces target (.text [c] :: ps) = (c :: ·) <$> mapPieces target ps := by
    intro ps
    simp [mapPieces_cons, mapPiece]
  cases ps with
  | nil => exact hnew []
  | cons p ps =>
    cases p with
    | url quote content written => exact hnew _
    | text cs => simp [consChar, mapPieces_cons, mapPiece]

theorem mapPieces_foldr_consChar (text : List Char) (ps : List Piece) :
    mapPieces target (text.foldr consChar ps) = (text ++ ·) <$> mapPieces target ps := by
  induction text with
  | nil => simp
  | cons c text ih =>
    rw [List.foldr_cons, mapPieces_consChar, ih]
    simp

end

/-- What is read of an argument is the argument, if it has no blanks at its ends. -/
theorem trim_inner (hformed : (Token.url quote before argument after).Formed) (htrimmed : Trimmed argument) :
    trim (Token.inner quote argument after) = argument := by
  have hnone : ∀ c ∈ ([] : List Char), isBlank c = true := fun _ hc => absurd hc List.not_mem_nil
  have hargument : trim argument = argument := htrimmed.trim_eq hnone
  cases hformed with
  | quoted => exact hargument
  | plain _ hafter =>
    change trim (argument ++ after) = argument
    rw [trim_eq_trimStart_trimEnd, trimEnd_append hafter, ← trim_eq_trimStart_trimEnd, hargument]

/-- **Mapping a sheet.** In a sheet whose tokens are seen as what they are, and whose quoted arguments have no
blanks at their ends, mapping goes over the tokens in their order: each reference into the project gets a new
argument, which is asked for with its argument, and each other token stays as it is. -/
theorem mapUrls_tokens {m : Type → Type} [Monad m] [LawfulMonad m] (target : String → m String) {css : String}
    (hsheet : Sheet css.toList ts) (hseen : Seen ts)
    (htrimmed : ∀ quote before argument after, Token.url quote before argument after ∈ ts → Trimmed argument) :
    mapUrls css target = String.ofList <$> mapTokens target ts := by
  rw [mapUrls_eq, (pieces_eq_iff hsheet).mpr hseen]
  -- from here on only the form of the tokens matters, not the text they are read from
  have hformed := hsheet.formed
  clear hsheet hseen
  congr 1
  induction ts with
  | nil => rfl
  | cons t ts ih =>
    have hrest := ih (fun q b a f h => htrimmed q b a f (List.mem_cons_of_mem _ h))
      fun u hu => hformed u (List.mem_cons_of_mem _ hu)
    have hpieces : piecesOf (t :: ts) = t.pieces (piecesOf ts) := rfl
    rw [mapTokens_cons, hpieces]
    cases t with
    | passive text =>
      simp only [Token.pieces, mapToken, pure_bind]
      rw [mapPieces_foldr_consChar, hrest]
    | url quote before argument after =>
      have hinner := trim_inner (hformed _ List.mem_cons_self) (htrimmed _ _ _ _ List.mem_cons_self)
      simp only [Token.pieces]
      rw [mapPieces_cons, hrest]
      simp only [mapPiece, mapToken, hinner]

/-- A parenthesis ends an argument also between quotes, and what is left of it stays behind the new one. -/
example : reference? "url(\"a(1).png\")".toList
    = some (['"'], "a(1".toList, ".png\")".toList) := by decide +kernel

/-- A reference is found in a comment as well. -/
example : pieces "/*url(a)*/".toList
    = [.text "/*".toList, .url [] "a".toList "url(a)".toList, .text "*/".toList] := by decide +kernel

end Bundler.Stylesheet

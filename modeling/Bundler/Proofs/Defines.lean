/-
Values for the names of a script.

A script gets values for names token by token. A token is a name in the code, as long as it goes, or any
other character, and a name is a member if the last character in front of it that is not blank is a point,
where nothing in front of its own piece of code is looked at. A name that is no member and has a value is
written as its value, and every other token as it is (`substituteDefines_reads`). So a name behind a comment
behind a point is no member, and one behind three points is.

The tokens of a text can be read in one pass with the situation at every place (`tokens_eq_tokensFrom`).
Then lines that lead from code to code have their own tokens, whatever comes behind them (`tokens_append`),
and a text keeps its characters if none of its free names has a value (`substituteDefines_of_not_free`).
-/
import Bundler.Proofs.Stripping

set_option autoImplicit false

namespace Bundler.Script

open Text

/-! ## Tokens -/

/-- A token of a script: a name in its code, which may be a member, or another character. -/
inductive Token where
  | name (text : List Char) (member : Bool)
  | other (c : Char)

namespace Token

/-- The characters of a token. -/
def text : Token → List Char
  | .name text _ => text
  | .other c => [c]

/-- What a token is written as: the value of its name, if it is free and has one, and else its text. -/
def valued (defines : OrderedMap String Json) : Token → List Char
  | .name text false =>
    match defines.get? (String.ofList text) with
    | some value => (Expr.ofJson value).render.toList
    | none => text
  | .name text true => text
  | .other c => [c]

/-- The name of a token that is free. -/
def free? : Token → Option String
  | .name text false => some (String.ofList text)
  | _ => none

end Token

/-- A point stands last in front of a place, blanks apart; the code in front is given newest first. -/
def behindPoint (before : List Char) : Bool := (before.dropWhile isBlank).head? == some '.'

/-- The tokens of code: names as far as they go, and single characters between them. `before` is the code
in front, newest first. -/
inductive Tokenizes : List Char → List Char → List Token → Prop where
  | nil (before : List Char) : Tokenizes before [] []
  | other {before cs : List Char} {c : Char} {ts : List Token} (hc : startsName c = false)
    (hrest : Tokenizes (c :: before) cs ts) : Tokenizes before (c :: cs) (.other c :: ts)
  | name {before more cs : List Char} {c : Char} {ts : List Token} (hc : startsName c = true)
    (hmore : ∀ d ∈ more, continuesName d = true) (hend : ∀ d ∈ cs.head?, continuesName d = false)
    (hrest : Tokenizes ((c :: more).reverse ++ before) cs ts) :
    Tokenizes before (c :: more ++ cs) (.name (c :: more) (behindPoint before) :: ts)

/-- A place in code: the name at hand and the code in front of it, both newest first. -/
structure Place where
  before : List Char
  name : List Char

namespace Place

/-- The start of a piece of code. -/
def fresh : Place := ⟨[], []⟩

/-- The name at hand as a token. -/
def token (p : Place) : List Token :=
  if p.name.isEmpty then [] else [.name p.name.reverse (behindPoint p.before)]

/-- The tokens that a character ends, and the place behind it. -/
def read (p : Place) (c : Char) : List Token × Place :=
  if !p.name.isEmpty && continuesName c then ([], ⟨p.before, c :: p.name⟩)
  else if startsName c then (p.token, ⟨p.name ++ p.before, [c]⟩)
  else (p.token ++ [.other c], ⟨c :: (p.name ++ p.before), []⟩)

/-- The tokens of code from a place on. -/
def tokens (p : Place) : List Char → List Token
  | [] => p.token
  | c :: cs => (p.read c).1 ++ (p.read c).2.tokens cs

end Place

variable {before cs as bs : List Char} {c : Char} {p q : Place} {ts : List Token} {s : Situation}
  {ahead : Option Char} {defines : OrderedMap String Json}

theorem continuesName_of_startsName (h : startsName c = true) : continuesName c = true := by
  rw [continuesName, h, Bool.true_or]

/-- What can happen at a character: the name at hand goes on, a name starts, or a character stands between
names. -/
theorem Place.read_cases (p : Place) (c : Char) :
    (p.name ≠ [] ∧ continuesName c = true ∧ p.read c = ([], ⟨p.before, c :: p.name⟩)) ∨
    (p.name = [] ∧ startsName c = true ∧ p.read c = ([], ⟨p.before, [c]⟩)) ∨
    (startsName c = false ∧ (p.name = [] ∨ continuesName c = false) ∧
      p.read c = (p.token ++ [.other c], ⟨c :: (p.name ++ p.before), []⟩)) := by
  obtain ⟨before, name⟩ := p
  cases name with
  | nil =>
    cases hc : startsName c with
    | true => exact .inr (.inl ⟨rfl, rfl, by simp [read, token, hc]⟩)
    | false => exact .inr (.inr ⟨rfl, .inl rfl, by simp [read, token, hc]⟩)
  | cons d name =>
    cases hgo : continuesName c with
    | true => exact .inl ⟨List.cons_ne_nil d name, rfl, by simp [read, hgo]⟩
    | false =>
      have hc : startsName c = false := by
        cases hc : startsName c with
        | true => rw [continuesName_of_startsName hc] at hgo; cases hgo
        | false => rfl
      exact .inr (.inr ⟨hc, .inr rfl, by simp [read, hgo, hc]⟩)

theorem Place.token_of_nil (h : p.name = []) : p.token = [] := by simp [token, h]

theorem Place.token_of_ne_nil (h : p.name ≠ []) : p.token = [.name p.name.reverse (behindPoint p.before)] := by
  simp [token, h]

theorem Place.flatMap_token (p : Place) : p.token.flatMap Token.text = p.name.reverse := by
  by_cases h : p.name = []
  · rw [token_of_nil h, h]
    rfl
  · rw [token_of_ne_nil h]
    exact List.append_nil _

/-- The tokens that were ended and the name at hand are the name before and the character. -/
theorem Place.flatMap_read (p : Place) (c : Char) :
    (p.read c).1.flatMap Token.text ++ (p.read c).2.name.reverse = p.name.reverse ++ [c] := by
  rcases p.read_cases c with ⟨-, -, hread⟩ | ⟨hname, -, hread⟩ | ⟨-, -, hread⟩
  · rw [hread]
    exact List.reverse_cons
  · rw [hread, hname]
    rfl
  · rw [hread, List.flatMap_append, flatMap_token]
    simp [Token.text]

/-- The tokens make up the code. -/
theorem Place.flatMap_tokens (p : Place) (cs : List Char) :
    (p.tokens cs).flatMap Token.text = p.name.reverse ++ cs := by
  induction cs generalizing p with
  | nil => rw [tokens, flatMap_token, List.append_nil]
  | cons c cs ih =>
    rw [tokens, List.flatMap_append, ih, ← List.append_assoc, flatMap_read, List.append_assoc]
    rfl

/-- A name: a character that can start one, and more that can go on. -/
def Token.IsName (w : List Char) : Prop :=
  ∃ c more, w = c :: more ∧ startsName c = true ∧ ∀ d ∈ more, continuesName d = true

/-- What is at hand is nothing or the start of a name. -/
def Place.IsOpen (p : Place) : Prop := p.name = [] ∨ Token.IsName p.name.reverse

/-- What is read from a place on are the tokens of the code. -/
theorem Place.IsOpen.tokenizes (h : p.IsOpen) (cs : List Char) :
    Tokenizes p.before (p.name.reverse ++ cs) (p.tokens cs) := by
  -- a name at hand ends in front of what follows
  have hends : ∀ {p : Place} {cs : List Char} {ts : List Token}, p.IsOpen →
      (p.name = [] ∨ ∀ d ∈ cs.head?, continuesName d = false) → Tokenizes (p.name ++ p.before) cs ts →
      Tokenizes p.before (p.name.reverse ++ cs) (p.token ++ ts) := by
    intro p cs ts hopen hend hrest
    rcases hopen with hname | ⟨c, more, hname, hc, hmore⟩
    · rw [token_of_nil hname]
      rw [hname] at hrest ⊢
      exact hrest
    · have hne : p.name ≠ [] := by
        rintro heq
        rw [heq] at hname
        cases hname
      rw [token_of_ne_nil hne, hname]
      refine .name hc hmore (hend.resolve_left hne) ?_
      rwa [← hname, List.reverse_reverse]
  induction cs generalizing p with
  | nil =>
    have hlast : Tokenizes p.before (p.name.reverse ++ []) (p.token ++ []) :=
      hends h (.inr fun d hd => by cases hd) (.nil _)
    rwa [List.append_nil p.token] at hlast
  | cons c cs ih =>
    rw [tokens]
    rcases p.read_cases c with ⟨hne, hgo, hread⟩ | ⟨hname, hc, hread⟩ | ⟨hc, hend, hread⟩
    · have hopen : IsOpen ⟨p.before, c :: p.name⟩ := by
        obtain ⟨d, more, hname, hd, hmore⟩ := h.resolve_left hne
        refine .inr ⟨d, more ++ [c], by rw [List.reverse_cons, hname]; rfl, hd, ?_⟩
        intro e he
        rcases List.mem_append.mp he with he | he
        · exact hmore e he
        · rwa [List.mem_singleton.mp he]
      have hrest := ih hopen
      rw [List.reverse_cons, List.append_assoc] at hrest
      rw [hread]
      exact hrest
    · rw [hread, hname]
      have hopen : IsOpen ⟨p.before, [c]⟩ := .inr ⟨c, [], rfl, hc, fun d hd => by cases hd⟩
      exact ih hopen
    · have hopen : IsOpen ⟨c :: (p.name ++ p.before), []⟩ := .inl rfl
      rw [hread, List.append_assoc]
      refine hends h (hend.imp_right fun hgo d hd => ?_) (.other hc (ih hopen))
      cases hd
      exact hgo

theorem Place.tokenizes_fresh (cs : List Char) : Tokenizes [] cs (fresh.tokens cs) :=
  have hopen : fresh.IsOpen := .inl rfl
  hopen.tokenizes cs

/-- The tokens make up the code. -/
theorem Tokenizes.flatMap_text (h : Tokenizes before cs ts) : ts.flatMap Token.text = cs := by
  induction h with
  | nil => rfl
  | other hc _ ih =>
    rw [List.flatMap_cons, ih]
    rfl
  | name hc hmore hend _ ih =>
    rw [List.flatMap_cons, ih]
    rfl

/-- A name among the tokens of code goes as far as it can on both sides, and it is a member if a point stands
last in front of it. -/
theorem Tokenizes.name_of_append {front back : List Token} {w : List Char} {member : Bool}
    (h : Tokenizes before cs (front ++ .name w member :: back)) :
    Token.IsName w ∧ (∀ t ∈ front.getLast?, ∃ d, t = .other d ∧ startsName d = false) ∧
    (∀ d ∈ (back.flatMap Token.text).head?, continuesName d = false) ∧
    member = behindPoint ((front.flatMap Token.text).reverse ++ before) := by
  induction front generalizing before cs with
  | nil =>
    cases h with
    | name hc hmore hend hrest =>
      rw [hrest.flatMap_text]
      exact ⟨⟨_, _, rfl, hc, hmore⟩, fun t ht => (by cases ht), hend, rfl⟩
  | cons t front ih =>
    -- the token in front is followed by the name itself, or by one that the rest tells of
    have hfront : (front = [] → ∃ d, t = .other d ∧ startsName d = false) →
        (∀ t ∈ front.getLast?, ∃ d, t = .other d ∧ startsName d = false) →
        ∀ t' ∈ (t :: front).getLast?, ∃ d, t' = .other d ∧ startsName d = false := by
      intro hfirst hrest t' ht'
      by_cases hnil : front = []
      · rw [hnil] at ht'
        cases ht'
        exact hfirst hnil
      · rw [List.getLast?_cons_of_ne_nil hnil] at ht'
        exact hrest t' ht'
    cases h with
    | @other _ _ c _ hc hrest =>
      obtain ⟨hname, hleft, hright, hmember⟩ := ih hrest
      refine ⟨hname, hfront (fun _ => ⟨c, rfl, hc⟩) hleft, hright, ?_⟩
      rw [hmember, List.flatMap_cons, List.reverse_append, List.append_assoc]
      rfl
    | @name _ more cs c _ hc hmore hend hrest =>
      obtain ⟨hname, hleft, hright, hmember⟩ := ih hrest
      refine ⟨hname, hfront (fun hnil => ?_) hleft, hright, ?_⟩
      · obtain ⟨d, rest, rfl, hd, -⟩ := hname
        have hcs := hrest.flatMap_text
        rw [hnil] at hcs
        have hgo := hend d (by rw [← hcs]; rfl)
        rw [continuesName_of_startsName hd] at hgo
        cases hgo
      · rw [hmember, List.flatMap_cons, List.reverse_append, List.append_assoc]
        rfl

/-! ## What is written for tokens -/

theorem valued_name (defines : OrderedMap String Json) (before name : List Char) :
    (Token.name name (behindPoint before)).valued defines = substituteName defines before name := by
  unfold substituteName behindPoint
  cases hpoint : (before.dropWhile isBlank).head? == some '.' with
  | true => cases hget : defines.get? (String.ofList name) <;> simp [Token.valued]
  | false => cases hget : defines.get? (String.ofList name) <;> simp [Token.valued, hget]

theorem Place.flatMap_valued_token (p : Place) : p.token.flatMap (Token.valued defines)
    = if p.name.isEmpty then [] else substituteName defines p.before p.name.reverse := by
  by_cases h : p.name = []
  · rw [token_of_nil h, h]
    rfl
  · rw [token_of_ne_nil h, if_neg (by simpa using h), ← valued_name]
    exact List.append_nil _

/-- Code gets its values token by token. -/
theorem Place.flatMap_valued_tokens (p : Place) (cs : List Char) :
    (p.tokens cs).flatMap (Token.valued defines) = substituteFrom defines p.before p.name cs := by
  induction cs generalizing p with
  | nil => exact p.flatMap_valued_token
  | cons c cs ih =>
    rw [tokens, List.flatMap_append, ih, substituteFrom]
    rcases p.read_cases c with ⟨hne, hgo, hread⟩ | ⟨hname, hc, hread⟩ | ⟨hc, hend, hread⟩
    · rw [hread, if_pos (by simp [hne, hgo])]
      rfl
    · rw [hread, hname, if_neg (by simp), if_pos hc]
      rfl
    · rw [hread, if_neg (by rcases hend with hname | hgo <;> simp [*]), if_neg (by simp [hc]),
        List.flatMap_append, flatMap_valued_token, List.append_assoc]
      rfl

/-- The tokens of a piece: what is no code has no names. -/
def Piece.tokens (q : Piece) : List Token :=
  if q.kind = .code then Place.fresh.tokens q.text else q.text.map .other

/-- The tokens of a script. -/
def tokens (js : List Char) : List Token := (Piece.cut js).flatMap Piece.tokens

theorem flatMap_text_other (cs : List Char) : (cs.map Token.other).flatMap Token.text = cs := by
  induction cs with
  | nil => rfl
  | cons c cs ih => exact congrArg (c :: ·) ih

theorem flatMap_valued_other (cs : List Char) : (cs.map Token.other).flatMap (Token.valued defines) = cs := by
  induction cs with
  | nil => rfl
  | cons c cs ih => exact congrArg (c :: ·) ih

theorem Piece.flatMap_tokens (q : Piece) : q.tokens.flatMap Token.text = q.text := by
  unfold Piece.tokens
  split
  · exact (Place.tokenizes_fresh q.text).flatMap_text
  · exact flatMap_text_other q.text

theorem Piece.flatMap_valued_tokens (q : Piece) :
    q.tokens.flatMap (Token.valued defines) = substitutePiece defines q := by
  unfold Piece.tokens substitutePiece
  by_cases hq : q.kind = .code
  · rw [if_pos hq, if_pos (by simp [hq])]
    exact Place.fresh.flatMap_valued_tokens q.text
  · rw [if_neg hq, if_neg (by simpa using hq), flatMap_valued_other]

theorem flatMap_tokens (js : List Char) : (tokens js).flatMap Token.text = js := by
  rw [tokens, List.flatMap_assoc]
  simp only [Piece.flatMap_tokens]
  exact (Piece.cuts_cut js).flatMap_text

theorem Token.valued_of_get?_none {t : Token} (h : ∀ name ∈ t.free?, defines.get? name = none) :
    t.valued defines = t.text := by
  cases t with
  | name text member =>
    cases member with
    | true => rfl
    | false => simp [valued, h (String.ofList text) rfl, Token.text]
  | other c => rfl

/-- The names of a script that could have values. -/
def freeNames (js : List Char) : List String := (tokens js).filterMap Token.free?

theorem flatMap_valued_of_not_free {ts : List Token}
    (h : ∀ name ∈ ts.filterMap Token.free?, defines.get? name = none) :
    ts.flatMap (Token.valued defines) = ts.flatMap Token.text := by
  refine List.flatMap_congr fun t ht => Token.valued_of_get?_none fun name hname => ?_
  exact h name (List.mem_filterMap.mpr ⟨t, ht, hname⟩)

/-- A script gets its values token by token. -/
theorem substituteDefines_eq (js : String) (defines : OrderedMap String Json) :
    (substituteDefines js defines).toList = (tokens js.toList).flatMap (Token.valued defines) := by
  unfold substituteDefines
  split
  · rename_i hempty
    have hnone : ∀ name, defines.get? name = none := by
      intro name
      simp [OrderedMap.get?, List.isEmpty_iff.mp hempty]
    rw [flatMap_valued_of_not_free fun name _ => hnone name, flatMap_tokens]
  · rw [String.toList_ofList, tokens, List.flatMap_assoc]
    simp only [Piece.flatMap_valued_tokens]

/-- **Where values are written.** A script is written token by token, and its pieces of code are taken apart
into names and single characters. A name is found in code only, it goes as far as it can, and it is no member
unless a point stands last in front of it in its own piece. -/
theorem substituteDefines_reads (js : String) (defines : OrderedMap String Json) :
    (substituteDefines js defines).toList = (tokens js.toList).flatMap (Token.valued defines) ∧
    (tokens js.toList).flatMap Token.text = js.toList ∧
    ∀ q ∈ Piece.cut js.toList, (q.kind = .code → Tokenizes [] q.text q.tokens) ∧
      ∀ front w member back, q.tokens = front ++ .name w member :: back →
        q.kind = .code ∧ Token.IsName w ∧
        (∀ t ∈ front.getLast?, ∃ d, t = .other d ∧ startsName d = false) ∧
        (∀ d ∈ (back.flatMap Token.text).head?, continuesName d = false) ∧
        member = behindPoint (front.flatMap Token.text).reverse := by
  refine ⟨substituteDefines_eq js defines, flatMap_tokens js.toList, fun q _ => ?_⟩
  have htokenizes : q.kind = .code → Tokenizes [] q.text q.tokens := by
    intro hq
    rw [Piece.tokens, if_pos hq]
    exact Place.tokenizes_fresh q.text
  refine ⟨htokenizes, fun front w member back hts => ?_⟩
  by_cases hq : q.kind = .code
  · have hread := htokenizes hq
    rw [hts] at hread
    have hname := hread.name_of_append
    rw [List.append_nil] at hname
    exact ⟨hq, hname⟩
  · rw [Piece.tokens, if_neg hq] at hts
    have hmem : Token.name w member ∈ q.text.map Token.other := by
      rw [hts]
      simp
    simp at hmem

/-- A script is kept as it is if none of its free names has a value. -/
theorem substituteDefines_of_not_free {js : String}
    (h : ∀ name ∈ freeNames js.toList, defines.get? name = none) : substituteDefines js defines = js := by
  rw [← String.toList_inj, substituteDefines_eq, flatMap_valued_of_not_free h, flatMap_tokens]

/-! ## Members over comments -/

/-- A single point stands last in front of a place, blanks apart. -/
def behindSinglePoint (before : List Char) : Bool :=
  match before.dropWhile isBlank with
  | '.' :: '.' :: _ => false
  | '.' :: _ => true
  | _ => false

/-- The code in front of a piece up to the last literal, newest first, where a comment is a blank. The pieces
are given newest first. -/
def codeBefore : List Piece → List Char
  | [] => []
  | ⟨.code, text⟩ :: qs => text.reverse ++ codeBefore qs
  | ⟨.comment, _⟩ :: qs => ' ' :: codeBefore qs
  | ⟨.literal, _⟩ :: _ => []

theorem codeBefore_head? {ps qs : List Piece} {q : Piece} (hq : q.kind = .code)
    (h : (ps ++ q :: qs).IsChain Piece.Apart) : ∀ c ∈ (codeBefore ps.reverse).head?, c = ' ' := by
  intro c hc
  cases hps : ps.reverse with
  | nil =>
    rw [hps] at hc
    cases hc
  | cons r rs =>
    obtain rfl := List.reverse_eq_iff.mp hps
    rw [hps] at hc
    obtain ⟨kind, text⟩ := r
    cases kind with
    | comment =>
      cases hc
      rfl
    | literal => cases hc
    | code =>
      have hapart : Piece.Apart ⟨.code, text⟩ q := by
        rw [List.reverse_cons, List.append_assoc] at h
        exact (List.isChain_append.mp h).2.1.rel
      rcases hapart with hne | hne
      · exact absurd rfl hne
      · exact absurd hq hne

/-- **Which names count as members.** A name counts as a member just where a single point stands last in front
of it, comments and blanks apart, with two exceptions: a comment stands between the point and the name, or
another point in front of the point. -/
theorem member_eq_behindSinglePoint_iff {js : List Char} {ps qs : List Piece} {q : Piece}
    (hcut : Piece.cut js = ps ++ q :: qs) (hq : q.kind = .code) {front back : List Token} {w : List Char}
    {member : Bool} (hts : q.tokens = front ++ .name w member :: back) :
    member = behindSinglePoint ((front.flatMap Token.text).reverse ++ codeBefore ps.reverse) ↔
      ¬((∀ c ∈ front.flatMap Token.text, isBlank c = true) ∧
        behindSinglePoint (codeBefore ps.reverse) = true) ∧
      ¬∃ rest, (front.flatMap Token.text).reverse.dropWhile isBlank = '.' :: '.' :: rest := by
  have hmember : member = behindPoint (front.flatMap Token.text).reverse := by
    rw [Piece.tokens, if_pos hq] at hts
    have hread := Place.tokenizes_fresh q.text
    rw [hts] at hread
    rw [hread.name_of_append.2.2.2, List.append_nil]
  have hspace := codeBefore_head? hq (hcut ▸ (Piece.cuts_cut js).isChain)
  generalize codeBefore ps.reverse = before at hspace
  rw [hmember]
  generalize front.flatMap Token.text = code
  by_cases hblank : ∀ c ∈ code, isBlank c = true
  · -- the piece starts with the name
    have hdrop : code.reverse.dropWhile isBlank = [] :=
      List.dropWhile_eq_nil_iff.mpr fun c hc => hblank c (List.mem_reverse.mp hc)
    have hsingle : behindSinglePoint (code.reverse ++ before) = behindSinglePoint before := by
      rw [behindSinglePoint, List.dropWhile_append_of_pos fun c hc => hblank c (List.mem_reverse.mp hc)]
      rfl
    rw [hsingle, behindPoint, hdrop]
    cases behindSinglePoint before with
    | false => simp
    | true => simpa using hblank
  · -- the last character in the piece decides, and a point that starts it has no other in front
    obtain ⟨d, rest, hdrop⟩ : ∃ d rest, code.reverse.dropWhile isBlank = d :: rest := by
      refine List.exists_cons_of_ne_nil fun hnil => hblank fun c hc => ?_
      exact List.dropWhile_eq_nil_iff.mp hnil c (List.mem_reverse.mpr hc)
    have hsingle : (code.reverse ++ before).dropWhile isBlank = d :: (rest ++ before) := by
      rw [List.dropWhile_append, hdrop]
      rfl
    unfold behindPoint behindSinglePoint
    rw [hdrop, hsingle]
    by_cases hd : d = '.'
    · subst hd
      cases rest with
      | nil =>
        cases before with
        | nil => simp [hblank]
        | cons c before =>
          obtain rfl := hspace c rfl
          simp [hblank]
      | cons e rest =>
        by_cases he : e = '.'
        · subst he
          simp
        · simp [hblank, he]
    · simp [hblank, hd]

example : substituteDefines "a(x.y, x./* of x */y, [...y])" ⟨[("y", .bool true)]⟩
    = "a(x.y, x./* of x */true, [...y])" := by
  decide +kernel

/-! ## Tokens in one pass -/

/-- The tokens of a text from a place on, where `ahead` is the character that follows it. -/
def tokensFrom (ahead : Option Char) : Situation → Place → List Char → List Token
  | _, p, [] => p.token
  | s, p, c :: cs =>
    let next := s.next c (cs.head?.or ahead)
    if s.covers c (cs.head?.or ahead) then p.token ++ .other c :: tokensFrom ahead next .fresh cs
    else (p.read c).1 ++ tokensFrom ahead next (p.read c).2 cs

theorem tokensFrom_of_covers (h : s.covers c (cs.head?.or ahead) = true) (p : Place) :
    tokensFrom ahead s p (c :: cs)
      = p.token ++ .other c :: tokensFrom ahead (s.next c (cs.head?.or ahead)) .fresh cs := if_pos h

theorem tokensFrom_of_not_covers (h : s.covers c (cs.head?.or ahead) = false) (p : Place) :
    tokensFrom ahead s p (c :: cs)
      = (p.read c).1 ++ tokensFrom ahead .code (p.read c).2 cs := by
  rw [tokensFrom, if_neg (by simp [h]), Situation.code_of_not_covers h]

theorem tokensFrom_fresh_of_covers (h : s.covers c (cs.head?.or ahead) = true) :
    tokensFrom ahead s .fresh (c :: cs)
      = .other c :: tokensFrom ahead (s.next c (cs.head?.or ahead)) .fresh cs := tokensFrom_of_covers h .fresh

/-- A comment up to the end of the line. -/
theorem tokensFrom_line : ∀ cs : List Char, tokensFrom none .line .fresh cs
    = (cs.takeWhile (· != '\n')).map .other ++ tokensFrom none .code .fresh (cs.dropWhile (· != '\n'))
  | [] => rfl
  | c :: cs => by
    by_cases hbreak : c = '\n'
    · rw [hbreak]
      have hline : Situation.line.covers '\n' (cs.head?.or none) = false := rfl
      have hcode : Situation.code.covers '\n' (cs.head?.or none) = false := Situation.covers_calm (by decide) _
      change tokensFrom none .line .fresh ('\n' :: cs) = tokensFrom none .code .fresh ('\n' :: cs)
      rw [tokensFrom_of_not_covers hline, tokensFrom_of_not_covers hcode]
    · have hother : (c != '\n') = true := by simp [hbreak]
      have hcovers : Situation.line.covers c (cs.head?.or none) = true := hother
      have hnext : ∀ a, Situation.line.next c a = .line := fun a => by simp [Situation.next, hbreak]
      rw [List.takeWhile_cons_of_pos (p := (· != '\n')) hother,
        List.dropWhile_cons_of_pos (p := (· != '\n')) hother, tokensFrom_fresh_of_covers hcovers, hnext,
        tokensFrom_line cs]
      rfl

/-- A comment between marks, behind the mark that opens it. -/
theorem tokensFrom_block : ∀ cs : List Char, tokensFrom none (.block 0) .fresh cs
    = (Piece.takeComment cs).1.map .other ++ tokensFrom none .code .fresh (Piece.takeComment cs).2
  | [] => rfl
  | c :: cs => by
    rw [tokensFrom_fresh_of_covers rfl, Option.or_none]
    by_cases hmark : c = '*' ∧ cs.head? = some '/'
    · obtain ⟨rfl, hslash⟩ := hmark
      obtain ⟨behind, rfl⟩ := List.head?_eq_some_iff.mp hslash
      rfl
    · have hnext : (Situation.block 0).next c cs.head? = .block 0 := if_neg (by simpa using hmark)
      rw [Piece.takeComment_cons hmark, hnext, tokensFrom_block cs]
      rfl

/-- A quoted literal, behind its opening quote. -/
theorem tokensFrom_literal (quote : Char) : ∀ (escaped : Bool) (cs : List Char),
    tokensFrom none (.quoted quote escaped) .fresh cs = (Piece.takeLiteral quote escaped cs).1.map .other
      ++ tokensFrom none .code .fresh (Piece.takeLiteral quote escaped cs).2
  | _, [] => rfl
  | true, c :: cs => by
    rw [tokensFrom_fresh_of_covers rfl, Piece.takeLiteral_escaped]
    exact congrArg (Token.other c :: ·) (tokensFrom_literal quote false cs)
  | false, c :: cs => by
    rw [tokensFrom_fresh_of_covers rfl]
    cases hend : Piece.ends quote c with
    | true =>
      have hnext : ∀ a, (Situation.quoted quote false).next c a = .code := fun _ => if_pos hend
      rw [hnext, Piece.takeLiteral_end hend]
      rfl
    | false =>
      have hnext : ∀ a, (Situation.quoted quote false).next c a = .quoted quote (c == '\\') :=
        fun _ => if_neg (ne_true_of_eq_false hend)
      rw [hnext, Piece.takeLiteral_cons hend, tokensFrom_literal quote _ cs]
      rfl

/-- A literal or comment has no names, and what follows it starts afresh. -/
theorem tokensFrom_special {q : Piece} {rest : List Char} (h : Piece.special? cs = some (q, rest)) (p : Place) :
    tokensFrom none .code p cs = p.token ++ q.tokens ++ tokensFrom none .code .fresh rest := by
  have hstarts := Piece.starts_special? cs
  rw [h] at hstarts
  rw [Piece.tokens, if_neg (Piece.special?_append h).2.2, List.append_assoc]
  cases hstarts with
  | line inside =>
    rw [tokensFrom_of_covers rfl]
    change _ ++ .other '/' :: tokensFrom none .line .fresh ('/' :: inside) = _
    rw [tokensFrom_fresh_of_covers rfl]
    change _ ++ .other '/' :: .other '/' :: tokensFrom none .line .fresh inside = _
    rw [tokensFrom_line]
    rfl
  | block inside =>
    rw [tokensFrom_of_covers rfl]
    change _ ++ .other '/' :: tokensFrom none (.block 1) .fresh ('*' :: inside) = _
    rw [tokensFrom_fresh_of_covers rfl]
    change _ ++ .other '/' :: .other '*' :: tokensFrom none (.block 0) .fresh inside = _
    rw [tokensFrom_block]
    rfl
  | @literal quote hquote inside =>
    have hnext : ∀ a, Situation.code.next quote a = .quoted quote false := by
      rcases eq_of_isQuote hquote with rfl | rfl | rfl <;> exact fun _ => rfl
    rw [tokensFrom_of_covers (by simp [Situation.covers, hnext]), hnext, tokensFrom_literal]
    rfl

/-- The tokens of the pieces behind a part of the code that was gathered are read from the place behind it. -/
theorem Piece.Cuts.tokens_eq {code : List Char} {ps : List Piece} (h : Piece.Cuts code cs ps) :
    ∀ {done : List Token} {p : Place},
      (∀ more, Place.fresh.tokens (code.reverse ++ more) = done ++ p.tokens more) →
      ps.flatMap Piece.tokens = done ++ tokensFrom none .code p cs := by
  -- where the code ends, the name at hand is its last token
  have hcode : ∀ {code : List Char} {done : List Token} {p : Place},
      (∀ more, Place.fresh.tokens (code.reverse ++ more) = done ++ p.tokens more) →
      (ofCode code).flatMap Piece.tokens = done ++ p.token := by
    intro code done p hread
    have hend := hread []
    rw [List.append_nil] at hend
    refine Eq.trans ?_ hend
    unfold ofCode
    split
    · rename_i hnil
      rw [List.isEmpty_iff.mp hnil]
      rfl
    · exact (List.append_nil _).trans (if_pos rfl)
  induction h with
  | done code => exact fun hread => hcode hread
  | special hfound _ ih =>
    intro done p hread
    have hrest := ih (fun more => (List.nil_append (Place.fresh.tokens more)).symm)
    rw [List.flatMap_append, hcode hread, List.flatMap_cons, hrest, tokensFrom_special hfound]
    simp only [List.append_assoc, List.nil_append]
  | @char code cs c ps hnone _ ih =>
    intro done p hread
    have hcovers : Situation.code.covers c (cs.head?.or none) = false := by
      rw [Option.or_none]
      simp [Situation.covers, special?_eq_none_iff.mp hnone]
    rw [tokensFrom_of_not_covers hcovers, ← List.append_assoc]
    refine ih fun more => ?_
    rw [List.reverse_cons, List.append_assoc, hread]
    exact (List.append_assoc done (p.read c).1 _).symm

/-- The tokens of a script are read in one pass. -/
theorem tokens_eq_tokensFrom (js : List Char) : tokens js = tokensFrom none .code .fresh js :=
  (Piece.cuts_cut js).tokens_eq fun more => (List.nil_append (Place.fresh.tokens more)).symm

/-! ## Quoted texts -/

/-- The spelling of a text between double quotes is the inside of a literal. -/
theorem closes_of_spells {spelling value : List Char} (h : Spells '"' spelling value) :
    Piece.Closes '"' (spelling ++ ['"']) := by
  induction h with
  | nil => exact .quote
  | @cons spelling rest value c hc _ ih =>
    rw [List.append_assoc]
    cases hc with
    | plain hquote hbackslash hline => exact .plain (by simp [Piece.ends, hquote, hline]) hbackslash ih
    | letter hd _ => exact .escaped _ ih
    | @code digits _ hdigits =>
      -- behind the letter stand digits, and neither a quote nor a line break is one
      refine .escaped 'u' ?_
      have hhex : ∀ d ∈ digits, (hexDigit? d).isSome := isSome_of_coded? hdigits
      clear hdigits
      induction digits with
      | nil => exact ih
      | cons d digits ihdigits =>
        have hd := hhex d List.mem_cons_self
        have hquote : d ≠ '"' := ne_of_hexDigit? hd rfl
        have hline : d ≠ '\n' := ne_of_hexDigit? hd rfl
        exact .plain (by simp [Piece.ends, hquote, hline]) (ne_of_hexDigit? hd rfl)
          (ihdigits fun e he => hhex e (List.mem_cons_of_mem d he))

theorem special?_quote (s : String) (rest : List Char) :
    Piece.special? ((Json.quote s).toList ++ rest) = some (⟨.literal, (Json.quote s).toList⟩, rest) := by
  have hquoted : (Json.quote s).toList = '"' :: (s.toList.flatMap Json.escapeChar ++ ['"']) :=
    String.toList_ofList
  rw [hquoted]
  exact Piece.special?_literal rfl (closes_of_spells (spells_flatMap_escapeChar s.toList)) rest

/-! ## Tokens of lines -/

theorem behindPoint_cons_of_blank (h : isBlank c = true) (before : List Char) :
    behindPoint (c :: before) = behindPoint before := by simp [behindPoint, h]

theorem behindPoint_cons_of_not_blank (h : isBlank c = false) (before : List Char) :
    behindPoint (c :: before) = (c == '.') := by simp [behindPoint, h]

theorem behindPoint_append (as bs : List Char) :
    behindPoint (as ++ bs) = (behindPoint as || as.all isBlank && behindPoint bs) := by
  induction as with
  | nil => rfl
  | cons a as ih =>
    cases ha : isBlank a with
    | true =>
      rw [List.cons_append, behindPoint_cons_of_blank ha, behindPoint_cons_of_blank ha, ih, List.all_cons, ha,
        Bool.true_and]
    | false =>
      rw [List.cons_append, behindPoint_cons_of_not_blank ha, behindPoint_cons_of_not_blank ha, List.all_cons,
        ha, Bool.false_and, Bool.false_and, Bool.or_false]

/-- Of the code in front of a place only matters whether a point stands last in it. -/
structure Place.Alike (p q : Place) : Prop where
  name : p.name = q.name
  point : behindPoint p.before = behindPoint q.before

theorem Place.Alike.token (h : p.Alike q) : p.token = q.token := by
  unfold Place.token
  rw [h.name, h.point]

theorem Place.Alike.read (h : p.Alike q) (c : Char) :
    (p.read c).1 = (q.read c).1 ∧ (p.read c).2.Alike (q.read c).2 := by
  have hbehind : ∀ front, behindPoint (front ++ p.before) = behindPoint (front ++ q.before) := by
    intro front
    rw [behindPoint_append, behindPoint_append, h.point]
  unfold Place.read
  rw [h.name, h.token]
  split
  · exact ⟨rfl, rfl, h.point⟩
  · split
    · exact ⟨rfl, rfl, hbehind q.name⟩
    · exact ⟨rfl, rfl, hbehind (c :: q.name)⟩

theorem Place.Alike.tokensFrom_eq (h : p.Alike q) (cs : List Char) :
    tokensFrom ahead s p cs = tokensFrom ahead s q cs := by
  induction cs generalizing s p q with
  | nil => exact h.token
  | cons c cs ih =>
    cases hcovers : s.covers c (cs.head?.or ahead) with
    | true => rw [tokensFrom_of_covers hcovers, tokensFrom_of_covers hcovers, h.token]
    | false =>
      obtain ⟨hdone, hplace⟩ := h.read c
      rw [tokensFrom_of_not_covers hcovers, tokensFrom_of_not_covers hcovers, hdone, ih hplace]

/-- A place between names, where a point that stands in front does not matter for what follows. -/
theorem tokensFrom_fresh {before : List Char}
    (h : behindPoint before = true → ∀ c ∈ cs.head?, isBlank c = false ∧ startsName c = false) :
    tokensFrom ahead s ⟨before, []⟩ cs = tokensFrom ahead s .fresh cs := by
  cases hpoint : behindPoint before with
  | false =>
    have halike : Place.Alike ⟨before, []⟩ .fresh := ⟨rfl, hpoint⟩
    exact halike.tokensFrom_eq cs
  | true =>
    cases cs with
    | nil => rfl
    | cons c cs =>
      obtain ⟨hblank, hc⟩ := h hpoint c rfl
      cases hcovers : s.covers c (cs.head?.or ahead) with
      | true => rw [tokensFrom_of_covers hcovers, tokensFrom_of_covers hcovers]; rfl
      | false =>
        have hread : ∀ before, (⟨before, []⟩ : Place).read c = ([.other c], ⟨c :: before, []⟩) := by
          intro before
          simp [Place.read, Place.token, hc]
        have halike : Place.Alike ⟨c :: before, []⟩ ⟨[c], []⟩ :=
          ⟨rfl, by rw [behindPoint_cons_of_not_blank hblank, behindPoint_cons_of_not_blank hblank]⟩
        rw [tokensFrom_of_not_covers hcovers, tokensFrom_of_not_covers hcovers, Place.fresh, hread, hread,
          halike.tokensFrom_eq]

/-- Behind a text that ends with no name the rest has its own tokens. -/
theorem tokensFrom_append (s : Situation) (p : Place) (ahead : Option Char)
    (hlast : ∀ c ∈ as.getLast?, continuesName c = false) (hname : as = [] → p.name = []) (bs : List Char) :
    ∃ before, (behindPoint before = true → behindPoint (as.reverse ++ (p.name ++ p.before))) ∧
      tokensFrom ahead s p (as ++ bs) = tokensFrom (bs.head?.or ahead) s p as
        ++ tokensFrom ahead (s.after (bs.head?.or ahead) as) ⟨before, []⟩ bs := by
  induction as generalizing s p with
  | nil =>
    obtain ⟨before, name⟩ := p
    obtain rfl : name = [] := hname rfl
    exact ⟨before, id, rfl⟩
  | cons a as ih =>
    have hrest : ∀ c ∈ as.getLast?, continuesName c = false :=
      fun c hc => hlast c (List.mem_getLast?_cons hc)
    have hahead : (as ++ bs).head?.or ahead = as.head?.or (bs.head?.or ahead) := by
      rw [List.head?_append, Option.or_assoc]
    have hreverse : (a :: as).reverse ++ (p.name ++ p.before) = as.reverse ++ (a :: (p.name ++ p.before)) := by
      simp
    rw [List.cons_append, Situation.after_cons, hreverse]
    cases hcovers : s.covers a (as.head?.or (bs.head?.or ahead)) with
    | true =>
      -- in a literal or comment no point in front counts any more
      obtain ⟨before, hpoint, heq⟩ :=
        ih (s.next a (as.head?.or (bs.head?.or ahead))) .fresh hrest (fun _ => rfl)
      refine ⟨before, fun h => ?_, ?_⟩
      · have hfront := hpoint h
        rw [Place.fresh, List.append_nil, List.append_nil] at hfront
        rw [behindPoint_append, hfront, Bool.true_or]
      · rw [tokensFrom_of_covers (hahead ▸ hcovers), tokensFrom_of_covers hcovers, hahead, heq, List.append_assoc]
        rfl
    | false =>
      -- a character of code goes on a name or ends one, and stands in front of what follows
      have hread : as = [] → (p.read a).2.name = [] := by
        rintro rfl
        rcases p.read_cases a with ⟨-, hgo, -⟩ | ⟨-, hstart, -⟩ | ⟨-, -, hread⟩
        · rw [hlast a rfl] at hgo
          cases hgo
        · have hgo := continuesName_of_startsName hstart
          rw [hlast a rfl] at hgo
          cases hgo
        · rw [hread]
      have hkept : (p.read a).2.name ++ (p.read a).2.before = a :: (p.name ++ p.before) := by
        rcases p.read_cases a with ⟨-, -, hread⟩ | ⟨hnil, -, hread⟩ | ⟨-, -, hread⟩
        · rw [hread]; rfl
        · rw [hread, hnil]; rfl
        · rw [hread]; rfl
      obtain ⟨before, hpoint, heq⟩ := ih .code (p.read a).2 hrest hread
      rw [hkept] at hpoint
      refine ⟨before, hpoint, ?_⟩
      rw [tokensFrom_of_not_covers (hahead ▸ hcovers), tokensFrom_of_not_covers hcovers,
        Situation.code_of_not_covers hcovers, heq, List.append_assoc]

/-- What follows a line break does not matter for how it is read. -/
theorem Situation.next_break (s : Situation) (ahead : Option Char) : s.next '\n' ahead = s.next '\n' none := by
  cases s with
  | block skip => cases skip <;> rfl
  | quoted quote escaped => cases escaped <;> rfl
  | _ => rfl

theorem Situation.covers_break (s : Situation) (ahead : Option Char) :
    s.covers '\n' ahead = s.covers '\n' none := by
  cases s <;> rfl

/-- Lines: the last character of the text is a line break. -/
def IsLines (as : List Char) : Prop := as.getLast? = some '\n'

theorem IsLines.of_cons {a : Char} (h : IsLines (a :: as)) : as = [] ∧ a = '\n' ∨ IsLines as := by
  by_cases hnil : as = []
  · subst hnil
    exact .inl ⟨rfl, Option.some.inj h⟩
  · rw [IsLines, List.getLast?_cons_of_ne_nil hnil] at h
    exact .inr h

theorem IsLines.after_eq (h : IsLines as) (ahead : Option Char) : s.after ahead as = s.after none as := by
  induction as generalizing s with
  | nil => rfl
  | cons a as ih =>
    rw [Situation.after_cons, Situation.after_cons]
    rcases h.of_cons with ⟨rfl, rfl⟩ | hrest
    · rw [Situation.next_break, Situation.next_break s (Option.or _ none)]
      rfl
    · obtain ⟨b, bs, rfl⟩ := List.exists_cons_of_ne_nil (l := as) (by rintro rfl; cases hrest)
      exact ih hrest

theorem IsLines.tokensFrom_eq (h : IsLines as) (ahead : Option Char) :
    tokensFrom ahead s p as = tokensFrom none s p as := by
  induction as generalizing s p with
  | nil => rfl
  | cons a as ih =>
    rcases h.of_cons with ⟨rfl, rfl⟩ | hrest
    · unfold tokensFrom
      rw [Situation.covers_break, Situation.covers_break s (Option.or _ none)]
      rfl
    · obtain ⟨b, bs, rfl⟩ := List.exists_cons_of_ne_nil (l := as) (by rintro rfl; cases hrest)
      unfold tokensFrom
      simp only [ih hrest]
      rfl

/-- **Lines have their own tokens.** If lines lead from code to code, and what comes behind them starts with
neither a blank nor a name where a point stands last in them, the tokens of both are those of each. -/
theorem tokens_append (hlines : IsLines as) (hcode : Situation.code.after none as = .code)
    (hpoint : behindPoint as.reverse = true → ∀ c ∈ bs.head?, isBlank c = false ∧ startsName c = false) :
    tokens (as ++ bs) = tokens as ++ tokens bs := by
  have hlast : ∀ c ∈ as.getLast?, continuesName c = false := by
    intro c hc
    rw [hlines] at hc
    cases hc
    decide
  obtain ⟨before, hbefore, heq⟩ := tokensFrom_append .code .fresh none hlast (fun _ => rfl) bs
  rw [Place.fresh, List.append_nil, List.append_nil] at hbefore
  rw [tokens_eq_tokensFrom, tokens_eq_tokensFrom, tokens_eq_tokensFrom, heq, hlines.tokensFrom_eq,
    hlines.after_eq, hcode, tokensFrom_fresh fun h => hpoint (hbefore h)]

end Bundler.Script

/-
Where the nodes of a script stand.

A pattern that matches leaves the rest of the text behind what it matched, and a node is placed by the
rests before and behind it. So the offsets of a node are those of places between two characters, and no
cut of the text at such a place fails. That is why reading a script always comes to a result, whatever the
text is (`Script.read_ok`): each node is a part of the text, and each statement that imports or exports has
its node. What a call was read from is kept in `Script.CallRead`.
-/
import Bundler.Script.Reader
import Bundler.Proofs.Names
import Bundler.Proofs.Step
import Bundler.Proofs.Trimming

set_option autoImplicit false

namespace Bundler

open Text Step

/-! ## Cuts between characters -/

theorem Fault.ofCut_ok {α : Type} {cut : Option α} {a : α} (h : ofCut cut = .ok a) : cut = some a := by
  cases cut with
  | none => cases h
  | some b =>
    cases h
    rfl

/-- The line and the column behind the beginning of a text are told by that beginning. -/
theorem Span.position_size (before rest : List Char) :
    position (before ++ rest) (size before) = .ok (positionAfter before) := by
  unfold position
  rw [Nat.min_eq_left (by rw [size_append]; exact Nat.le_add_right _ _), takeBytes?_size]
  rfl

/-- A span has its offsets, and the line and the column of each. -/
theorem Span.ofOffsets_ok_iff {text : List Char} {start stop : Nat} {s : Span} :
    ofOffsets text start stop = .ok s ↔ (s.start = start ∧ s.stop = stop) ∧
      position text start = .ok (s.line, s.column) ∧
      position text stop = .ok (s.endLine, s.endColumn) := by
  unfold ofOffsets
  constructor
  · intro h
    obtain ⟨p, hp, h⟩ := (except_bind_ok_iff _ _ _).mp h
    obtain ⟨p', hp', h⟩ := (except_bind_ok_iff _ _ _).mp h
    cases h
    exact ⟨⟨rfl, rfl⟩, hp, hp'⟩
  · rintro ⟨⟨rfl, rfl⟩, hp, hp'⟩
    rw [hp, hp']
    rfl

/-- What is left of a text from an offset on. -/
def Text.Stands (text : List Char) (pos : Nat) (rest : List Char) : Prop :=
  ∃ before, text = before ++ rest ∧ pos = size before

namespace Text.Stands

variable {text rest rest' : List Char} {pos pos' : Nat}

theorem of_suffix (h : rest <:+ text) : Stands text (size text - size rest) rest := by
  obtain ⟨before, rfl⟩ := h
  exact ⟨before, rfl, by rw [size_append]; omega⟩

theorem start (text : List Char) : Stands text 0 text := ⟨[], rfl, rfl⟩

theorem append (part : List Char) (h : Stands text pos (part ++ rest)) :
    Stands text (pos + size part) rest := by
  obtain ⟨before, rfl, rfl⟩ := h
  exact ⟨before ++ part, (List.append_assoc ..).symm, (size_append ..).symm⟩

theorem le (h : Stands text pos rest) : pos ≤ size text := by
  obtain ⟨before, rfl, rfl⟩ := h
  rw [size_append]
  exact Nat.le_add_right _ _

theorem eq_sub (h : Stands text pos rest) : pos = size text - size rest := by
  obtain ⟨before, rfl, rfl⟩ := h
  rw [size_append]
  omega

theorem dropBytes? (h : Stands text pos rest) : Text.dropBytes? pos text = some rest := by
  obtain ⟨before, rfl, rfl⟩ := h
  exact dropBytes?_size before rest

theorem slice? {part : List Char} (h : Stands text pos (part ++ rest)) :
    Text.slice? text pos (pos + size part) = some part := by
  unfold Text.slice?
  rw [if_pos (Nat.le_add_right _ _), h.dropBytes?, Option.bind_some, Nat.add_sub_cancel_left]
  exact takeBytes?_size part rest

/-- A place between two characters has a line and a column. -/
theorem position (h : Stands text pos rest) : ∃ p, Span.position text pos = .ok p := by
  obtain ⟨before, rfl, rfl⟩ := h
  exact ⟨_, Span.position_size before rest⟩

theorem eq_of (h : Stands text pos rest) (h' : Stands text pos rest') : rest = rest' :=
  Option.some.inj (h.dropBytes?.symm.trans h'.dropBytes?)

/-- Of two places the later one is behind a part of the text. -/
theorem exists_part (h : Stands text pos rest) (h' : Stands text pos' rest') (hle : pos ≤ pos') :
    ∃ part, rest = part ++ rest' ∧ pos' = pos + size part := by
  obtain ⟨before, rfl, rfl⟩ := h
  obtain ⟨before', heq, rfl⟩ := h'
  rcases List.append_eq_append_iff.mp heq with ⟨part, rfl, hrest⟩ | ⟨part, rfl, hrest⟩
  · exact ⟨part, hrest, size_append ..⟩
  · -- the part would be in front of the later place, so it is empty
    rw [size_append] at hle
    obtain rfl : part = [] := by
      cases part with
      | nil => rfl
      | cons c part =>
        have hpos := c.utf8Size_pos
        rw [size] at hle
        omega
    exact ⟨[], hrest.symm, by rw [List.append_nil]; rfl⟩

/-- Between two places there is a span. -/
theorem ofOffsets (h : Stands text pos rest) (h' : Stands text pos' rest') :
    ∃ span, Span.ofOffsets text pos pos' = .ok span ∧ span.start = pos ∧ span.stop = pos' := by
  obtain ⟨p, hp⟩ := h.position
  obtain ⟨p', hp'⟩ := h'.position
  exact ⟨⟨pos, pos', p.1, p.2, p'.1, p'.2⟩, Span.ofOffsets_ok_iff.mpr ⟨⟨rfl, rfl⟩, hp, hp'⟩, rfl, rfl⟩

end Text.Stands

/-- A span of a text begins and ends between two characters, and it is not empty. -/
structure Span.Fits (text : List Char) (s : Span) : Prop where
  start : ∃ rest, Stands text s.start rest
  stop : ∃ rest, Stands text s.stop rest
  lt : s.start < s.stop

theorem Span.perm_insertInOrder {α : Type} (place : α → Nat) (a : α) :
    ∀ bs : List α, (Span.insertInOrder place a bs).Perm (a :: bs)
  | [] => .refl _
  | b :: bs => by
    unfold Span.insertInOrder
    split
    · exact .refl _
    · exact ((perm_insertInOrder place a bs).cons b).trans (.swap a b bs)

/-- Putting a list in order changes nothing but the order. -/
theorem Span.perm_inOrder {α : Type} (place : α → Nat) :
    ∀ as : List α, (Span.inOrder place as).Perm as
  | [] => .refl _
  | a :: as => (perm_insertInOrder place a _).trans ((perm_inOrder place as).cons a)

/-- A part of a text has a span. -/
theorem Text.Stands.span {text here behind : List Char} {pos : Nat} (h : Stands text pos here)
    (hbehind : behind <:+ here) (hlt : size behind < size here) :
    ∃ span, Span.ofOffsets text pos (size text - size behind) = .ok span ∧ span.start = pos ∧
      span.Fits text := by
  have hwhole : behind <:+ text := by
    obtain ⟨before, rfl, -⟩ := h
    exact hbehind.trans (List.suffix_append before here)
  have hstop := Stands.of_suffix hwhole
  obtain ⟨span, hspan, hs, ht⟩ := h.ofOffsets hstop
  have heq := h.eq_sub
  have hle : size here ≤ size text := by
    obtain ⟨before, rfl, -⟩ := h
    rw [size_append]
    exact Nat.le_add_left _ _
  exact ⟨span, hspan, hs, ⟨_, hs ▸ h⟩, ⟨_, ht ▸ hstop⟩, by omega⟩

namespace Script

/-! ## What patterns leave -/

namespace Pattern

variable {cs rest : List Char}

theorem token_eq {text : String} (h : token text cs = some rest) : cs = text.toList ++ rest := by
  unfold token at h
  split at h
  · rename_i hprefix
    obtain ⟨behind, rfl⟩ := List.isPrefixOf_iff_prefix.mp hprefix
    rw [← Option.some.inj h, ← String.length_toList, List.drop_left]
  · cases h

theorem token_suffix {text : String} (h : token text cs = some rest) : rest <:+ cs :=
  ⟨text.toList, (token_eq h).symm⟩

theorem spaces_suffix (cs : List Char) : spaces cs <:+ cs := List.dropWhile_suffix _

theorem indent_suffix (cs : List Char) : indent cs <:+ cs := List.dropWhile_suffix _

theorem space?_suffix (h : space? cs = some rest) : rest <:+ cs := by
  cases cs with
  | nil => cases h
  | cons c cs =>
    simp only [space?, Option.ite_none_right_eq_some, Option.some.injEq] at h
    rw [← h.2]
    exact (spaces_suffix cs).trans (List.suffix_cons c cs)

theorem name?_suffix {name : String} (h : name? cs = some (name, rest)) : rest <:+ cs := by
  cases cs with
  | nil => cases h
  | cons c cs =>
    simp only [name?, Option.ite_none_right_eq_some, Option.some.injEq, Prod.mk.injEq] at h
    rw [← h.2.2]
    exact (List.dropWhile_suffix _).trans (List.suffix_cons c cs)

theorem quoted?_suffix {text : String} (h : quoted? cs = some (text, rest)) : rest <:+ cs := by
  cases cs with
  | nil => cases h
  | cons c cs =>
    unfold quoted? at h
    simp only at h
    split at h
    · split at h
      · rename_i d behind heq
        split at h
        · cases h
        · cases h
          have hdrop := List.dropWhile_suffix (l := cs) fun c => !(c == '"' || c == '\'')
          rw [heq] at hdrop
          exact ((List.suffix_cons d _).trans hdrop).trans (List.suffix_cons c cs)
      · cases h
    · cases h

theorem terminator_suffix (cs : List Char) : terminator cs <:+ cs := by
  unfold terminator
  split
  · rename_i heq
    have hindent := indent_suffix cs
    rw [heq] at hindent
    exact (List.suffix_cons _ _).trans hindent
  · exact indent_suffix cs

theorem binding?_suffix {b : Binding} (h : binding? cs = some (b, rest)) : rest <:+ cs := by
  unfold binding? at h
  split at h
  · obtain ⟨r₁, h₁, h⟩ := Option.bind_eq_some_iff.mp h
    obtain ⟨r₂, h₂, h⟩ := Option.bind_eq_some_iff.mp h
    obtain ⟨r₃, h₃, h⟩ := Option.bind_eq_some_iff.mp h
    obtain ⟨⟨name, r₄⟩, h₄, h⟩ := Option.bind_eq_some_iff.mp h
    cases h
    exact (((name?_suffix h₄).trans (space?_suffix h₃)).trans (token_suffix h₂)).trans
      ((space?_suffix h₁).trans (List.suffix_cons _ _))
  · rename_i inside
    simp only at h
    split at h
    · rename_i d behind heq
      cases h
      have hdrop := List.dropWhile_suffix (l := inside) (· != '\x7d')
      rw [heq] at hdrop
      exact ((List.suffix_cons d _).trans hdrop).trans (List.suffix_cons _ _)
    · cases h
  · obtain ⟨⟨name, r⟩, hname, heq⟩ := Option.map_eq_some_iff.mp h
    cases heq
    exact name?_suffix hname

/-- What is left of a text stands behind a fixed text at its start. -/
def Behind (text : String) (cs rest : List Char) : Prop := ∃ r, token text cs = some r ∧ rest <:+ r

theorem Behind.suffix {text : String} (h : Behind text cs rest) : rest <:+ cs := by
  obtain ⟨r, hr, hrest⟩ := h
  exact hrest.trans (token_suffix hr)

theorem Behind.size_lt {text : String} (h : Behind text cs rest) (hpos : 0 < size text.toList) :
    size rest < size cs := by
  obtain ⟨r, hr, before, rfl⟩ := h
  rw [token_eq hr, size_append, size_append]
  omega

/-- What an import with names consists of, up to its names. -/
theorem importFrom?_parts {v : Binding × String} (h : importFrom? cs = some (v, rest)) :
    ∃ r₁ r₂ r₃, token "import" cs = some r₁ ∧ space? r₁ = some r₂ ∧ binding? r₂ = some (v.1, r₃) ∧
      rest <:+ r₃ := by
  unfold importFrom? at h
  obtain ⟨r₁, h₁, h⟩ := Option.bind_eq_some_iff.mp h
  obtain ⟨r₂, h₂, h⟩ := Option.bind_eq_some_iff.mp h
  obtain ⟨⟨b, r₃⟩, h₃, h⟩ := Option.bind_eq_some_iff.mp h
  obtain ⟨r₄, h₄, h⟩ := Option.bind_eq_some_iff.mp h
  obtain ⟨r₅, h₅, h⟩ := Option.bind_eq_some_iff.mp h
  obtain ⟨r₆, h₆, h⟩ := Option.bind_eq_some_iff.mp h
  obtain ⟨⟨specifier, r₇⟩, h₇, h⟩ := Option.bind_eq_some_iff.mp h
  cases h
  have hquoted := (quoted?_suffix h₇).trans (space?_suffix h₆)
  have hfrom := (token_suffix h₅).trans (space?_suffix h₄)
  exact ⟨r₁, r₂, r₃, h₁, h₂, h₃, (terminator_suffix r₇).trans (hquoted.trans hfrom)⟩

theorem importFrom?_behind {v : Binding × String} (h : importFrom? cs = some (v, rest)) :
    Behind "import" cs rest := by
  obtain ⟨r₁, r₂, r₃, h₁, h₂, h₃, hrest⟩ := importFrom?_parts h
  exact ⟨r₁, h₁, hrest.trans ((binding?_suffix h₃).trans (space?_suffix h₂))⟩

/-- What an import without names consists of. -/
theorem importBare?_parts {v : Binding × String} (h : importBare? cs = some (v, rest)) :
    ∃ r₁ r₂ r₃, token "import" cs = some r₁ ∧ space? r₁ = some r₂ ∧ quoted? r₂ = some (v.2, r₃) ∧
      v.1 = .bare ∧ rest <:+ r₃ := by
  unfold importBare? at h
  obtain ⟨r₁, h₁, h⟩ := Option.bind_eq_some_iff.mp h
  obtain ⟨r₂, h₂, h⟩ := Option.bind_eq_some_iff.mp h
  obtain ⟨⟨specifier, r₃⟩, h₃, h⟩ := Option.bind_eq_some_iff.mp h
  cases h
  exact ⟨r₁, r₂, r₃, h₁, h₂, h₃, rfl, terminator_suffix r₃⟩

theorem importBare?_behind {v : Binding × String} (h : importBare? cs = some (v, rest)) :
    Behind "import" cs rest := by
  obtain ⟨r₁, r₂, r₃, h₁, h₂, h₃, -, hrest⟩ := importBare?_parts h
  exact ⟨r₁, h₁, hrest.trans ((quoted?_suffix h₃).trans (space?_suffix h₂))⟩

theorem exportKeyword?_behind {word : String} (h : exportKeyword? word cs = some rest) :
    Behind "export" cs rest := by
  unfold exportKeyword? at h
  obtain ⟨r₁, h₁, h⟩ := Option.bind_eq_some_iff.mp h
  obtain ⟨r₂, h₂, h⟩ := Option.bind_eq_some_iff.mp h
  exact ⟨r₁, h₁, (token_suffix h).trans (space?_suffix h₂)⟩

/-- What is left behind the keyword and behind the whole. -/
theorem exportConst?_behind {v : List Char × String} (h : exportConst? cs = some (v, rest)) :
    Behind "export" cs v.1 ∧ rest <:+ v.1 := by
  unfold exportConst? at h
  obtain ⟨r₁, h₁, h⟩ := Option.bind_eq_some_iff.mp h
  obtain ⟨r₂, h₂, h⟩ := Option.bind_eq_some_iff.mp h
  obtain ⟨⟨name', r₃⟩, h₃, h⟩ := Option.bind_eq_some_iff.mp h
  obtain ⟨r₄, h₄, h⟩ := Option.bind_eq_some_iff.mp h
  cases h
  have hname := (name?_suffix h₃).trans (space?_suffix h₂)
  have hequals := (token_suffix h₄).trans (spaces_suffix r₃)
  exact ⟨exportKeyword?_behind h₁, (indent_suffix r₄).trans (hequals.trans hname)⟩

theorem exportFunction?_behind {v : List Char × String} (h : exportFunction? cs = some (v, rest)) :
    Behind "export" cs v.1 ∧ rest <:+ v.1 := by
  unfold exportFunction? at h
  obtain ⟨r₁, h₁, h⟩ := Option.bind_eq_some_iff.mp h
  obtain ⟨r₂, h₂, h⟩ := Option.bind_eq_some_iff.mp h
  obtain ⟨⟨name', r₃⟩, h₃, h⟩ := Option.bind_eq_some_iff.mp h
  cases h
  exact ⟨exportKeyword?_behind h₁, (name?_suffix h₃).trans (space?_suffix h₂)⟩

/-- What leads to a call ends before an opening parenthesis. -/
theorem callee?_suffix {names : List String} {name : String}
    (h : callee? names cs = some (name, rest)) : rest <:+ cs ∧ ∃ inside, rest = '(' :: inside := by
  obtain ⟨text, -, h⟩ := List.exists_of_findSome?_eq_some h
  split at h
  · rename_i behind hbehind
    split at h
    · rename_i inside hspaces
      cases h
      have hopening := spaces_suffix behind
      rw [hspaces] at hopening
      exact ⟨hopening.trans (token_suffix hbehind), inside, rfl⟩
    · cases h
  · cases h

theorem call?_suffix {v : Option String × String} (h : call? cs = some (v, rest)) :
    rest <:+ cs ∧ ∃ inside, rest = '(' :: inside := by
  unfold call? at h
  split at h
  · rename_i behind hbehind
    obtain ⟨⟨name, r⟩, hname, heq⟩ := Option.map_eq_some_iff.mp h
    cases heq
    obtain ⟨hsuffix, hopening⟩ := callee?_suffix hname
    exact ⟨hsuffix.trans (token_suffix hbehind), hopening⟩
  · obtain ⟨⟨name, r⟩, hname, heq⟩ := Option.map_eq_some_iff.mp h
    cases heq
    exact callee?_suffix hname

end Pattern

/-! ## Matches -/

theorem suffix_of_mem_behindBreaks {line : List Char} :
    ∀ {text : List Char}, line ∈ behindBreaks text → line <:+ text
  | [], h => by cases h
  | c :: text, h => by
    unfold behindBreaks at h
    split at h
    · rcases List.mem_cons.mp h with rfl | h
      · exact List.suffix_cons c _
      · exact (suffix_of_mem_behindBreaks h).trans (List.suffix_cons c text)
    · exact (suffix_of_mem_behindBreaks h).trans (List.suffix_cons c text)

theorem suffix_of_mem_lineStarts {text line : List Char} (h : line ∈ lineStarts text) :
    line <:+ text := by
  rcases List.mem_cons.mp h with rfl | h
  · exact List.suffix_refl _
  · exact suffix_of_mem_behindBreaks h

section

variable {α : Type} {pattern : List Char → Option (α × List Char)} {m : Match α}

/-- A match was found at the start of a line, behind its indent. -/
theorem exists_of_mem_lineMatches {total : Nat} : ∀ {done : Nat} {lines : List (List Char)},
    m ∈ lineMatches pattern total done lines → ∃ line ∈ lines, ∃ behind,
      pattern (Pattern.indent line) = some (m.value, behind) ∧
      m.start = total - size (Pattern.indent line) ∧ m.stop = total - size behind
  | _, [], h => by cases h
  | done, line :: lines, h => by
    have hlater : ∀ {done'}, m ∈ lineMatches pattern total done' lines →
        ∃ l ∈ line :: lines, ∃ behind, pattern (Pattern.indent l) = some (m.value, behind) ∧
          m.start = total - size (Pattern.indent l) ∧ m.stop = total - size behind := fun h' => by
      obtain ⟨l, hl, hrest⟩ := exists_of_mem_lineMatches h'
      exact ⟨l, List.mem_cons_of_mem _ hl, hrest⟩
    unfold lineMatches at h
    split at h
    · exact hlater h
    · simp only at h
      split at h
      · rename_i value behind hpattern
        rcases List.mem_cons.mp h with rfl | h
        · exact ⟨line, List.mem_cons_self, behind, hpattern, rfl, rfl⟩
        · exact hlater h
      · exact hlater h

/-- A match of a statement stands between what the pattern was tried on and what it left. -/
theorem stands_of_mem_statements {text : List Char} {ls : Literals}
    (hpattern : ∀ cs v rest, pattern cs = some (v, rest) → rest <:+ cs)
    (hm : m ∈ statements text ls pattern) : ∃ here behind, pattern here = some (m.value, behind) ∧
      here <:+ text ∧ Stands text m.start here ∧ Stands text m.stop behind ∧
      ls.contains m.start = false := by
  obtain ⟨hfound, houtside⟩ := List.mem_filter.mp hm
  obtain ⟨line, hline, behind, hsome, hstart, hstop⟩ := exists_of_mem_lineMatches hfound
  have hhere := (Pattern.indent_suffix line).trans (suffix_of_mem_lineStarts hline)
  refine ⟨_, behind, hsome, hhere, ?_, ?_, by simpa using houtside⟩
  · rw [hstart]
    exact .of_suffix hhere
  · rw [hstop]
    exact .of_suffix ((hpattern _ _ _ hsome).trans hhere)

end

/-! ## Imports and exports -/

/-- Where every element gives a result, a list gives their results. -/
theorem exists_mapM_ok {α β : Type} {f : α → Except Fault β} {P : α → β → Prop} :
    ∀ {as : List α}, (∀ a ∈ as, ∃ b, f a = .ok b ∧ P a b) →
      ∃ bs, as.mapM f = .ok bs ∧ (∀ a ∈ as, ∃ b ∈ bs, P a b) ∧ ∀ b ∈ bs, ∃ a ∈ as, P a b
  | [], _ => ⟨[], rfl, fun _ h => absurd h List.not_mem_nil, fun _ h => absurd h List.not_mem_nil⟩
  | a :: as, h => by
    obtain ⟨b, hb, hab⟩ := h a List.mem_cons_self
    obtain ⟨bs, hbs, hfound, hfrom⟩ := exists_mapM_ok fun a' ha' => h a' (List.mem_cons_of_mem _ ha')
    refine ⟨b :: bs, ?_, fun a' ha' => ?_, fun b' hb' => ?_⟩
    · rw [List.mapM_cons, hb]
      change (as.mapM f >>= fun bs => pure (b :: bs)) = _
      rw [hbs]
      rfl
    · rcases List.mem_cons.mp ha' with rfl | ha'
      · exact ⟨b, List.mem_cons_self, hab⟩
      · obtain ⟨b', hb', hab'⟩ := hfound a' ha'
        exact ⟨b', List.mem_cons_of_mem _ hb', hab'⟩
    · rcases List.mem_cons.mp hb' with rfl | hb'
      · exact ⟨a, List.mem_cons_self, hab⟩
      · obtain ⟨a', ha', hab'⟩ := hfrom b' hb'
        exact ⟨a', List.mem_cons_of_mem _ ha', hab'⟩

/-- Every match of an import pattern is an import, at its place. -/
theorem importOf_ok {text : List Char} {ls : Literals}
    {pattern : List Char → Option ((Binding × String) × List Char)}
    (hpattern : ∀ cs v rest, pattern cs = some (v, rest) → Pattern.Behind "import" cs rest)
    {m : Match (Binding × String)} (hm : m ∈ statements text ls pattern) :
    ∃ i, importOf text m = .ok i ∧ i.span.start = m.start ∧ i.span.Fits text := by
  obtain ⟨here, behind, hsome, -, hstart, hstop, -⟩ :=
    stands_of_mem_statements (fun _ _ _ h => (hpattern _ _ _ h).suffix) hm
  have hbehind := hpattern _ _ _ hsome
  obtain ⟨span, hspan, hat, hfits⟩ := hstart.span hbehind.suffix (hbehind.size_lt (by decide))
  refine ⟨⟨m.value.2, m.value.1, span⟩, ?_, hat, hfits⟩
  unfold importOf
  rw [hstop.eq_sub, hspan]
  rfl

/-- Every import is read, at its place. -/
theorem readImports_ok (text : List Char) (ls : Literals) :
    ∃ imports, readImports text ls = .ok imports ∧ (∀ i ∈ imports, i.span.Fits text) ∧
      (∀ m ∈ statements text ls Pattern.importFrom?, ∃ i ∈ imports, i.span.start = m.start) ∧
      ∀ m ∈ statements text ls Pattern.importBare?, ∃ i ∈ imports, i.span.start = m.start := by
  obtain ⟨named, hnamed, hnamedFound, hnamedFits⟩ := exists_mapM_ok
    fun _ (hm : _ ∈ statements text ls Pattern.importFrom?) =>
      importOf_ok (fun _ _ _ => Pattern.importFrom?_behind) hm
  obtain ⟨bare, hbare, hbareFound, hbareFits⟩ := exists_mapM_ok
    fun _ (hm : _ ∈ statements text ls Pattern.importBare?) =>
      importOf_ok (fun _ _ _ => Pattern.importBare?_behind) hm
  have hperm := Span.perm_inOrder (fun i : Import => i.span.start) (named ++ bare)
  refine ⟨Span.inOrder (fun i => i.span.start) (named ++ bare), ?_, fun i hi => ?_, fun m hm => ?_,
    fun m hm => ?_⟩
  · unfold readImports
    rw [hnamed, hbare]
    rfl
  · rcases List.mem_append.mp (hperm.mem_iff.mp hi) with hi | hi
    · obtain ⟨_, -, -, hfits⟩ := hnamedFits i hi
      exact hfits
    · obtain ⟨_, -, -, hfits⟩ := hbareFits i hi
      exact hfits
  · obtain ⟨i, hi, hat, -⟩ := hnamedFound m hm
    exact ⟨i, hperm.mem_iff.mpr (List.mem_append_left _ hi), hat⟩
  · obtain ⟨i, hi, hat, -⟩ := hbareFound m hm
    exact ⟨i, hperm.mem_iff.mpr (List.mem_append_right _ hi), hat⟩

/-- A statement is what a text starts with. -/
theorem isPrefix_statement (ls : Literals) :
    ∀ (cs : List Char) (pos depth : Nat), ls.statement pos depth cs <+: cs
  | [], _, _ => List.prefix_refl _
  | c :: cs, pos, depth => by
    have hnext := fun d => List.prefix_cons_inj c |>.mpr
      (isPrefix_statement ls cs (pos + c.utf8Size) d)
    unfold Literals.statement
    simp only
    split
    · exact hnext depth
    · split
      · exact hnext (depth + 1)
      · split
        · exact hnext (depth - 1)
        · split
          · exact List.nil_prefix
          · exact hnext depth

theorem Literals.trimPiece_snd (p : Literals.Piece) : (trimPiece p).2 = trim p.2 := by
  unfold trimPiece
  simp only
  split
  · rename_i hempty
    exact (List.isEmpty_iff.mp hempty).symm
  · rfl

/-- A trimmed piece stands where it says. -/
theorem stands_trimPiece {text piece rest : List Char} {pos : Nat}
    (h : Stands text pos (piece ++ rest)) :
    ∃ behind, Stands text (Literals.trimPiece (pos, piece)).1
      ((Literals.trimPiece (pos, piece)).2 ++ behind) := by
  unfold Literals.trimPiece
  simp only
  split
  · exact ⟨piece ++ rest, h⟩
  · obtain ⟨behind, hbehind, -⟩ := exists_trim piece
    rw [hbehind, List.append_assoc] at h
    refine ⟨behind ++ rest, ?_⟩
    rw [← List.append_assoc]
    exact h.append _

/-- An exported constant is read, unless nothing is written behind its equals sign. -/
theorem constantOf?_ok {text : List Char} {ls : Literals} {m : Match (List Char × String)}
    (hm : m ∈ statements text ls Pattern.exportConst?) :
    ∃ behind, Stands text m.stop behind ∧
      ((trim (ls.statement m.stop 0 behind) = [] ∧ constantOf? text ls m = .ok none) ∨
        ∃ c, constantOf? text ls m = .ok (some c) ∧ c.name = m.value.2 ∧
          c.keyword.start = m.start ∧ c.keyword.Fits text ∧ c.initSpan.Fits text) := by
  obtain ⟨here, behind, hsome, -, hstart, hstop, -⟩ := stands_of_mem_statements
    (fun _ _ _ h => (Pattern.exportConst?_behind h).2.trans (Pattern.exportConst?_behind h).1.suffix) hm
  refine ⟨behind, hstop, ?_⟩
  obtain ⟨hkeyword, -⟩ := Pattern.exportConst?_behind hsome
  obtain ⟨span, hspan, hat, hfits⟩ := hstart.span hkeyword.suffix (hkeyword.size_lt (by decide))
  obtain ⟨more, hmore⟩ := isPrefix_statement ls behind m.stop 0
  rw [← hmore] at hstop
  obtain ⟨after, hinit⟩ := stands_trimPiece hstop
  rw [hmore] at hstop
  rw [← Literals.trimPiece_snd (m.stop, ls.statement m.stop 0 behind)]
  unfold constantOf?
  simp only [hstop.dropBytes?, Fault.ofCut, bind, Except.bind]
  generalize Literals.trimPiece (m.stop, ls.statement m.stop 0 behind) = piece at hinit ⊢
  obtain ⟨start, init⟩ := piece
  cases init with
  | nil => exact .inl ⟨rfl, rfl⟩
  | cons d ds =>
    right
    obtain ⟨initSpan, hinitSpan, hs, ht⟩ := hinit.ofOffsets (hinit.append _)
    have hlt : initSpan.start < initSpan.stop := by
      have hpos := d.utf8Size_pos
      rw [hs, ht, size]
      omega
    refine ⟨⟨m.value.2, readExpr ls start (d :: ds), span, initSpan, false⟩, ?_, rfl, hat, hfits,
      ⟨_, hs ▸ hinit⟩, ⟨_, ht ▸ hinit.append _⟩, hlt⟩
    simp only [List.isEmpty_cons, Bool.false_eq_true, if_false, keywordSpan, hspan]
    rw [hinitSpan]
    rfl

/-- Every exported constant is read that has something behind its equals sign. -/
theorem readConstants_ok (text : List Char) (ls : Literals) :
    ∃ constants, readConstants text ls = .ok constants ∧
      (∀ c ∈ constants, c.keyword.Fits text ∧ c.initSpan.Fits text) ∧
      ∀ m ∈ statements text ls Pattern.exportConst?, ∀ behind, Stands text m.stop behind →
        trim (ls.statement m.stop 0 behind) ≠ [] →
          ∃ c ∈ constants, c.name = m.value.2 ∧ c.keyword.start = m.start := by
  have hone : ∀ m ∈ statements text ls Pattern.exportConst?, ∃ found, constantOf? text ls m = .ok found ∧
      (∀ c ∈ found, c.keyword.Fits text ∧ c.initSpan.Fits text) ∧
      ∀ behind, Stands text m.stop behind → trim (ls.statement m.stop 0 behind) ≠ [] →
        ∃ c ∈ found, c.name = m.value.2 ∧ c.keyword.start = m.start := by
    intro m hm
    obtain ⟨behind, hstands, ⟨hblank, hnone⟩ | ⟨c, hsome, hname, hat, hfits⟩⟩ := constantOf?_ok hm
    · refine ⟨none, hnone, fun c hc => (by cases hc), fun behind' hstands' hne => ?_⟩
      rw [hstands'.eq_of hstands] at hne
      exact absurd hblank hne
    · refine ⟨some c, hsome, fun c' hc' => ?_, fun _ _ _ => ⟨c, rfl, hname, hat⟩⟩
      cases hc'
      exact hfits
  obtain ⟨found, hfound, hread, hfits⟩ := exists_mapM_ok hone
  refine ⟨found.filterMap id, ?_, fun c hc => ?_, fun m hm behind hstands hne => ?_⟩
  · unfold readConstants
    rw [hfound]
    rfl
  · obtain ⟨c', hc', rfl⟩ := List.mem_filterMap.mp hc
    obtain ⟨m, -, hone, -⟩ := hfits _ hc'
    exact hone c rfl
  · obtain ⟨c', hc', -, hnode⟩ := hread m hm
    obtain ⟨c, rfl, hname, hat⟩ := hnode behind hstands hne
    exact ⟨c, List.mem_filterMap.mpr ⟨_, hc', rfl⟩, hname, hat⟩

/-- Every exported function is read. -/
theorem readFunctions_ok (text : List Char) (ls : Literals) :
    ∃ functions, readFunctions text ls = .ok functions ∧ (∀ f ∈ functions, f.keyword.Fits text) ∧
      ∀ m ∈ statements text ls Pattern.exportFunction?,
        ∃ f ∈ functions, f.name = m.value.2 ∧ f.keyword.start = m.start := by
  have hone : ∀ m ∈ statements text ls Pattern.exportFunction?, ∃ f : ExportedFunction,
      (do return ⟨m.value.2, ← keywordSpan text m.start m.value.1⟩) = Except.ok f ∧
        f.name = m.value.2 ∧ f.keyword.start = m.start ∧ f.keyword.Fits text := by
    intro m hm
    obtain ⟨here, behind, hsome, -, hstart, -⟩ := stands_of_mem_statements
      (fun _ _ _ h => (Pattern.exportFunction?_behind h).2.trans
        (Pattern.exportFunction?_behind h).1.suffix) hm
    obtain ⟨hkeyword, -⟩ := Pattern.exportFunction?_behind hsome
    obtain ⟨span, hspan, hat, hfits⟩ := hstart.span hkeyword.suffix (hkeyword.size_lt (by decide))
    refine ⟨⟨m.value.2, span⟩, ?_, rfl, hat, hfits⟩
    simp only [keywordSpan, hspan, bind, Except.bind]
    rfl
  obtain ⟨functions, hfunctions, hread, hfits⟩ := exists_mapM_ok hone
  refine ⟨functions, hfunctions, fun f hf => ?_, fun m hm => ?_⟩
  · obtain ⟨_, -, -, -, hone⟩ := hfits f hf
    exact hone
  · obtain ⟨f, hf, hname, hat, -⟩ := hread m hm
    exact ⟨f, hf, hname, hat⟩

/-! ## Calls -/

theorem suffix_of_mem_places {before here : List Char} :
    ∀ {text earlier : List Char}, (before, here) ∈ places earlier text → here <:+ text
  | [], _, h => by
    cases List.mem_singleton.mp h
    exact List.suffix_refl _
  | c :: text, earlier, h => by
    rcases List.mem_cons.mp h with heq | h
    · cases heq
      exact List.suffix_refl _
    · exact (suffix_of_mem_places h).trans (List.suffix_cons c text)

theorem utf8Size_of_isClosing {c : Char} (h : Literals.isClosing c = true) : c.utf8Size = 1 := by
  simp only [Literals.isClosing, Bool.or_eq_true, beq_iff_eq] at h
  rcases h with (rfl | rfl) | rfl <;> rfl

/-- The end of a call is at a closing bracket. -/
theorem findClose_eq_some {ls : Literals} {closing : Nat} :
    ∀ {cs : List Char} {pos depth : Nat}, ls.findClose pos depth cs = some closing →
      ∃ inside c behind, cs = inside ++ c :: behind ∧ Literals.isClosing c = true ∧
        closing = pos + size inside
  | [], _, _, h => by cases h
  | c :: cs, pos, depth, h => by
    have hlater : ∀ {d}, ls.findClose (pos + c.utf8Size) d cs = some closing →
        ∃ inside c' behind, c :: cs = inside ++ c' :: behind ∧ Literals.isClosing c' = true ∧
          closing = pos + size inside := fun h' => by
      obtain ⟨inside, c', behind, rfl, hclosing, rfl⟩ := findClose_eq_some h'
      exact ⟨c :: inside, c', behind, rfl, hclosing, by rw [size]; omega⟩
    unfold Literals.findClose at h
    simp only at h
    split at h
    · exact hlater h
    · split at h
      · exact hlater h
      · split at h
        · rename_i hclosing
          split at h
          · cases h
            exact ⟨[], c, cs, rfl, hclosing, rfl⟩
          · exact hlater h
        · exact hlater h

/-- What stands between the opening parenthesis of a call and its end can be cut out, and the call ends
between two characters. -/
theorem slice?_findClose {text paren inside : List Char} {ls : Literals} {opening closing : Nat}
    (hopening : Stands text opening paren) (hparen : paren = '(' :: inside)
    (h : ls.findClose opening 0 paren = some closing) : ∃ args c behind,
      inside = args ++ c :: behind ∧ slice? text (opening + 1) closing = some args ∧
        Stands text (closing + 1) behind := by
  obtain ⟨before, c, behind, heq, hclosing, rfl⟩ := findClose_eq_some h
  have hone : size ['('] = 1 := rfl
  cases before with
  | nil =>
    -- the opening parenthesis itself closes nothing
    cases hparen.symm.trans heq
    exact absurd hclosing (by decide)
  | cons d args =>
    cases hparen.symm.trans heq
    rw [hparen] at hopening
    have hstart : Stands text (opening + 1) (args ++ c :: behind) := hopening.append ['(']
    refine ⟨args, c, behind, rfl, ?_, ?_⟩
    · have hslice := hstart.slice?
      rwa [show opening + 1 + size args = opening + size ('(' :: args) by
        rw [show size ('(' :: args) = 1 + size args from rfl]; omega] at hslice
    · have hend := (hstart.append args).append [c]
      rwa [show opening + 1 + size args + size [c] = opening + size ('(' :: args) + 1 by
        rw [show size ('(' :: args) = 1 + size args from rfl, size, size,
          utf8Size_of_isClosing hclosing]; omega] at hend

/-- All calls are read, up to one that does not end. -/
theorem readCallsFrom_ok (file : String) (text : List Char) (ls : Literals) :
    ∀ (ps : List (List Char × List Char)) (done : Nat), (∀ p ∈ ps, p.2 <:+ text) →
      ∃ answer, readCallsFrom file text ls done ps = .ok answer
  | [], _, _ => ⟨_, rfl⟩
  | (before, here) :: ps, done, hps => by
    have hnext := fun d => readCallsFrom_ok file text ls ps d
      fun p hp => hps p (List.mem_cons_of_mem _ hp)
    have hhere : here <:+ text := hps _ List.mem_cons_self
    unfold readCallsFrom
    simp only
    cases hcall : Pattern.call? here with
    | none => exact hnext done
    | some found =>
      obtain ⟨⟨object, method⟩, paren⟩ := found
      simp only
      split
      · exact hnext done
      · obtain ⟨⟨word, hword⟩, inside, hinside⟩ := Pattern.call?_suffix hcall
        have hparen : paren <:+ text := List.IsSuffix.trans ⟨word, hword⟩ hhere
        have hstart := Stands.of_suffix hhere
        have hopening := Stands.of_suffix hparen
        cases hclose : ls.findClose (size text - size paren) 0 paren with
        | none =>
          have hafter : Stands text (size text - size paren + 1) inside := by
            rw [hinside] at hopening ⊢
            exact hopening.append ['(']
          obtain ⟨span, hspan, -⟩ := hstart.ofOffsets hafter
          have hslice : slice? text (size text - size here) (size text - size paren) = some word := by
            rw [← hword] at hstart ⊢
            rw [← hstart.append.eq_sub]
            exact hstart.slice?
          simp only [hslice, hspan, Fault.ofCut, bind, Except.bind]
          exact ⟨_, rfl⟩
        | some closing =>
          obtain ⟨args, c, behind, -, hslice, hstop⟩ := slice?_findClose hopening hinside hclose
          obtain ⟨span, hspan, -⟩ := hstart.ofOffsets hstop
          obtain ⟨⟨calls, diagnostics⟩, hrest⟩ := hnext (closing + 1)
          simp only [hslice, hspan, hrest, Fault.ofCut, bind, Except.bind]
          exact ⟨_, rfl⟩

/-- How a call was read: it matches outside of literals, it ends, and its arguments are the pieces of
what stands between its parentheses. -/
structure CallRead (text : List Char) (ls : Literals) (here : List Char) (c : Call) : Prop where
  unedited : c.edited = false
  span : c.span.Fits text
  outside : ls.contains (size text - size here) = false
  found : ∃ paren closing inside, Pattern.call? here = some ((c.object, c.method), paren) ∧
    ls.findClose (size text - size paren) 0 paren = some closing ∧
    slice? text (size text - size paren + 1) closing = some inside ∧
    c.args = (ls.splitArguments (size text - size paren + 1) inside).map fun p => readExpr ls p.1 p.2

/-- A call that ends is a part of the text. -/
theorem fits_of_findClose {text here paren : List Char} {v : Option String × String} {ls : Literals}
    {closing : Nat} {span : Span} (hhere : here <:+ text) (hcall : Pattern.call? here = some (v, paren))
    (hclose : ls.findClose (size text - size paren) 0 paren = some closing)
    (hspan : Span.ofOffsets text (size text - size here) (closing + 1) = .ok span) : span.Fits text := by
  obtain ⟨hparen, inside, hinside⟩ := Pattern.call?_suffix hcall
  have hopening := Stands.of_suffix (hparen.trans hhere)
  obtain ⟨args, c, behind, -, -, hstop⟩ := slice?_findClose hopening hinside hclose
  have hstart := Stands.of_suffix hhere
  obtain ⟨span', hspan', hs, ht⟩ := hstart.ofOffsets hstop
  cases hspan.symm.trans hspan'
  refine ⟨⟨_, hs ▸ hstart⟩, ⟨_, ht ▸ hstop⟩, ?_⟩
  obtain ⟨inside', c', behind', -, -, hclosing⟩ := findClose_eq_some hclose
  obtain ⟨word, rfl⟩ := hparen
  rw [hs, ht, size_append]
  omega

/-- Every call was read at one of the places. -/
theorem exists_of_mem_readCallsFrom {file : String} {text : List Char} {ls : Literals} {c : Call} :
    ∀ {ps : List (List Char × List Char)} {done : Nat} {calls : List Call} {ds : List Diagnostic},
      (∀ p ∈ ps, p.2 <:+ text) → readCallsFrom file text ls done ps = .ok (calls, ds) → c ∈ calls →
        ∃ p ∈ ps, CallRead text ls p.2 c
  | [], done, calls, ds, _, h, hc => by
    cases h
    exact absurd hc List.not_mem_nil
  | (before, here) :: ps, done, calls, ds, hps, h, hc => by
    have hlater : ∀ {done' calls' ds'}, readCallsFrom file text ls done' ps = .ok (calls', ds') →
        c ∈ calls' → ∃ p ∈ (before, here) :: ps, CallRead text ls p.2 c := fun h' hc' => by
      obtain ⟨p, hp, hread⟩ :=
        exists_of_mem_readCallsFrom (fun q hq => hps q (List.mem_cons_of_mem _ hq)) h' hc'
      exact ⟨p, List.mem_cons_of_mem _ hp, hread⟩
    unfold readCallsFrom at h
    simp only at h
    split at h
    · exact hlater h hc
    · rename_i object method paren hcall
      split at h
      · exact hlater h hc
      · rename_i hskip
        split at h
        · obtain ⟨word, -, h⟩ := (except_bind_ok_iff _ _ _).mp h
          obtain ⟨span, -, h⟩ := (except_bind_ok_iff _ _ _).mp h
          cases h
          exact absurd hc List.not_mem_nil
        · rename_i closing hclose
          obtain ⟨inside, hinside, h⟩ := (except_bind_ok_iff _ _ _).mp h
          obtain ⟨span, hspan, h⟩ := (except_bind_ok_iff _ _ _).mp h
          obtain ⟨⟨others, ds'⟩, hothers, h⟩ := (except_bind_ok_iff _ _ _).mp h
          cases h
          rcases List.mem_cons.mp hc with rfl | hmem
          · have hfits := fits_of_findClose (hps _ List.mem_cons_self) hcall hclose hspan
            refine ⟨_, List.mem_cons_self, rfl, hfits, ?_, paren, closing, inside, hcall, hclose,
              Fault.ofCut_ok hinside, rfl⟩
            simp only [Bool.or_eq_true, not_or, Bool.not_eq_true] at hskip
            exact hskip.1.1.2
          · exact hlater hothers hmem

/-! ## Scripts -/

/-- Every node of a script is a part of its text. -/
structure Fits (s : Script) : Prop where
  imports : ∀ i ∈ s.imports, i.span.Fits s.source.toList
  constants : ∀ c ∈ s.constants, c.keyword.Fits s.source.toList ∧ c.initSpan.Fits s.source.toList
  functions : ∀ f ∈ s.functions, f.keyword.Fits s.source.toList
  calls : ∀ c ∈ s.calls, c.span.Fits s.source.toList

/-- A constant that a text exports, and where: something is written behind its equals sign. -/
def ExportsConstant (text : List Char) (ls : Literals) (name : String) (start : Nat) : Prop :=
  ∃ m ∈ statements text ls Pattern.exportConst?, ∃ behind, Stands text m.stop behind ∧
    trim (ls.statement m.stop 0 behind) ≠ [] ∧ m.value.2 = name ∧ m.start = start

/-- A function that a text exports, and where. -/
def ExportsFunction (text : List Char) (ls : Literals) (name : String) (start : Nat) : Prop :=
  ∃ m ∈ statements text ls Pattern.exportFunction?, m.value.2 = name ∧ m.start = start

/-- The place of an import statement of a text. -/
def Imports (text : List Char) (ls : Literals) (start : Nat) : Prop :=
  (∃ m ∈ statements text ls Pattern.importFrom?, m.start = start) ∨
    ∃ m ∈ statements text ls Pattern.importBare?, m.start = start

/-- A script has a node for each statement of its text that imports or exports. -/
structure Finds (s : Script) (text : List Char) (ls : Literals) : Prop where
  imports : ∀ start, Imports text ls start → ∃ i ∈ s.imports, i.span.start = start
  constants : ∀ name start, ExportsConstant text ls name start →
    ∃ c ∈ s.constants, c.name = name ∧ c.keyword.start = start
  functions : ∀ name start, ExportsFunction text ls name start →
    ∃ f ∈ s.functions, f.name = name ∧ f.keyword.start = start

/-- Reading a script comes to a result, whatever the text is: its nodes are parts of the text, and it has
one for each import and export. -/
theorem read_ok (file source : String) : ∃ script ds, read file source = .ok (script, ds) ∧
    script.source = source ∧ script.Fits ∧ script.Finds source.toList (Literals.scan source.toList) := by
  have hplaces : ∀ p ∈ places [] source.toList, p.2 <:+ source.toList := fun _ hp => suffix_of_mem_places hp
  obtain ⟨imports, himports, hi, hfrom, hbare⟩ :=
    readImports_ok source.toList (Literals.scan source.toList)
  obtain ⟨constants, hconstants, hc, hconst⟩ :=
    readConstants_ok source.toList (Literals.scan source.toList)
  obtain ⟨functions, hfunctions, hf, hfunction⟩ :=
    readFunctions_ok source.toList (Literals.scan source.toList)
  obtain ⟨⟨calls, ds⟩, hcalls⟩ := readCallsFrom_ok file source.toList (Literals.scan source.toList)
    (places [] source.toList) 0 hplaces
  refine ⟨⟨file, source, imports, calls, constants, functions⟩, ds, ?_, rfl, ⟨hi, hc, hf, fun c hmem => ?_⟩,
    ?_, ?_, ?_⟩
  · unfold read
    simp only [himports, hconstants, hfunctions, hcalls, bind, Except.bind]
    rfl
  · obtain ⟨_, -, hread⟩ := exists_of_mem_readCallsFrom hplaces hcalls hmem
    exact hread.span
  · rintro start (⟨m, hm, rfl⟩ | ⟨m, hm, rfl⟩)
    · exact hfrom m hm
    · exact hbare m hm
  · rintro name start ⟨m, hm, behind, hstands, hne, rfl, rfl⟩
    exact hconst m hm behind hstands hne
  · rintro name start ⟨m, hm, rfl, rfl⟩
    exact hfunction m hm

/-- Every call of a script was read at a place of its text. -/
theorem exists_of_mem_calls {file source : String} {s : Script} {ds : List Diagnostic} {c : Call}
    (h : read file source = .ok (s, ds)) (hc : c ∈ s.calls) :
    ∃ here, here <:+ source.toList ∧ CallRead source.toList (Literals.scan source.toList) here c := by
  unfold read at h
  obtain ⟨imports, -, h⟩ := (except_bind_ok_iff _ _ _).mp h
  obtain ⟨constants, -, h⟩ := (except_bind_ok_iff _ _ _).mp h
  obtain ⟨functions, -, h⟩ := (except_bind_ok_iff _ _ _).mp h
  obtain ⟨⟨calls, ds'⟩, hcalls, h⟩ := (except_bind_ok_iff _ _ _).mp h
  cases h
  have hplaces : ∀ p ∈ places [] source.toList, p.2 <:+ source.toList := fun _ hp => suffix_of_mem_places hp
  obtain ⟨p, hp, hread⟩ := exists_of_mem_readCallsFrom hplaces hcalls hc
  exact ⟨p.2, hplaces p hp, hread⟩

end Script

end Bundler

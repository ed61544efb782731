/-
Import lists are read as they are written.

What stands between the braces of an import is cut at its commas, and each item at the first ` as ` in it,
blanks taken away around all parts. So a list of names is read as the pairs that it says, whatever blanks
stand around names and commas, and whether or not a comma ends it (`Script.namePairs_listText`), as long as
the word `as` has a space on each side. What has another blank there is read as one name. An import whose
list is written so binds these pairs (`Script.binding_of_list`).
-/
import Bundler.Proofs.Placement

set_option autoImplicit false

namespace Bundler

open Text

namespace Text

/-! ## Cutting and trimming -/

/-- Blanks around a text are trimmed. -/
theorem Trimmed.trim_between {lead cs trail : List Char} (h : Trimmed cs) (hne : cs ≠ [])
    (hlead : ∀ c ∈ lead, isBlank c = true) (htrail : ∀ c ∈ trail, isBlank c = true) :
    trim (lead ++ cs ++ trail) = cs := by
  have hfront := h.trim_eq hlead
  unfold trim at hfront ⊢
  have hstart : trimStart (lead ++ cs ++ trail) = trimStart (lead ++ cs) ++ trail := by
    unfold trimStart
    rw [List.append_assoc, List.dropWhile_append_of_pos hlead, List.dropWhile_append_of_pos hlead]
    cases cs with
    | nil => exact absurd rfl hne
    | cons c cs =>
      have hc : ¬ isBlank c = true := by
        rw [h.first c rfl]
        exact Bool.false_ne_true
      rw [List.cons_append, List.dropWhile_cons_of_neg hc, List.dropWhile_cons_of_neg hc]
      rfl
  rw [hstart, trimEnd_append htrail]
  exact hfront

theorem trim_of_blank {cs : List Char} (h : ∀ c ∈ cs, isBlank c = true) : trim cs = [] := by
  have hstart : trimStart cs = [] := List.dropWhile_eq_nil_iff.mpr h
  unfold trim
  rw [hstart]
  rfl

/-- A pattern is looked for behind a text without its first character. -/
theorem splitOnce?_append {p : Char} {ps front : List Char} (h : p ∉ front) (cs : List Char) :
    splitOnce? (p :: ps) (front ++ cs)
      = (splitOnce? (p :: ps) cs).map fun r => (front ++ r.1, r.2) := by
  induction front with
  | nil => simp
  | cons c front ih =>
    obtain ⟨hc, hfront⟩ := not_or.mp (mt List.mem_cons.mpr h)
    have hprefix : (p :: ps).isPrefixOf (c :: (front ++ cs)) = false := by
      simp [List.isPrefixOf, hc]
    rw [List.cons_append, splitOnce?, hprefix, ih hfront]
    simp only [Bool.false_eq_true, ↓reduceIte, Option.map_map]
    rfl

end Text

namespace Script

/-! ## Items -/

/-- An item of an import list: a name, and another one for it where there is one, with the blanks before
and behind the word between the two. -/
structure ListItem where
  lead : List Char
  name : List Char
  renamed : Option (List Char × List Char × List Char)
  trail : List Char

namespace ListItem

/-- The name, and what stands behind it. -/
def core (item : ListItem) : List Char :=
  match item.renamed with
  | none => item.name
  | some (before, behind, lcl) => item.name ++ before ++ (" as ".toList ++ (behind ++ lcl))

/-- The text of an item. -/
def text (item : ListItem) : List Char := item.lead ++ item.core ++ item.trail

/-- The two names of an item. -/
def pair (item : ListItem) : String × String :=
  match item.renamed with
  | none => (String.ofList item.name, String.ofList item.name)
  | some (_, _, lcl) => (String.ofList item.name, String.ofList lcl)

end ListItem

/-- All characters are blanks. -/
def AllBlank (cs : List Char) : Prop := ∀ c ∈ cs, isBlank c = true

/-- A text that can stand as a name in a list. -/
structure IsName (cs : List Char) : Prop where
  ne_nil : cs ≠ []
  parts : ∀ c ∈ cs, isBlank c = false ∧ c ≠ ',' ∧ c ≠ '\x7d'

/-- The names of an item are names, and its blanks are blanks. -/
structure ListItem.Proper (item : ListItem) : Prop where
  lead : AllBlank item.lead
  name : IsName item.name
  renamed : ∀ r ∈ item.renamed, AllBlank r.1 ∧ AllBlank r.2.1 ∧ IsName r.2.2
  trail : AllBlank item.trail

theorem IsName.trimmed {cs : List Char} (h : IsName cs) : Trimmed cs :=
  ⟨fun c hc => (h.parts c (List.mem_of_mem_head? hc)).1, fun c hc => (h.parts c (List.mem_of_getLast? hc)).1⟩

theorem IsName.inside {cs : List Char} (h : IsName cs) : ∀ c ∈ cs, c ≠ ',' ∧ c ≠ '\x7d' :=
  fun c hc => (h.parts c hc).2

theorem AllBlank.inside {cs : List Char} (h : AllBlank cs) : ∀ c ∈ cs, c ≠ ',' ∧ c ≠ '\x7d' := by
  intro c hc
  constructor
  · rintro rfl
    exact absurd (h ',' hc) (by decide)
  · rintro rfl
    exact absurd (h '\x7d' hc) (by decide)

theorem AllBlank.nil : AllBlank [] := fun _ h => absurd h List.not_mem_nil

theorem IsName.space_not_mem {cs : List Char} (h : IsName cs) : ' ' ∉ cs := by
  intro hmem
  have hblank := (h.parts ' ' hmem).1
  revert hblank
  decide

theorem toList_as : " as ".toList = [' ', 'a', 's', ' '] := by decide

theorem inside_as : ∀ c ∈ " as ".toList, c ≠ ',' ∧ c ≠ '\x7d' :=
  List.all_iff_forall_prop.mp (by decide)

/-- The first ` as ` behind a name and blanks is the one that follows them. -/
theorem splitOnce?_as {name before : List Char} (hname : IsName name) (hbefore : AllBlank before)
    (rest : List Char) :
    splitOnce? " as ".toList (name ++ before ++ (" as ".toList ++ rest)) = some (name ++ before, rest) := by
  have hblanks : splitOnce? " as ".toList (before ++ (" as ".toList ++ rest)) = some (before, rest) := by
    clear hname
    induction before with
    | nil => rfl
    | cons c before ih =>
      have hlater : AllBlank before := fun d hd => hbefore d (List.mem_cons_of_mem _ hd)
      -- a blank follows, or the space in front of the word
      have hnext : ∃ d more, before ++ (" as ".toList ++ rest) = d :: more ∧ d ≠ 'a' := by
        cases before with
        | nil => exact ⟨' ', _, rfl, by decide⟩
        | cons d before =>
          refine ⟨d, _, rfl, ?_⟩
          rintro rfl
          exact absurd (hlater 'a' List.mem_cons_self) (by decide)
      have hprefix : " as ".toList.isPrefixOf (c :: (before ++ (" as ".toList ++ rest))) = false := by
        obtain ⟨d, more, heq, hd⟩ := hnext
        rw [heq]
        simp [List.isPrefixOf, Ne.symm hd]
      rw [List.cons_append, splitOnce?, hprefix, ih hlater]
      rfl
  rw [toList_as] at hblanks ⊢
  rw [List.append_assoc, splitOnce?_append hname.space_not_mem, hblanks]
  rfl

namespace ListItem

variable {item : ListItem}

theorem Proper.trimmed_core (h : item.Proper) : Trimmed item.core ∧ item.core ≠ [] := by
  have hname := h.name.trimmed
  unfold core
  cases hrenamed : item.renamed with
  | none => exact ⟨hname, h.name.ne_nil⟩
  | some r =>
    obtain ⟨before, behind, lcl⟩ := r
    obtain ⟨-, -, hlcl⟩ := h.renamed _ hrenamed
    simp only
    refine ⟨⟨?_, ?_⟩, ?_⟩
    · intro c hc
      apply hname.first c
      rw [List.append_assoc, List.head?_append_of_ne_nil _ h.name.ne_nil] at hc
      exact hc
    · intro c hc
      apply hlcl.trimmed.last c
      rw [← List.append_assoc, ← List.append_assoc, List.getLast?_append_of_ne_nil _ hlcl.ne_nil] at hc
      exact hc
    · simp

theorem Proper.trim_text (h : item.Proper) : trim item.text = item.core := by
  obtain ⟨htrimmed, hne⟩ := h.trimmed_core
  exact htrimmed.trim_between hne h.lead h.trail

/-- An item is read as its two names. -/
theorem Proper.namePair_core (h : item.Proper) : Pattern.namePair item.core = item.pair := by
  unfold core pair Pattern.namePair
  cases hrenamed : item.renamed with
  | none =>
    have hnone : splitOnce? [' ', 'a', 's', ' '] (item.name ++ []) = none := by
      rw [splitOnce?_append h.name.space_not_mem]
      rfl
    rw [List.append_nil] at hnone
    simp only [toList_as, hnone]
  | some r =>
    obtain ⟨before, behind, lcl⟩ := r
    obtain ⟨hbefore, hbehind, hlcl⟩ := h.renamed _ hrenamed
    have hname := h.name.trimmed.trim_between h.name.ne_nil AllBlank.nil hbefore
    have hlocal := hlcl.trimmed.trim_between hlcl.ne_nil hbehind AllBlank.nil
    rw [List.nil_append] at hname
    rw [List.append_nil] at hlocal
    simp only [splitOnce?_as h.name hbefore, hname, hlocal]

/-- No item goes beyond a comma, or beyond the end of the list. -/
theorem Proper.inside (h : item.Proper) : ∀ c ∈ item.text, c ≠ ',' ∧ c ≠ '\x7d' := by
  have hname := h.name.inside
  have hcore : ∀ c ∈ item.core, c ≠ ',' ∧ c ≠ '\x7d' := by
    unfold core
    cases hrenamed : item.renamed with
    | none => exact hname
    | some r =>
      obtain ⟨before, behind, lcl⟩ := r
      obtain ⟨hbefore, hbehind, hlcl⟩ := h.renamed _ hrenamed
      intro c hc
      rcases List.mem_append.mp hc with hc | hc
      · exact (List.mem_append.mp hc).elim (hname c) (hbefore.inside c)
      rcases List.mem_append.mp hc with hc | hc
      · exact inside_as c hc
      · exact (List.mem_append.mp hc).elim (hbehind.inside c) (hlcl.inside c)
  intro c hc
  rcases List.mem_append.mp hc with hc | hc
  · exact (List.mem_append.mp hc).elim (h.lead.inside c) (hcore c)
  · exact h.trail.inside c hc

end ListItem

/-! ## Lists -/

/-- The text of an import list: items with commas between them, and at the end a comma with blanks behind it
where the list has one. -/
def listText (items : List ListItem) (trailing : Option (List Char)) : List Char :=
  List.intercalate [','] (items.map ListItem.text ++ trailing.toList)

variable {items : List ListItem} {trailing : Option (List Char)}

theorem listText_pieces (hitems : ∀ item ∈ items, item.Proper) (htrailing : ∀ cs ∈ trailing, AllBlank cs) :
    ∀ piece ∈ items.map ListItem.text ++ trailing.toList, ∀ c ∈ piece, c ≠ ',' ∧ c ≠ '\x7d' := by
  intro piece hpiece
  rcases List.mem_append.mp hpiece with hpiece | hpiece
  · obtain ⟨item, hitem, rfl⟩ := List.mem_map.mp hpiece
    exact (hitems item hitem).inside
  · exact (htrailing piece (Option.mem_toList.mp hpiece)).inside

/-- The items of a list are read one by one. -/
theorem namePair_texts (hitems : ∀ item ∈ items, item.Proper) :
    (((items.map ListItem.text).map trim).filter fun item => !item.isEmpty).map Pattern.namePair
      = items.map ListItem.pair := by
  have htrim : (items.map ListItem.text).map trim = items.map ListItem.core := by
    rw [List.map_map]
    exact List.map_congr_left fun item hitem => (hitems item hitem).trim_text
  have hkept : ((items.map ListItem.core).filter fun item => !item.isEmpty) = items.map ListItem.core := by
    apply List.filter_eq_self.mpr
    intro cs hcs
    obtain ⟨item, hitem, rfl⟩ := List.mem_map.mp hcs
    have hne := (hitems item hitem).trimmed_core.2
    simp [hne]
  rw [htrim, hkept, List.map_map]
  exact List.map_congr_left fun item hitem => (hitems item hitem).namePair_core

/-- A list of names is read as the pairs that it says. -/
theorem namePairs_listText (hitems : ∀ item ∈ items, item.Proper)
    (htrailing : ∀ cs ∈ trailing, AllBlank cs) :
    Pattern.namePairs (listText items trailing) = items.map ListItem.pair := by
  -- a comma at the end leaves a piece of blanks
  have hblank : ((trailing.toList.map trim).filter fun item => !item.isEmpty) = [] := by
    cases trailing with
    | none => rfl
    | some cs =>
      have hcs : trim cs = [] := trim_of_blank (htrailing cs rfl)
      simp [hcs]
  have hsplit : ((splitWhere (· == ',') (listText items trailing)).map trim).filter (fun item => !item.isEmpty)
      = ((items.map ListItem.text ++ trailing.toList).map trim).filter fun item => !item.isEmpty := by
    by_cases hempty : items.map ListItem.text ++ trailing.toList = []
    · unfold listText
      rw [hempty]
      rfl
    · unfold listText
      rw [splitWhere_intercalate (by rfl) hempty fun piece hpiece c hc => by
        simpa using (listText_pieces hitems htrailing piece hpiece c hc).1]
  unfold Pattern.namePairs
  rw [hsplit, List.map_append, List.filter_append, hblank, List.append_nil, namePair_texts hitems]

/-! ## Statements -/

theorem mem_intercalate {s c : Char} :
    ∀ {pieces : List (List Char)}, c ∈ List.intercalate [s] pieces → c = s ∨ ∃ piece ∈ pieces, c ∈ piece
  | [], h => absurd h List.not_mem_nil
  | [piece], h => by
    rw [List.intercalate_singleton] at h
    exact .inr ⟨piece, List.mem_cons_self, h⟩
  | piece :: next :: pieces, h => by
    rw [List.intercalate_cons_cons, List.append_assoc] at h
    rcases List.mem_append.mp h with h | h
    · exact .inr ⟨piece, List.mem_cons_self, h⟩
    rcases List.mem_append.mp h with h | h
    · exact .inl (List.mem_singleton.mp h)
    · rcases mem_intercalate h with h | ⟨other, hother, h⟩
      · exact .inl h
      · exact .inr ⟨other, List.mem_cons_of_mem _ hother, h⟩

theorem listText_inside (hitems : ∀ item ∈ items, item.Proper) (htrailing : ∀ cs ∈ trailing, AllBlank cs) :
    ∀ c ∈ listText items trailing, (c != '\x7d') = true := by
  intro c hc
  rw [bne_iff_ne]
  rcases mem_intercalate hc with rfl | ⟨piece, hpiece, hc⟩
  · decide
  · exact (listText_pieces hitems htrailing piece hpiece c hc).2

/-- White space ends at the next character that is none. -/
theorem eq_of_space? {blanks cs rest : List Char} {c : Char} (hblanks : AllBlank blanks)
    (hc : isBlank c = false) (h : Pattern.space? (blanks ++ c :: cs) = some rest) : rest = c :: cs := by
  cases blanks with
  | nil =>
    simp only [List.nil_append, Pattern.space?, hc] at h
    cases h
  | cons d blanks =>
    have hd : isBlank d = true := hblanks d List.mem_cons_self
    simp only [List.cons_append, Pattern.space?, hd, if_true, Pattern.spaces, Option.some.injEq] at h
    rw [← h, List.dropWhile_append_of_pos fun e he => hblanks e (List.mem_cons_of_mem _ he),
      List.dropWhile_cons_of_neg (by rw [hc]; exact Bool.false_ne_true)]

/-- A list ends at its brace. -/
theorem binding?_list {cs behind : List Char} (hcs : ∀ c ∈ cs, (c != '\x7d') = true) :
    Pattern.binding? ('\x7b' :: (cs ++ '\x7d' :: behind)) = some (.named (Pattern.namePairs cs), behind) := by
  unfold Pattern.binding?
  simp only
  rw [List.takeWhile_append_of_pos hcs, List.dropWhile_append_of_pos hcs,
    List.takeWhile_cons_of_neg (by decide), List.dropWhile_cons_of_neg (by decide), List.append_nil]

/-- An import whose list is made of items binds the pairs that the items say. -/
theorem binding_of_list {file source : String} {script : Script} {ds : List Diagnostic} {i : Import}
    {blanks behind : List Char} (hread : read file source = .ok (script, ds)) (hi : i ∈ script.imports)
    (hblanks : AllBlank blanks) (hitems : ∀ item ∈ items, item.Proper)
    (htrailing : ∀ cs ∈ trailing, AllBlank cs)
    (hhere : Stands source.toList i.span.start
      ("import".toList ++ (blanks ++ '\x7b' :: (listText items trailing ++ '\x7d' :: behind)))) :
    i.binding = .named (items.map ListItem.pair) := by
  obtain ⟨-, -, here, rest, hstands, hfound⟩ := importPlaced_of_read hread hi
  have hword := hstands.eq_of hhere
  -- either form passes the word and the white space behind it
  have hbehind : ∀ r r', Pattern.token "import" here = some r → Pattern.space? r = some r' →
      r' = '\x7b' :: (listText items trailing ++ '\x7d' :: behind) := by
    intro r r' htoken hspace
    obtain rfl := List.append_cancel_left (hword.symm.trans (Pattern.token_eq htoken))
    exact eq_of_space? hblanks rfl hspace
  rcases hfound with hfound | hfound
  · obtain ⟨r, r', r'', htoken, hspace, hbinding, -⟩ := Pattern.importFrom?_parts hfound
    obtain rfl := hbehind r r' htoken hspace
    rw [binding?_list (listText_inside hitems htrailing), namePairs_listText hitems htrailing] at hbinding
    exact (congrArg Prod.fst (Option.some.inj hbinding)).symm
  · obtain ⟨r, r', r'', htoken, hspace, hquoted, -⟩ := Pattern.importBare?_parts hfound
    obtain rfl := hbehind r r' htoken hspace
    cases hquoted

/-- Another blank than a space beside the word: the item is one name. -/
example : Pattern.namePairs "a\tas b".toList = [("a\tas b", "a\tas b")] := by decide

end Script

end Bundler

/-
Nodes are well placed.

Reading a script takes its text apart at many places: where patterns match, where literals and brackets
end, at commas, and at the white space around what was found. No cut falls inside a character, whatever the
text is, and the nodes that come out stand where a node may stand (`Script.WellPlaced`).

The literals of a text follow one another, so a place is searched for among them as in any list that is in
order, and it is in a literal just if the search says so (`Literals.contains_iff`). Each kind of node is
then followed from its match to its span. For the calls one bound goes along: the end of the last call,
behind which all later ones start.
-/
import Bundler.Proofs.CallTexts
import Bundler.Proofs.ModuleSyntax

set_option autoImplicit false

namespace Bundler

open Text Step

namespace Script

/-! ## Literals in order -/

/-- Each literal ends before the next one starts. -/
theorem pairwise_literalsFrom : ∀ {pos : Nat} {m : Mode}, (∀ start ∈ m.start?, start ≤ pos) →
    ∀ cs : List Char, (literalsFrom pos m cs).Pairwise fun r r' => r.2 ≤ r'.1
  | pos, m, _, [] => by
    cases m with
    | code => exact .nil
    | line start | block start skip | closing start | quoted start quote escaped =>
      exact List.pairwise_singleton _ _
  | pos, m, hm, c :: cs => by
    have hnext := Mode.start?_next hm c cs.head?
    have hrest := pairwise_literalsFrom (fun start h => (hnext start h).2) cs
    rw [literalsFrom_cons]
    apply List.pairwise_append.mpr
    refine ⟨?_, hrest, ?_⟩
    · unfold Mode.completed
      split
      · exact List.pairwise_singleton _ _
      · exact .nil
    · intro r hr r' hr'
      -- a character that completes a literal leads to code, so the next literal starts behind it
      have hcode : m.next pos c cs.head? = .code := by
        apply Mode.eq_code
        rw [Mode.situation_next]
        unfold Mode.completed at hr
        split at hr
        · assumption
        · cases hr
      rw [hcode] at hr'
      have hstop := (Mode.mem_completed hr).2.2
      have hstart : pos + c.utf8Size ≤ r'.1 := le_of_mem_literalsFrom (Mode.start?_code _) hr'
      omega

/-- Each literal starts and ends between two characters, and it is not empty. -/
theorem stands_of_mem_literalsFrom {text : List Char} :
    ∀ {pos : Nat} {m : Mode} {cs : List Char}, Stands text pos cs →
      (∀ start ∈ m.start?, start < pos ∧ ∃ rest, Stands text start rest) →
      ∀ r ∈ literalsFrom pos m cs,
        (∃ rest, Stands text r.1 rest) ∧ (∃ rest, Stands text r.2 rest) ∧ r.1 < r.2
  | pos, m, [], hpos, hm, r, hr => by
    have hopen : m.start? = some r.1 ∧ r.2 = pos := by
      cases m with
      | code => cases hr
      | line start | block start skip | closing start | quoted start quote escaped =>
        obtain rfl := List.mem_singleton.mp hr
        exact ⟨rfl, rfl⟩
    obtain ⟨hlt, hstart⟩ := hm r.1 hopen.1
    rw [hopen.2]
    exact ⟨hstart, ⟨_, hpos⟩, hlt⟩
  | pos, m, c :: cs, hpos, hm, r, hr => by
    have hsize := c.utf8Size_pos
    have hbehind : Stands text (pos + c.utf8Size) cs := hpos.append [c]
    rw [literalsFrom_cons] at hr
    rcases List.mem_append.mp hr with hr | hr
    · obtain ⟨hlt, hstart⟩ := hm r.1 (Mode.mem_completed hr).1
      have hle := (Mode.mem_completed hr).2.1
      refine ⟨hstart, ?_, by omega⟩
      unfold Mode.completed at hr
      split at hr
      · obtain rfl := List.mem_singleton.mp hr
        dsimp only
        split
        · exact ⟨_, hpos⟩
        · exact ⟨_, hbehind⟩
      · cases hr
    · refine stands_of_mem_literalsFrom hbehind ?_ r hr
      intro start hstart
      -- the literal was open before, or it starts with this character
      have hfrom : start = m.start?.getD pos := by
        unfold Mode.next at hstart
        split at hstart <;> cases hstart <;> rfl
      cases hopen : m.start? with
      | none =>
        rw [hopen] at hfrom
        rw [hfrom]
        exact ⟨Nat.lt_add_of_pos_right hsize, _, hpos⟩
      | some earlier =>
        rw [hopen] at hfrom
        obtain ⟨hlt, hstands⟩ := hm earlier hopen
        rw [hfrom]
        exact ⟨Nat.lt_add_right _ hlt, hstands⟩

namespace Literals

/-- Among literals in order, the one that is found is the one that a place is in. -/
theorem containing_iff_of_pairwise {pos stop : Nat} {ranges : List (Nat × Nat)}
    (hsorted : ranges.Pairwise fun r r' => r.2 ≤ r'.1) :
    containing ⟨ranges⟩ pos = some stop ↔ ∃ start, (start, stop) ∈ ranges ∧ start ≤ pos ∧ pos < stop := by
  induction ranges with
  | nil => simp [containing]
  | cons r rs ih =>
    obtain ⟨hfirst, hrest⟩ := List.pairwise_cons.mp hsorted
    by_cases hbefore : r.2 ≤ pos
    · have hskip : containing ⟨[r] ++ rs⟩ pos = containing ⟨rs⟩ pos :=
        containing_append (List.forall_mem_singleton.mpr hbefore)
      rw [← List.singleton_append, hskip, ih hrest]
      constructor
      · rintro ⟨start, hmem, hin⟩
        exact ⟨start, List.mem_cons_of_mem _ hmem, hin⟩
      · rintro ⟨start, hmem, hin⟩
        rcases List.mem_cons.mp hmem with rfl | hmem
        · exact absurd hbefore (by omega)
        · exact ⟨start, hmem, hin⟩
    · by_cases hstart : r.1 ≤ pos
      · have hfound : containing ⟨(r.1, r.2) :: rs⟩ pos = some r.2 :=
          containing_cons hstart (by omega)
        rw [show r :: rs = (r.1, r.2) :: rs from rfl, hfound]
        constructor
        · intro h
          cases h
          exact ⟨r.1, List.mem_cons_self, hstart, by omega⟩
        · rintro ⟨start, hmem, hin⟩
          rcases List.mem_cons.mp hmem with heq | hmem
          · exact congrArg some (Prod.mk.inj heq).2.symm
          · have := hfirst _ hmem
            simp only at this
            omega
      · -- all that follows starts behind this literal
        have hbehind : ∀ r' ∈ r :: rs, pos < r'.1 := by
          intro r' hr'
          rcases List.mem_cons.mp hr' with rfl | hr'
          · omega
          · have := hfirst r' hr'
            omega
        rw [containing_eq_none hbehind]
        constructor
        · intro h
          cases h
        · rintro ⟨start, hmem, hin⟩
          have := hbehind _ hmem
          simp only at this
          omega

/-- Among literals in order, a place is in one of them just if it is found in one. -/
theorem contains_iff_of_pairwise {pos : Nat} {ranges : List (Nat × Nat)}
    (hsorted : ranges.Pairwise fun r r' => r.2 ≤ r'.1) :
    contains ⟨ranges⟩ pos = true ↔ ∃ r ∈ ranges, r.1 ≤ pos ∧ pos < r.2 := by
  rw [contains, Option.isSome_iff_exists]
  constructor
  · rintro ⟨stop, h⟩
    obtain ⟨start, hmem, hin⟩ := (containing_iff_of_pairwise hsorted).mp h
    exact ⟨_, hmem, hin⟩
  · rintro ⟨r, hmem, hin⟩
    exact ⟨r.2, (containing_iff_of_pairwise hsorted).mpr ⟨r.1, hmem, hin⟩⟩

/-- The literal of a text that is found around a place is the one that the place is in. -/
theorem containing_iff (text : List Char) (pos stop : Nat) : (scan text).containing pos = some stop ↔
    ∃ start, (start, stop) ∈ (scan text).ranges ∧ start ≤ pos ∧ pos < stop :=
  containing_iff_of_pairwise (pairwise_literalsFrom (Mode.start?_code 0) text)

/-- A place is in a literal of a text just if it is found in one. -/
theorem contains_iff (text : List Char) (pos : Nat) :
    (scan text).contains pos = true ↔ ∃ r ∈ (scan text).ranges, r.1 ≤ pos ∧ pos < r.2 :=
  contains_iff_of_pairwise (pairwise_literalsFrom (Mode.start?_code 0) text)

/-- The literals of a text begin and end between two characters. -/
theorem stands_of_mem_scan {text : List Char} {r : Nat × Nat} (hr : r ∈ (scan text).ranges) :
    (∃ rest, Stands text r.1 rest) ∧ (∃ rest, Stands text r.2 rest) ∧ r.1 < r.2 :=
  stands_of_mem_literalsFrom (.start text) (fun _ h => (by cases h)) r hr

/-- A place is in none of the literals of a text. -/
def Outside (text : List Char) (pos : Nat) : Prop :=
  ∀ r ∈ (scan text).ranges, pos < r.1 ∨ r.2 ≤ pos

theorem outside_of_contains {text : List Char} {pos : Nat} (h : (scan text).contains pos = false) :
    Outside text pos := by
  intro r hr
  by_contra hinside
  have hfound : (scan text).contains pos = true :=
    (contains_iff text pos).mpr ⟨r, hr, by omega, by omega⟩
  rw [h] at hfound
  cases hfound

/-! ## Arguments -/

/-- The first piece of a text is what it starts with, and the others are parts of it. -/
theorem exists_infix_splitCommas (ls : Literals) : ∀ (cs : List Char) (pos depth : Nat),
    ∃ first more, ls.splitCommas pos depth cs = (pos, first) :: more ∧ first <+: cs ∧
      ∀ p ∈ more, p.2 <:+: cs
  | [], pos, depth => ⟨[], [], rfl, List.prefix_refl _, fun p hp => absurd hp List.not_mem_nil⟩
  | c :: cs, pos, depth => by
    have hextended : ∀ d, ∃ first more,
        extended pos [c] (ls.splitCommas (pos + c.utf8Size) d cs) = (pos, first) :: more ∧
          first <+: c :: cs ∧ ∀ p ∈ more, p.2 <:+: c :: cs := by
      intro d
      obtain ⟨first, more, heq, hfirst, hmore⟩ :=
        exists_infix_splitCommas ls cs (pos + c.utf8Size) d
      rw [heq]
      refine ⟨c :: first, more, rfl, (List.prefix_cons_inj c).mpr hfirst, ?_⟩
      intro p hp
      exact List.infix_cons (hmore p hp)
    rw [splitCommas_eq]
    split
    · exact hextended depth
    split
    · exact hextended (depth + 1)
    split
    · exact hextended (depth - 1)
    split
    · obtain ⟨first, more, heq, hfirst, hmore⟩ :=
        exists_infix_splitCommas ls cs (pos + c.utf8Size) depth
      refine ⟨[], (pos + c.utf8Size, first) :: more, by rw [heq], List.nil_prefix, ?_⟩
      intro p hp
      rcases List.mem_cons.mp hp with rfl | hp
      · exact List.infix_cons hfirst.isInfix
      · exact List.infix_cons (hmore p hp)
    · exact hextended depth

theorem infix_trim (cs : List Char) : trim cs <:+: cs := by
  obtain ⟨behind, heq, -⟩ := exists_trim cs
  refine ⟨cs.takeWhile isBlank, behind, ?_⟩
  rw [List.append_assoc]
  exact heq.symm

/-- An argument is a part of what stands between the parentheses. -/
theorem infix_of_mem_splitArguments {ls : Literals} {pos : Nat} {inside : List Char} {p : Piece}
    (hp : p ∈ ls.splitArguments pos inside) : p.2 <:+: inside := by
  have hmem : p ∈ (ls.splitCommas pos 0 inside).map trimPiece := by
    unfold splitArguments at hp
    simp only at hp
    split at hp
    · exact (List.dropLast_sublist _).subset hp
    · exact hp
  obtain ⟨q, hq, rfl⟩ := List.mem_map.mp hmem
  have hpiece : q.2 <:+: inside := by
    obtain ⟨first, more, heq, hfirst, hmore⟩ := exists_infix_splitCommas ls inside pos 0
    rw [heq] at hq
    rcases List.mem_cons.mp hq with rfl | hq
    · exact hfirst.isInfix
    · exact hmore q hq
  rw [trimPiece_snd]
  exact (infix_trim q.2).trans hpiece

end Literals

/-- A text that is kept is the text that was read. -/
theorem readExpr_eq_raw {ls : Literals} {pos : Nat} {text : List Char} {kept : String}
    (h : readExpr ls pos text = .raw kept) : kept.toList = text := by
  unfold readExpr at h
  split at h
  · cases h
  simp only at h
  split at h
  · cases h
  split at h
  · cases h
  split at h
  · cases h
  split at h
  · cases h
  · cases h
    exact String.toList_ofList

end Script

/-! ## Spans -/

/-- A span of a text begins and ends between two characters, it is not empty, and its lines and columns
are those of its ends. -/
structure Span.Placed (text : List Char) (s : Span) : Prop extends Span.Fits text s where
  counted : Span.ofOffsets text s.start s.stop = .ok s

namespace Span

variable {text : List Char} {s : Span}

theorem ofOffsets_ok {start stop : Nat} (h : ofOffsets text start stop = .ok s) :
    s.start = start ∧ s.stop = stop := (ofOffsets_ok_iff.mp h).1

theorem Fits.placed {start stop : Nat} (hfits : s.Fits text)
    (h : ofOffsets text start stop = .ok s) : s.Placed text := by
  refine ⟨hfits, ?_⟩
  obtain ⟨hstart, hstop⟩ := ofOffsets_ok h
  rw [hstart, hstop]
  exact h

theorem length_le_size : ∀ cs : List Char, cs.length ≤ size cs
  | [] => Nat.le_refl 0
  | c :: cs => by
    have hpos := c.utf8Size_pos
    have hrest := length_le_size cs
    rw [List.length_cons, size]
    omega

theorem length_lastLine_le (before : List Char) : (lastLine before).length ≤ before.length := by
  unfold lastLine
  split
  · rename_i earlier rest hsplit
    obtain ⟨c, -, heq, -⟩ := of_splitLast?_eq_some hsplit
    rw [heq, List.length_append, List.length_cons]
    omega
  · exact Nat.le_refl _

theorem position_le {rest : List Char} {pos : Nat} {p : Nat × Nat}
    (h : Stands text pos rest) (hp : position text pos = .ok p) :
    p.1 ≤ size text + 1 ∧ p.2 ≤ size text + 1 := by
  obtain ⟨before, rfl, rfl⟩ := h
  have hsize := length_le_size before
  have hbreaks : lineBreaks before ≤ before.length := List.count_le_length
  have hlast := length_lastLine_le before
  rw [position_size] at hp
  cases hp
  rw [size_append]
  unfold positionAfter
  constructor <;> simp only <;> omega

/-- Lines and columns are at most one more than the number of bytes, so those of a text of less than
2 ^ 32 - 1 bytes are numbers of 32 bits. -/
theorem Placed.le_size (h : s.Placed text) :
    ∀ n ∈ [s.line, s.column, s.endLine, s.endColumn], n ≤ size text + 1 := by
  obtain ⟨rest, hstart⟩ := h.start
  obtain ⟨rest', hstop⟩ := h.stop
  obtain ⟨-, hp, hp'⟩ := ofOffsets_ok_iff.mp h.counted
  have hle := position_le hstart hp
  have hle' := position_le hstop hp'
  intro n hn
  simp only [List.mem_cons, List.not_mem_nil, or_false] at hn
  rcases hn with rfl | rfl | rfl | rfl <;> omega

end Span

namespace Script

/-! ## Scripts -/

/-- The spans that the nodes of a script begin with. -/
def heads (s : Script) : List Span :=
  s.imports.map (·.span) ++ s.exports.map Prod.snd ++ s.calls.map (·.span)

/-- All spans of a script. -/
def spans (s : Script) : List Span := s.heads ++ s.constants.map (·.initSpan)

/-- Nodes stand where they may: each span is a part of the text, imports and calls are in order and calls
do not overlap, no node starts in a literal, initializers are texts without blanks at their ends that
follow their keyword, and an argument that is kept as a text is a part of its call. -/
structure WellPlaced (s : Script) : Prop where
  spans : ∀ span ∈ s.spans, span.Placed s.source.toList
  numbers : ∀ span ∈ s.spans, ∀ n ∈ [span.line, span.column, span.endLine, span.endColumn],
    n ≤ size s.source.toList + 1
  imports : s.imports.Pairwise fun i j => i.span.start ≤ j.span.start
  calls : s.calls.Pairwise fun c d => c.span.stop ≤ d.span.start
  outside : ∀ span ∈ s.heads, Literals.Outside s.source.toList span.start
  initializers : ∀ c ∈ s.constants, c.keyword.stop ≤ c.initSpan.start ∧
    ∃ init, slice? s.source.toList c.initSpan.start c.initSpan.stop = some init ∧ init ≠ [] ∧
      Trimmed init
  arguments : ∀ c ∈ s.calls, ∀ kept, .raw kept ∈ c.args → ∃ start stop,
    c.span.start < start ∧ start ≤ stop ∧ stop < c.span.stop ∧
      slice? s.source.toList start stop = some kept.toList

/-! ## Imports and exports -/

variable {text : List Char} {ls : Literals}

theorem exists_of_mem_mapM {α β : Type} {f : α → Except Fault β} {b : β} :
    ∀ {as : List α} {bs : List β}, as.mapM f = .ok bs → b ∈ bs → ∃ a ∈ as, f a = .ok b
  | [], bs, h, hb => by
    cases h
    exact absurd hb List.not_mem_nil
  | a :: as, bs, h, hb => by
    rw [List.mapM_cons] at h
    obtain ⟨first, hfirst, h⟩ := (except_bind_ok_iff _ _ _).mp h
    obtain ⟨rest, hrest, h⟩ := (except_bind_ok_iff _ _ _).mp h
    cases h
    rcases List.mem_cons.mp hb with rfl | hb
    · exact ⟨a, List.mem_cons_self, hfirst⟩
    · obtain ⟨a', ha', hone⟩ := exists_of_mem_mapM hrest hb
      exact ⟨a', List.mem_cons_of_mem _ ha', hone⟩

/-- An import is placed, it starts outside of literals, and it was read by one of the two patterns. -/
structure ImportPlaced (text : List Char) (ls : Literals) (i : Import) : Prop where
  span : i.span.Placed text
  outside : ls.contains i.span.start = false
  found : ∃ here behind, Stands text i.span.start here ∧
    (Pattern.importFrom? here = some ((i.binding, i.specifier), behind) ∨
      Pattern.importBare? here = some ((i.binding, i.specifier), behind))

theorem importOf_placed {pattern : List Char → Option ((Binding × String) × List Char)}
    (hpattern : ∀ cs v rest, pattern cs = some (v, rest) → Pattern.Behind "import" cs rest)
    (hkind : ∀ cs v, pattern cs = some v → Pattern.importFrom? cs = some v ∨ Pattern.importBare? cs = some v)
    {m : Match (Binding × String)} {i : Import} (hm : m ∈ statements text ls pattern)
    (h : importOf text m = .ok i) : ImportPlaced text ls i := by
  obtain ⟨i', hi', -, hfits⟩ := importOf_ok hpattern hm
  obtain rfl : i' = i := Except.ok.inj (hi'.symm.trans h)
  obtain ⟨here, behind, hsome, -, hstart, -, houtside⟩ :=
    stands_of_mem_statements (fun _ _ _ h => (hpattern _ _ _ h).suffix) hm
  unfold importOf at h
  obtain ⟨span, hspan, h⟩ := (except_bind_ok_iff _ _ _).mp h
  obtain ⟨hat, -⟩ := Span.ofOffsets_ok hspan
  have heq := Except.ok.inj h
  rw [← heq] at hfits ⊢
  refine ⟨hfits.placed hspan, ?_, here, behind, ?_, hkind here _ hsome⟩
  · rw [hat]
    exact houtside
  · rw [hat]
    exact hstart

theorem readImports_placed {imports : List Import} (h : readImports text ls = .ok imports) :
    imports.Pairwise (fun i j => i.span.start ≤ j.span.start) ∧
      ∀ i ∈ imports, ImportPlaced text ls i := by
  unfold readImports at h
  obtain ⟨named, hnamed, h⟩ := (except_bind_ok_iff _ _ _).mp h
  obtain ⟨bare, hbare, h⟩ := (except_bind_ok_iff _ _ _).mp h
  cases h
  refine ⟨Span.pairwise_inOrder _ _, ?_⟩
  intro i hi
  rw [(Span.perm_inOrder _ _).mem_iff] at hi
  rcases List.mem_append.mp hi with hi | hi
  · obtain ⟨m, hm, hone⟩ := exists_of_mem_mapM hnamed hi
    exact importOf_placed (fun _ _ _ => Pattern.importFrom?_behind) (fun _ _ => .inl) hm hone
  · obtain ⟨m, hm, hone⟩ := exists_of_mem_mapM hbare hi
    exact importOf_placed (fun _ _ _ => Pattern.importBare?_behind) (fun _ _ => .inr) hm hone

/-- Each import of a script that was read is placed. -/
theorem importPlaced_of_read {file source : String} {s : Script} {ds : List Diagnostic} {i : Import}
    (h : read file source = .ok (s, ds)) (hi : i ∈ s.imports) :
    ImportPlaced source.toList (.scan source.toList) i := by
  unfold read at h
  obtain ⟨imports, himports, h⟩ := (except_bind_ok_iff _ _ _).mp h
  obtain ⟨constants, -, h⟩ := (except_bind_ok_iff _ _ _).mp h
  obtain ⟨functions, -, h⟩ := (except_bind_ok_iff _ _ _).mp h
  obtain ⟨⟨calls, ds'⟩, -, h⟩ := (except_bind_ok_iff _ _ _).mp h
  cases h
  exact (readImports_placed himports).2 i hi

/-- The keyword of an export is placed, as far as the pattern leaves its end. -/
theorem keywordSpan_placed {pattern : List Char → Option ((List Char × String) × List Char)}
    (hpattern : ∀ cs v rest, pattern cs = some (v, rest) →
      Pattern.Behind "export" cs v.1 ∧ rest <:+ v.1)
    {m : Match (List Char × String)} {span : Span} (hm : m ∈ statements text ls pattern)
    (h : keywordSpan text m.start m.value.1 = .ok span) :
    span.Placed text ∧ ls.contains span.start = false ∧ span.stop ≤ m.stop := by
  obtain ⟨here, behind, hsome, hhere, hstart, hstop, houtside⟩ := stands_of_mem_statements
    (fun _ _ _ h => (hpattern _ _ _ h).2.trans (hpattern _ _ _ h).1.suffix) hm
  obtain ⟨hkeyword, hrest⟩ := hpattern _ _ _ hsome
  obtain ⟨span', hspan, hat, hfits⟩ := hstart.span hkeyword.suffix (hkeyword.size_lt (by decide))
  obtain rfl : span' = span := Except.ok.inj (hspan.symm.trans h)
  refine ⟨hfits.placed h, by rw [hat]; exact houtside, ?_⟩
  -- what the whole pattern leaves is an end of what its keyword leaves
  obtain ⟨between, hbetween⟩ := hrest
  have hsize := congrArg size hbetween
  rw [size_append] at hsize
  rw [(Span.ofOffsets_ok h).2, hstop.eq_sub]
  omega

theorem le_trimPiece (p : Literals.Piece) : p.1 ≤ (Literals.trimPiece p).1 := by
  unfold Literals.trimPiece
  simp only
  split
  · exact Nat.le_refl _
  · exact Nat.le_add_right _ _

/-- A constant is placed, and its initializer is what is left of its statement without blanks. -/
theorem constantOf?_placed {m : Match (List Char × String)} {c : ExportedConstant}
    (hm : m ∈ statements text ls Pattern.exportConst?) (h : constantOf? text ls m = .ok (some c)) :
    c.keyword.Placed text ∧ c.initSpan.Placed text ∧ ls.contains c.keyword.start = false ∧
      c.keyword.stop ≤ c.initSpan.start ∧
      ∃ init, slice? text c.initSpan.start c.initSpan.stop = some init ∧ init ≠ [] ∧ Trimmed init := by
  obtain ⟨here, behind, -, -, -, hstop, -⟩ := stands_of_mem_statements
    (fun _ _ _ h => (Pattern.exportConst?_behind h).2.trans (Pattern.exportConst?_behind h).1.suffix) hm
  obtain ⟨more, hmore⟩ := isPrefix_statement ls behind m.stop 0
  have hpiece := hstop
  rw [← hmore] at hpiece
  obtain ⟨after, hinit⟩ := stands_trimPiece hpiece
  have htrimmed := trimmed_trim (ls.statement m.stop 0 behind)
  rw [← Literals.trimPiece_snd (m.stop, ls.statement m.stop 0 behind)] at htrimmed
  have hle := le_trimPiece (m.stop, ls.statement m.stop 0 behind)
  unfold constantOf? at h
  obtain ⟨behind', hcut, h⟩ := (except_bind_ok_iff _ _ _).mp h
  obtain rfl : behind = behind' := Option.some.inj (hstop.dropBytes?.symm.trans (Fault.ofCut_ok hcut))
  generalize Literals.trimPiece (m.stop, ls.statement m.stop 0 behind) = piece at hinit htrimmed hle h
  obtain ⟨start, init⟩ := piece
  simp only at hinit htrimmed hle h
  split at h
  · cases h
  · rename_i hne
    obtain ⟨keyword, hkeyword, h⟩ := (except_bind_ok_iff _ _ _).mp h
    obtain ⟨initSpan, hinitSpan, h⟩ := (except_bind_ok_iff _ _ _).mp h
    obtain ⟨hplaced, houtside, hkeywordStop⟩ :=
      keywordSpan_placed (fun _ _ _ => Pattern.exportConst?_behind) hm hkeyword
    have heq := Option.some.inj (Except.ok.inj h)
    have hinitNe : init ≠ [] := by
      intro hnil
      exact hne (hnil ▸ rfl)
    obtain ⟨hat, hend⟩ := Span.ofOffsets_ok hinitSpan
    have hlt : initSpan.start < initSpan.stop := by
      cases init with
      | nil => exact absurd rfl hinitNe
      | cons d ds =>
        have hpos := d.utf8Size_pos
        rw [hat, hend, size]
        omega
    have hfits : initSpan.Fits text := ⟨⟨_, hat ▸ hinit⟩, ⟨_, hend ▸ hinit.append init⟩, hlt⟩
    rw [← heq]
    refine ⟨hplaced, hfits.placed hinitSpan, houtside, ?_, init, ?_, hinitNe, htrimmed⟩
    · simp only
      omega
    · simp only
      rw [hat, hend]
      exact hinit.slice?

theorem readConstants_placed {constants : List ExportedConstant}
    (h : readConstants text ls = .ok constants) {c : ExportedConstant} (hc : c ∈ constants) :
    c.keyword.Placed text ∧ c.initSpan.Placed text ∧ ls.contains c.keyword.start = false ∧
      c.keyword.stop ≤ c.initSpan.start ∧
      ∃ init, slice? text c.initSpan.start c.initSpan.stop = some init ∧ init ≠ [] ∧ Trimmed init := by
  unfold readConstants at h
  obtain ⟨found, hfound, h⟩ := (except_bind_ok_iff _ _ _).mp h
  cases h
  obtain ⟨c', hc', rfl⟩ := List.mem_filterMap.mp hc
  obtain ⟨m, hm, hone⟩ := exists_of_mem_mapM hfound hc'
  exact constantOf?_placed hm hone

theorem readFunctions_placed {functions : List ExportedFunction}
    (h : readFunctions text ls = .ok functions) {f : ExportedFunction} (hf : f ∈ functions) :
    f.keyword.Placed text ∧ ls.contains f.keyword.start = false := by
  obtain ⟨m, hm, hone⟩ := exists_of_mem_mapM h hf
  obtain ⟨span, hspan, hone⟩ := (except_bind_ok_iff _ _ _).mp hone
  obtain ⟨hplaced, houtside, -⟩ :=
    keywordSpan_placed (fun _ _ _ => Pattern.exportFunction?_behind) hm hspan
  cases hone
  exact ⟨hplaced, houtside⟩

/-! ## Calls -/

/-- A call is placed, it starts outside of literals, and its arguments are read from what stands between
its parentheses. -/
structure CallPlaced (text : List Char) (ls : Literals) (c : Call) : Prop where
  span : c.span.Placed text
  outside : ls.contains c.span.start = false
  inside : ∃ opening inside behind, Stands text (opening + 1) (inside ++ behind) ∧
    c.span.start ≤ opening ∧ c.span.stop = opening + 1 + size inside + 1 ∧
    c.args = (ls.splitArguments (opening + 1) inside).map fun p => readExpr ls p.1 p.2

/-- The parenthesis that opens a call closes nothing, so the call ends behind it. -/
theorem findClose_open_eq_some {opening closing : Nat} {rest : List Char}
    (h : ls.findClose opening 0 ('(' :: rest) = some closing) : ∃ args c behind,
      rest = args ++ c :: behind ∧ Literals.isClosing c = true ∧ closing = opening + 1 + size args := by
  obtain ⟨before, c, behind, heq, hclosing, hat⟩ := findClose_eq_some h
  cases before with
  | nil =>
    cases heq
    exact absurd hclosing (by decide)
  | cons d args =>
    cases heq
    refine ⟨args, c, behind, rfl, hclosing, ?_⟩
    rw [hat, size, Nat.add_assoc]
    rfl

/-- What stands between the parentheses of a call, which come behind the place where it starts. -/
theorem stands_inside {here paren inside : List Char} {v : Option String × String} {closing : Nat}
    (hhere : here <:+ text) (hcall : Pattern.call? here = some (v, paren))
    (hclose : ls.findClose (size text - size paren) 0 paren = some closing)
    (hinside : Fault.ofCut (slice? text (size text - size paren + 1) closing) = .ok inside) :
    ∃ behind, Stands text (size text - size paren + 1) (inside ++ behind) ∧
      size text - size here ≤ size text - size paren ∧
      closing = size text - size paren + 1 + size inside := by
  obtain ⟨hparen, rest, rfl⟩ := Pattern.call?_suffix hcall
  have hopening := Stands.of_suffix (hparen.trans hhere)
  obtain ⟨args, last, behind, rfl, -, rfl⟩ := findClose_open_eq_some hclose
  have hargs : Stands text _ (args ++ last :: behind) := hopening.append ['(']
  obtain rfl : args = inside := Option.some.inj (hargs.slice?.symm.trans (Fault.ofCut_ok hinside))
  obtain ⟨word, rfl⟩ := hparen
  refine ⟨last :: behind, hargs, ?_, rfl⟩
  rw [size_append]
  omega

/-- The texts of its arguments are parts of a call. -/
theorem CallPlaced.exists_slice {c : Call} {kept : String} (h : CallPlaced text ls c)
    (hkept : .raw kept ∈ c.args) : ∃ start stop, c.span.start < start ∧ start ≤ stop ∧
      stop < c.span.stop ∧ slice? text start stop = some kept.toList := by
  obtain ⟨opening, inside, behind, hinside, hstart, hstop, hargs⟩ := h.inside
  rw [hargs] at hkept
  obtain ⟨p, hp, hraw⟩ := List.mem_map.mp hkept
  rw [readExpr_eq_raw hraw]
  obtain ⟨before, after, heq⟩ := Literals.infix_of_mem_splitArguments hp
  have hsize : size inside = size before + size p.2 + size after := by
    rw [← heq, size_append, size_append]
  rw [← heq, List.append_assoc, List.append_assoc] at hinside
  refine ⟨opening + 1 + size before, opening + 1 + size before + size p.2, ?_, ?_, ?_, ?_⟩
  · omega
  · omega
  · omega
  · exact (hinside.append before).slice?

/-- Calls are read one behind the other: none starts before the end of the last one, and each is
placed. -/
theorem readCallsFrom_placed {file : String} :
    ∀ {ps : List (List Char × List Char)} {done : Nat} {calls : List Call} {ds : List Diagnostic},
      (∀ p ∈ ps, p.2 <:+ text) → readCallsFrom file text ls done ps = .ok (calls, ds) →
        (∀ c ∈ calls, done ≤ c.span.start ∧ CallPlaced text ls c) ∧
          calls.Pairwise fun c d => c.span.stop ≤ d.span.start
  | [], done, calls, ds, _, h => by
    cases h
    exact ⟨fun c hc => absurd hc List.not_mem_nil, .nil⟩
  | (before, here) :: ps, done, calls, ds, hps, h => by
    have hlater : ∀ p ∈ ps, p.2 <:+ text := fun p hp => hps p (List.mem_cons_of_mem _ hp)
    have hhere : here <:+ text := hps _ List.mem_cons_self
    unfold readCallsFrom at h
    simp only at h
    split at h
    · exact readCallsFrom_placed hlater h
    · rename_i object method paren hcall
      split at h
      · exact readCallsFrom_placed hlater h
      · rename_i hskip
        simp only [Bool.or_eq_true, decide_eq_true_eq, not_or, Bool.not_eq_true, Nat.not_lt] at hskip
        obtain ⟨⟨⟨hdone, houtside⟩, -⟩, -⟩ := hskip
        split at h
        · -- a call that does not end is said, and nothing behind it is read
          obtain ⟨word, -, h⟩ := (except_bind_ok_iff _ _ _).mp h
          obtain ⟨span, -, h⟩ := (except_bind_ok_iff _ _ _).mp h
          cases h
          exact ⟨fun c hc => absurd hc List.not_mem_nil, .nil⟩
        · rename_i closing hclose
          obtain ⟨inside, hinside, h⟩ := (except_bind_ok_iff _ _ _).mp h
          obtain ⟨span, hspan, h⟩ := (except_bind_ok_iff _ _ _).mp h
          obtain ⟨⟨others, ds'⟩, hothers, h⟩ := (except_bind_ok_iff _ _ _).mp h
          cases h
          obtain ⟨hbound, hapart⟩ := readCallsFrom_placed hlater hothers
          obtain ⟨hstart, hstop⟩ := Span.ofOffsets_ok hspan
          have hfits := fits_of_findClose hhere hcall hclose hspan
          obtain ⟨behind, hargs, hle, rfl⟩ := stands_inside hhere hcall hclose hinside
          refine ⟨?_, List.pairwise_cons.mpr ⟨?_, hapart⟩⟩
          · intro c hc
            rcases List.mem_cons.mp hc with rfl | hc
            · rw [← hstart] at hdone houtside hle
              exact ⟨hdone, hfits.placed hspan, houtside, _, inside, behind, hargs, hle, hstop, rfl⟩
            · -- later calls start behind the end of this one, so behind the bound as well
              have hlt := hfits.lt
              have hlater := (hbound c hc).1
              exact ⟨by omega, (hbound c hc).2⟩
          · intro c hc
            rw [hstop]
            exact (hbound c hc).1

/-- Each call of a script that was read is placed. -/
theorem callPlaced_of_read {file source : String} {s : Script} {ds : List Diagnostic} {c : Call}
    (h : read file source = .ok (s, ds)) (hc : c ∈ s.calls) :
    CallPlaced source.toList (.scan source.toList) c := by
  unfold read at h
  obtain ⟨imports, -, h⟩ := (except_bind_ok_iff _ _ _).mp h
  obtain ⟨constants, -, h⟩ := (except_bind_ok_iff _ _ _).mp h
  obtain ⟨functions, -, h⟩ := (except_bind_ok_iff _ _ _).mp h
  obtain ⟨⟨calls, ds'⟩, hcalls, h⟩ := (except_bind_ok_iff _ _ _).mp h
  cases h
  exact ((readCallsFrom_placed (fun _ hp => suffix_of_mem_places hp) hcalls).1 c hc).2

/-! ## Messages -/

/-- What is repeated is among the exports. -/
theorem mem_of_mem_repeated {e : String × Span} :
    ∀ {es : List (String × Span)} {seen : List String}, e ∈ repeated seen es → e ∈ es
  | [], _, h => absurd h List.not_mem_nil
  | d :: es, seen, h => by
    unfold repeated at h
    split at h
    · rcases List.mem_cons.mp h with rfl | h
      · exact List.mem_cons_self
      · exact List.mem_cons_of_mem _ (mem_of_mem_repeated h)
    · exact List.mem_cons_of_mem _ (mem_of_mem_repeated h)

/-- A check of scripts has its messages at the keywords of their exports. -/
theorem exists_of_mem_check {scripts : List Script} {d : Diagnostic} (h : d ∈ check scripts) :
    ∃ s ∈ scripts, d.file = s.file ∧ ∃ e ∈ s.exports, d.span = e.2 := by
  obtain ⟨s, hs, hd⟩ := List.mem_flatMap.mp h
  obtain ⟨e, he, rfl⟩ := List.mem_map.mp hd
  exact ⟨s, hs, rfl, e, mem_of_mem_repeated he, rfl⟩

/-- Reading a script and checking it come to a result, whatever the text is: the nodes of the script are
well placed, each message of the check stands at the keyword of an export, and the literals that nodes are
kept out of are parts of the text. -/
theorem read_wellPlaced (file source : String) : ∃ script ds, read file source = .ok (script, ds) ∧
    script.source = source ∧ script.WellPlaced ∧
      (∀ d ∈ check [script], d.span.Placed source.toList) ∧
      ∀ r ∈ (Literals.scan source.toList).ranges, (∃ rest, Stands source.toList r.1 rest) ∧
        (∃ rest, Stands source.toList r.2 rest) ∧ r.1 < r.2 := by
  obtain ⟨script, ds, hread, -, -, -⟩ := read_ok file source
  have hparts := hread
  unfold read at hparts
  obtain ⟨imports, himports, hparts⟩ := (except_bind_ok_iff _ _ _).mp hparts
  obtain ⟨constants, hconstants, hparts⟩ := (except_bind_ok_iff _ _ _).mp hparts
  obtain ⟨functions, hfunctions, hparts⟩ := (except_bind_ok_iff _ _ _).mp hparts
  obtain ⟨⟨calls, ds'⟩, hcalls, hparts⟩ := (except_bind_ok_iff _ _ _).mp hparts
  cases hparts
  obtain ⟨hinOrder, himport⟩ := readImports_placed himports
  obtain ⟨hcall, hapart⟩ := readCallsFrom_placed (fun _ hp => suffix_of_mem_places hp) hcalls
  have hheads : ∀ span ∈ heads ⟨file, source, imports, calls, constants, functions⟩,
      span.Placed source.toList ∧ (Literals.scan source.toList).contains span.start = false := by
    intro span hspan
    simp only [heads, exports, List.mem_append, List.mem_map] at hspan
    rcases hspan with (⟨i, hi, rfl⟩ | ⟨e, ⟨c, hc, rfl⟩ | ⟨f, hf, rfl⟩, rfl⟩) | ⟨c, hc, rfl⟩
    · exact ⟨(himport i hi).span, (himport i hi).outside⟩
    · have hplaced := readConstants_placed hconstants hc
      exact ⟨hplaced.1, hplaced.2.2.1⟩
    · exact readFunctions_placed hfunctions hf
    · exact ⟨(hcall c hc).2.span, (hcall c hc).2.outside⟩
  have hspans : ∀ span ∈ spans ⟨file, source, imports, calls, constants, functions⟩,
      span.Placed source.toList := by
    intro span hspan
    rcases List.mem_append.mp hspan with hspan | hspan
    · exact (hheads span hspan).1
    · obtain ⟨c, hc, rfl⟩ := List.mem_map.mp hspan
      exact (readConstants_placed hconstants hc).2.1
  refine ⟨_, _, hread, rfl, ⟨hspans, fun span hspan => (hspans span hspan).le_size, hinOrder, hapart,
    ?_, ?_, ?_⟩, ?_, fun r hr => Literals.stands_of_mem_scan hr⟩
  · intro span hspan
    exact Literals.outside_of_contains (hheads span hspan).2
  · intro c hc
    exact (readConstants_placed hconstants hc).2.2.2
  · intro c hc kept hkept
    exact (hcall c hc).2.exists_slice hkept
  · intro d hd
    obtain ⟨s, hs, -, e, he, hspan⟩ := exists_of_mem_check hd
    rw [hspan]
    obtain rfl := List.mem_singleton.mp hs
    apply (hheads e.2 _).1
    exact List.mem_append_left _ (List.mem_append_right _ (List.mem_map_of_mem he))

end Script

end Bundler

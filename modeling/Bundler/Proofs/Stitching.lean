/-
A composite map leads to the same places as the maps it is made of.

What a map says can be told without its indices: each of its sourced segments ties a line and a column
to a source with a name, a place in it and perhaps a name (`SourceMap.Spot`). In these words the map of
a piece and the map of the whole can be compared, though each has lists of sources and names of its own.

While pieces are written, the builder holds the spots of the maps taken over so far
(`SourceMap.Builder.Holds`). More sources and names leave them as they are, because a list only grows at
its end, and each segment taken over adds its spot, moved down to where its piece starts. So the mappings
of the finished builder are the spots of all pieces in their order, which are known from the pieces alone
(`SourceMap.spots`).

Their lines do not go back as long as no map reaches into the next piece that has one. Then the mappings
are read back from their written form, and the finished map leads where the pieces do
(`SourceMap.Concat.finish_writeAll`).
-/
import Mathlib.Data.List.Dedup
import Mathlib.Data.List.Perm.Subperm
import Mathlib.Data.List.TakeWhile
import Bundler.SourceMap.Concat
import Bundler.Proofs.Recording
import Bundler.Proofs.Trimming

set_option autoImplicit false

namespace Bundler

/-! ## Comments at the end of a text -/

namespace SourceMap

/-- A text ends in a line that names its map, behind some other text; blanks may follow. -/
def EndsInComment (text before : List Char) : Prop :=
  ∃ rest blank, text = before ++ (urlComment.toList ++ rest) ++ blank ∧
    (before = [] ∨ ∃ lines, before = lines ++ ['\n']) ∧ '\n' ∉ rest ∧
    ∀ c ∈ blank, Text.isBlank c = true

/-- The line that names the map is left out. -/
theorem stripUrlComment_of_endsInComment {text before : List Char}
    (h : EndsInComment text before) : stripUrlComment text = before := by
  obtain ⟨rest, blank, rfl, hbefore, hrest, hblank⟩ := h
  have hcomment : urlComment.toList = "//# sourceMappingURL".toList ++ ['='] := by decide
  -- the sign at the end of the comment is not blank, so nothing of the comment is trimmed away
  have htrim : Text.trimEnd (before ++ (urlComment.toList ++ rest) ++ blank)
      = before ++ (urlComment.toList ++ Text.trimEnd rest) := by
    rw [Text.trimEnd_append hblank, hcomment]
    have hcut := Text.trimEnd_append_cons (c := '=') (by decide)
      (before ++ "//# sourceMappingURL".toList) rest
    simpa only [List.append_assoc, List.singleton_append] using hcut
  have hmark : ∀ c ∈ urlComment.toList, (c == '\n') = false := by simp [urlComment]
  have hline : ∀ c ∈ urlComment.toList ++ Text.trimEnd rest, (c == '\n') = false := by
    intro c hc
    rcases List.mem_append.mp hc with hc | hc
    · exact hmark c hc
    · obtain ⟨more, heq, -⟩ := Text.exists_trimEnd rest
      have hmem : c ∈ rest := by
        rw [heq]
        exact List.mem_append_left more hc
      exact beq_eq_false_iff_ne.mpr fun h => hrest (h ▸ hmem)
  have hmarked : urlComment.toList.isPrefixOf (urlComment.toList ++ Text.trimEnd rest) = true :=
    List.isPrefixOf_iff_prefix.mpr (List.prefix_append _ _)
  unfold stripUrlComment
  rw [htrim]
  rcases hbefore with rfl | ⟨lines, rfl⟩
  · rw [List.nil_append, Text.splitLast?_of_not_mem hline]
    simp only [hmarked, if_true]
  · rw [List.append_assoc, List.singleton_append,
      Text.splitLast?_append_cons (s := '\n') (by rfl) hline]
    simp only [hmarked, if_true]

/-- A text without such a line stays as it is. -/
theorem stripUrlComment_of_not_endsInComment {text : List Char}
    (h : ∀ before, ¬ EndsInComment text before) : stripUrlComment text = text := by
  obtain ⟨blank, htext, hblank⟩ := Text.exists_trimEnd text
  unfold stripUrlComment
  split
  · rename_i before line hsplit
    obtain ⟨s, hs, htrim, hline⟩ := Text.of_splitLast?_eq_some hsplit
    obtain rfl : s = '\n' := by simpa using hs
    refine if_neg fun hcomment => ?_
    obtain ⟨rest, rfl⟩ := List.isPrefixOf_iff_prefix.mp hcomment
    refine h (before ++ ['\n']) ⟨rest, blank, ?_, .inr ⟨before, rfl⟩, fun hmem => ?_, hblank⟩
    · rw [htext, htrim]
      simp
    · simpa using hline _ (List.mem_append_right _ hmem)
  · rename_i hsplit
    have hline := Text.of_splitLast?_eq_none hsplit
    refine if_neg fun hcomment => ?_
    obtain ⟨rest, hrest⟩ := List.isPrefixOf_iff_prefix.mp hcomment
    refine h [] ⟨rest, blank, ?_, .inl rfl, fun hmem => ?_, hblank⟩
    · rw [hrest]
      exact htext
    · rw [← hrest] at hline
      simpa using hline _ (List.mem_append_right _ hmem)

/-! ## Spots -/

/-- What a sourced segment says, told without indices. -/
structure Spot where
  line : Nat
  column : Nat
  /-- The source, unless the map does not list it. -/
  source : Option String
  sourceLine : Nat
  sourceColumn : Nat
  name : Option String
  deriving DecidableEq

/-- The spot of a segment on a line, given what the sources are called and the list of names. -/
def spot? (source : Nat → Option String) (names : List String) (line : Nat) (s : Segment) :
    Option Spot :=
  s.origin.map fun o => ⟨line, s.column, source o.source, o.line, o.column, o.name.bind (names[·]?)⟩

/-- The spot of a mapping, given the lists of sources and names. -/
def Mapping.spot (sources names : List String) (m : Mapping) : Spot :=
  ⟨m.line, m.column, sources[m.source]?, m.sourceLine, m.sourceColumn, m.name.bind (names[·]?)⟩

namespace Builder

/-- The mappings of a builder, told without indices, are these. -/
structure Holds (b : Builder) (spots : List Spot) : Prop where
  spots : b.mappings.map (Mapping.spot b.sources b.names) = spots
  source : ∀ m ∈ b.mappings, m.source < b.sources.length
  name : ∀ m ∈ b.mappings, ∀ n, m.name = some n → n < b.names.length
  sources : b.sources.Nodup
  names : b.names.Nodup

variable {b b' : Builder} {spots : List Spot}

/-- Longer lists leave the spots as they are. -/
theorem Holds.more (h : b.Holds spots) (hmappings : b'.mappings = b.mappings)
    (hsources : b.sources <+: b'.sources) (hnames : b.names <+: b'.names)
    (hsources' : b'.sources.Nodup) (hnames' : b'.names.Nodup) : b'.Holds spots where
  spots := by
    rw [hmappings, ← h.spots]
    refine List.map_congr_left fun m hm => ?_
    obtain ⟨others, hothers⟩ := hsources
    obtain ⟨more, hmore⟩ := hnames
    have hsource : b'.sources[m.source]? = b.sources[m.source]? := by
      rw [← hothers, List.getElem?_append_left (h.source m hm)]
    have hname : m.name.bind (b'.names[·]?) = m.name.bind (b.names[·]?) := by
      cases hn : m.name with
      | none => rfl
      | some n =>
        change b'.names[n]? = b.names[n]?
        rw [← hmore, List.getElem?_append_left (h.name m hm n hn)]
    unfold Mapping.spot
    rw [hsource, hname]
  source m hm := Nat.lt_of_lt_of_le (h.source m (hmappings ▸ hm)) hsources.length_le
  name m hm n hn := Nat.lt_of_lt_of_le (h.name m (hmappings ▸ hm) n hn) hnames.length_le
  sources := hsources'
  names := hnames'

theorem prefix_intern (s : String) (list : List String) : list <+: (intern s list).2 := by
  obtain ⟨more, hmore⟩ := exists_intern s list
  exact ⟨more, hmore.symm⟩

/-- A text that was listed stands at its index. -/
theorem getElem?_intern (s : String) (list : List String) :
    (intern s list).2[(intern s list).1]? = some s := by
  have hfound := findIdx?_intern s list []
  rw [List.append_nil] at hfound
  obtain ⟨hlt, hp, -⟩ := List.findIdx?_eq_some_iff_getElem.mp hfound
  rw [List.getElem?_eq_getElem hlt]
  exact congrArg some (beq_iff_eq.mp hp)

theorem Holds.addSource (h : b.Holds spots) (s : String) : (b.addSource s).2.Holds spots :=
  h.more rfl (prefix_intern s b.sources) (List.prefix_refl _) (nodup_intern h.sources) h.names

/-- A name that is given to a spot is found by its index. -/
theorem Holds.addName (h : b.Holds spots) (name : Option String) :
    (b.addName name).2.Holds spots ∧ (b.addName name).1.bind ((b.addName name).2.names[·]?) = name ∧
      ∀ n, (b.addName name).1 = some n → n < (b.addName name).2.names.length := by
  cases name with
  | none => exact ⟨h, rfl, fun n hn => nomatch hn⟩
  | some s =>
    refine ⟨h.more rfl (List.prefix_refl _) (prefix_intern s b.names) h.sources
      (nodup_intern h.names), getElem?_intern s b.names, fun n hn => ?_⟩
    obtain rfl : (intern s b.names).1 = n := Option.some.inj hn
    exact (List.getElem?_eq_some_iff.mp (getElem?_intern s b.names)).1

theorem Holds.push (h : b.Holds spots) {m : Mapping} (hsource : m.source < b.sources.length)
    (hname : ∀ n, m.name = some n → n < b.names.length) :
    ({ b with mappings := b.mappings ++ [m] } : Builder).Holds
      (spots ++ [m.spot b.sources b.names]) where
  spots := by
    rw [← h.spots]
    exact List.map_append
  source n hn := (List.mem_append.mp hn).elim (h.source n) fun hn =>
    List.mem_singleton.mp hn ▸ hsource
  name n hn := (List.mem_append.mp hn).elim (h.name n) fun hn => List.mem_singleton.mp hn ▸ hname
  sources := h.sources
  names := h.names

end Builder

/-! ## Taking over a map -/

namespace Concat

open Builder

variable {b : Builder} {spots : List Spot} {m : SourceMap}

/-- The sources of a map are listed under their resolved names, each where its index says. -/
theorem listSources_ok (m : SourceMap) (is : List Nat) :
    ∀ {b : Builder}, b.Holds spots →
      ∃ indices b', listSources m b is = (indices, b') ∧ b'.Holds spots ∧
        b'.line = b.line ∧ b'.column = b.column ∧ b'.names = b.names ∧ b.sources <+: b'.sources ∧
        (∀ s ∈ b'.sources, s ∈ b.sources ∨ ∃ i ∈ is, (m.resolvedSource? i).getD "" = s) ∧
        indices.map (b'.sources[·]?) = is.map fun i => some ((m.resolvedSource? i).getD "") := by
  induction is with
  | nil => exact fun {b} h => ⟨[], b, rfl, h, rfl, rfl, rfl, List.prefix_refl _, fun s hs => .inl hs, rfl⟩
  | cons i is ih =>
    intro b h
    let name := (m.resolvedSource? i).getD ""
    -- the text of the source changes nothing but the texts that are kept
    obtain ⟨texts, hlisted⟩ : ∃ texts, listSources m b (i :: is)
        = ((b.addSource name).1 ::
            (listSources m { (b.addSource name).2 with sourcesContent := texts } is).1,
          (listSources m { (b.addSource name).2 with sourcesContent := texts } is).2) := by
      rw [listSources]
      rcases m.sourcesContent[i]? with _ | _ | text
      · exact ⟨(b.addSource name).2.sourcesContent, rfl⟩
      · exact ⟨(b.addSource name).2.sourcesContent, rfl⟩
      · exact ⟨((b.addSource name).2.setContent (b.addSource name).1 text).sourcesContent, rfl⟩
    have hname : ({ (b.addSource name).2 with sourcesContent := texts } : Builder).Holds spots :=
      (h.addSource name).more rfl (List.prefix_refl _) (List.prefix_refl _)
        (h.addSource name).sources (h.addSource name).names
    obtain ⟨indices, b', heq, hholds, hline, hcolumn, hnames, hsources, hmem, hindices⟩ := ih hname
    rw [heq] at hlisted
    refine ⟨_, b', hlisted, hholds, hline, hcolumn, hnames,
      (prefix_intern name b.sources).trans hsources, fun s hs => ?_, ?_⟩
    · rcases hmem s hs with hs | ⟨j, hj, rfl⟩
      · exact (mem_intern.mp hs).imp id fun hs => ⟨i, List.mem_cons_self, hs.symm⟩
      · exact .inr ⟨j, List.mem_cons_of_mem i hj, rfl⟩
    · rw [List.map_cons, List.map_cons, hindices]
      obtain ⟨others, hothers⟩ := hsources
      have hfound := getElem?_intern name b.sources
      have hlt := (List.getElem?_eq_some_iff.mp hfound).1
      change b'.sources[(intern name b.sources).1]? :: _ = _
      rw [← hothers]
      change ((intern name b.sources).2 ++ others)[_]? :: _ = _
      rw [List.getElem?_append_left hlt, hfound]

/-- Where the sources of a map stand in a builder. -/
def Located (m : SourceMap) (indices : List Nat) (b : Builder) : Prop :=
  ∀ i < m.sources.length, ∃ j, indices[i]? = some j ∧ j < b.sources.length ∧
    b.sources[j]? = m.resolvedSource? i

theorem Located.congr {indices : List Nat} {b b' : Builder} (h : Located m indices b)
    (hsources : b'.sources = b.sources) : Located m indices b' := by
  intro i hi
  rw [hsources]
  exact h i hi

/-- A segment is taken over as its spot, if it has one. -/
theorem addSegment_ok {indices : List Nat} {b : Builder} {spots : List Spot} (line : Nat)
    (s : Segment) (h : b.Holds spots) (hlocated : Located m indices b)
    (hsources : ∀ o, s.origin = some o → o.source < m.sources.length) :
    ∃ b', addSegment m indices line b s = (b', .ok ()) ∧
      b'.Holds (spots ++ (spot? m.resolvedSource? m.names line s).toList) ∧
      b'.line = b.line ∧ b'.column = b.column ∧ b'.sources = b.sources ∧
      ∀ n ∈ b'.names, n ∈ b.names ∨ n ∈ m.names := by
  cases horigin : s.origin with
  | none =>
    have hspot : spot? m.resolvedSource? m.names line s = none := by simp [spot?, horigin]
    have hadd : addSegment m indices line b s = (b, .ok ()) := by simp [addSegment, horigin]
    exact ⟨b, hadd, by simpa [hspot] using h, rfl, rfl, rfl, fun n hn => .inl hn⟩
  | some o =>
    obtain ⟨j, hindex, hj, hsource⟩ := hlocated o.source (hsources o horigin)
    let name := o.name.bind (m.names[·]?)
    let mapping : Mapping := ⟨line, s.column, j, o.line, o.column, (b.addName name).1⟩
    let b₁ : Builder := { (b.addName name).2 with
      mappings := (b.addName name).2.mappings ++ [mapping] }
    have hadd : addSegment m indices line b s = (b₁, .ok ()) := by
      simp [addSegment, horigin, hindex, b₁, mapping, name]
    obtain ⟨more, hb, -⟩ := b.addName_ok name
    obtain ⟨hnamed, hname, hlt⟩ := h.addName name
    have hfields : (b.addName name).2.sources = b.sources ∧ (b.addName name).2.line = b.line ∧
        (b.addName name).2.column = b.column := by rw [hb]; exact ⟨rfl, rfl, rfl⟩
    have hpush : b₁.Holds (spots ++ [mapping.spot b₁.sources b₁.names]) :=
      hnamed.push (hfields.1 ▸ hj) hlt
    -- the numbers in the new mapping stand for what the numbers in the segment stand for
    have hspot : spot? m.resolvedSource? m.names line s
        = some (mapping.spot b₁.sources b₁.names) := by
      have hsource' : b₁.sources[j]? = m.resolvedSource? o.source := by
        rw [show b₁.sources = b.sources from hfields.1, hsource]
      simp only [spot?, horigin, Option.map_some, Mapping.spot, mapping, hsource']
      rw [show (b.addName name).1.bind (b₁.names[·]?) = name from hname]
    refine ⟨b₁, hadd, ?_, hfields.2.1, hfields.2.2, hfields.1, fun n hn => ?_⟩
    · rw [hspot]
      exact hpush
    · rcases mem_addName.mp hn with hn | hn
      · exact .inl hn
      · obtain ⟨k, -, hk⟩ := Option.bind_eq_some_iff.mp hn
        exact .inr (List.mem_of_getElem? hk)

/-- Segments are taken over as their spots. The induction is on the segments; names may come to the
builder along the way, the sources stay. -/
theorem addSegments_ok {indices : List Nat} (segments : List (Nat × Segment)) :
    ∀ {b : Builder} {spots : List Spot}, b.Holds spots → Located m indices b →
      (∀ s ∈ segments, ∀ o, s.2.origin = some o → o.source < m.sources.length) →
      ∃ b', addSegments m indices b segments = (b', .ok ()) ∧
        b'.Holds (spots ++ segments.filterMap fun s => spot? m.resolvedSource? m.names s.1 s.2) ∧
        b'.line = b.line ∧ b'.column = b.column ∧ b'.sources = b.sources ∧
        ∀ n ∈ b'.names, n ∈ b.names ∨ n ∈ m.names := by
  induction segments with
  | nil =>
    intro b spots h _ _
    exact ⟨b, rfl, by simpa using h, rfl, rfl, rfl, fun n hn => .inl hn⟩
  | cons s segments ih =>
    intro b spots h hlocated hsources
    obtain ⟨line, s⟩ := s
    obtain ⟨b₁, hadd, h₁, hline₁, hcolumn₁, hsources₁, hnames₁⟩ :=
      addSegment_ok line s h hlocated (hsources _ List.mem_cons_self)
    obtain ⟨b', heq, h', hline, hcolumn, hsources', hnames⟩ :=
      ih h₁ (hlocated.congr hsources₁) fun t ht => hsources t (List.mem_cons_of_mem _ ht)
    refine ⟨b', by rw [addSegments, hadd]; exact heq, ?_, hline.trans hline₁,
      hcolumn.trans hcolumn₁, hsources'.trans hsources₁, fun n hn => ?_⟩
    · rw [List.append_assoc] at h'
      rw [List.filterMap_cons]
      cases hspot : spot? m.resolvedSource? m.names line s with
      | none => simpa [hspot] using h'
      | some spot => simpa [hspot] using h'
    · rcases hnames n hn with hn | hn
      · exact hnames₁ n hn
      · exact .inr hn

end Concat

/-- The spots of a map whose first line stands on a given line. -/
def spots (m : SourceMap) (line : Nat) : List Spot :=
  match decodeMappings m.mappings with
  | .ok lines => (Concat.numbered line lines).filterMap fun s =>
      spot? m.resolvedSource? m.names s.1 s.2
  | .error _ => []

/-- A map can be read, the sources of its segments are listed, and the numbers of the sourced ones are
below 2 ^ 62. -/
def Fit (m : SourceMap) : Prop :=
  ∃ lines, decodeMappings m.mappings = .ok lines ∧
    ∀ segments ∈ lines, ∀ s ∈ segments, ∀ o ∈ s.origin,
      o.source < m.sources.length ∧ s.column < pow2 62 ∧ o.line < pow2 62 ∧ o.column < pow2 62

/-- The sources of a map under their resolved names. -/
def resolvedSources (m : SourceMap) : List String :=
  (List.range m.sources.length).filterMap m.resolvedSource?

theorem isSome_resolvedSource? {m : SourceMap} {i : Nat} (h : i < m.sources.length) :
    ∃ s, m.resolvedSource? i = some s := by
  unfold resolvedSource?
  rw [List.getElem?_eq_getElem h]
  exact ⟨_, rfl⟩

namespace Concat

theorem mem_numbered {segment : Nat × Segment} {lines : List (List Segment)} :
    ∀ {line : Nat}, segment ∈ numbered line lines →
      line ≤ segment.1 ∧ ∃ segments ∈ lines, segment.2 ∈ segments := by
  induction lines with
  | nil => exact fun h => nomatch h
  | cons segments lines ih =>
    intro line h
    rcases List.mem_append.mp h with h | h
    · obtain ⟨s, hs, rfl⟩ := List.mem_map.mp h
      exact ⟨Nat.le_refl _, segments, List.mem_cons_self, hs⟩
    · obtain ⟨hle, others, hothers, hmem⟩ := ih h
      exact ⟨Nat.le_of_succ_le hle, others, List.mem_cons_of_mem _ hothers, hmem⟩

/-- A map is taken over as its spots, from the line that the builder has come to. -/
theorem addMap_ok {b : Builder} {spots : List Spot} {m : SourceMap} (h : b.Holds spots)
    (hm : m.Fit) :
    ∃ b', addMap b m = (b', .ok ()) ∧ b'.Holds (spots ++ m.spots b.line) ∧
      b'.line = b.line ∧ b'.column = b.column ∧
      (∀ s ∈ b'.sources, s ∈ b.sources ∨ s ∈ m.resolvedSources) ∧
      ∀ n ∈ b'.names, n ∈ b.names ∨ n ∈ m.names := by
  obtain ⟨lines, hlines, hsegments⟩ := hm
  obtain ⟨indices, b₁, hlist, hholds, hline, hcolumn, hnames, -, hmem, hindices⟩ :=
    listSources_ok m (List.range m.sources.length) h
  -- each number that the map gives to a source has got a place in the builder
  have hlocated : Located m indices b₁ := fun i hi => by
    obtain ⟨s, hs⟩ := isSome_resolvedSource? hi
    have hat := congrArg (·[i]?) hindices
    simp only [List.getElem?_map, List.getElem?_range hi, hs, Option.map_some,
      Option.getD_some] at hat
    obtain ⟨j, hj, hsource⟩ := Option.map_eq_some_iff.mp hat
    exact ⟨j, hj, (List.getElem?_eq_some_iff.mp hsource).1, hsource.trans hs.symm⟩
  obtain ⟨b', hadd, hholds', hline', hcolumn', hsources', hnames'⟩ :=
    addSegments_ok (numbered b₁.line lines) hholds hlocated fun s hs o ho => by
      obtain ⟨-, segments, hin, hs⟩ := mem_numbered hs
      exact (hsegments segments hin s.2 hs o ho).1
  refine ⟨b', ?_, ?_, hline'.trans hline, hcolumn'.trans hcolumn, fun s hs => ?_, fun n hn => ?_⟩
  · unfold addMap
    rw [hlines]
    simp only [hlist]
    exact hadd
  · unfold SourceMap.spots
    rw [hlines, ← hline]
    exact hholds'
  · rw [hsources'] at hs
    refine (hmem s hs).imp id ?_
    rintro ⟨i, hi, rfl⟩
    obtain ⟨s, hs⟩ := isSome_resolvedSource? (List.mem_range.mp hi)
    exact List.mem_filterMap.mpr ⟨i, hi, by rw [hs]; rfl⟩
  · exact (hnames' n hn).imp (hnames ▸ ·) id

end Concat

/-! ## Pieces -/

/-- A piece of a composite text. -/
inductive Piece where
  | line (text : String)
  | lines (text : String)
  | source (text : String) (map : Option SourceMap)

/-- A text with its last line ended. -/
def ended (text : List Char) : List Char :=
  if text.getLast? == some '\n' then text else text ++ ['\n']

namespace Piece

/-- The map that comes with a piece. -/
def map? : Piece → Option SourceMap
  | .source _ m => m
  | _ => none

/-- What is written of a piece. -/
def text : Piece → List Char
  | .line s => ended s.toList
  | .lines s => if s.isEmpty then [] else ended s.toList
  | .source s _ => ended (stripUrlComment s.toList)

/-- What is to be written of a piece: its text with the last line ended, no lines without a trace, and
a script without the line that names its map. -/
inductive Writes : Piece → List Char → Prop where
  | line (s : String) : Writes (.line s) (ended s.toList)
  | noLines : Writes (.lines "") []
  | lines {s : String} (h : s ≠ "") : Writes (.lines s) (ended s.toList)
  | stripped {s : String} {before : List Char} (h : EndsInComment s.toList before)
      (m : Option SourceMap) : Writes (.source s m) (ended before)
  | whole {s : String} (h : ∀ before, ¬ EndsInComment s.toList before) (m : Option SourceMap) :
      Writes (.source s m) (ended s.toList)

theorem writes_text (p : Piece) : p.Writes p.text := by
  cases p with
  | line s => exact .line s
  | lines s =>
    by_cases h : s = ""
    · obtain rfl := h
      exact .noLines
    · rw [text, if_neg fun hs => h (String.isEmpty_iff.mp hs)]
      exact .lines h
  | source s m =>
    by_cases h : ∃ before, EndsInComment s.toList before
    · obtain ⟨before, h⟩ := h
      rw [text, stripUrlComment_of_endsInComment h]
      exact .stripped h m
    · have h' := not_exists.mp h
      rw [text, stripUrlComment_of_not_endsInComment h']
      exact .whole h' m

/-- The number of lines of a piece. -/
def height (p : Piece) : Nat := Text.lineBreaks p.text

/-- The sources that the map of a piece lists. -/
def sources (p : Piece) : List String := p.map?.elim [] resolvedSources

/-- The names that the map of a piece lists. -/
def names (p : Piece) : List String := p.map?.elim [] SourceMap.names

/-- The spots of a piece that starts on a line. -/
def spots (p : Piece) (start : Nat) : List Spot := p.map?.elim [] (SourceMap.spots · start)

end Piece

/-- The spots of pieces, the first of which starts on a line. -/
def spotsFrom : Nat → List Piece → List Spot
  | _, [] => []
  | start, p :: ps => p.spots start ++ spotsFrom (start + p.height) ps

/-! ## Writing pieces -/

namespace Concat

/-- The text and the builder after a piece. -/
def write (c : Concat) : Piece → Except Failure Concat
  | .line s => .ok (c.addLine s)
  | .lines s => .ok (c.addLines s)
  | .source s m =>
    match c.addSource s m with
    | (c, .ok ()) => .ok c
    | (_, .error e) => .error e

/-- The text and the builder after pieces. -/
def writeAll : Concat → List Piece → Except Failure Concat
  | c, [] => .ok c
  | c, p :: ps => do writeAll (← c.write p) ps

/-- The builder holds these spots and has come to the end of the text. -/
structure Holds (c : Concat) (spots : List Spot) : Prop where
  builder : c.builder.Holds spots
  place : c.builder.At c.content.toList

variable {c : Concat} {spots : List Spot}

theorem push_ok (h : c.Holds spots) (text : List Char) :
    (c.push text).Holds spots ∧ (c.push text).content.toList = c.content.toList ++ ended text ∧
      (c.push text).builder.sources = c.builder.sources ∧
      (c.push text).builder.names = c.builder.names := by
  have hpush : c.push text
      = ⟨c.content ++ String.ofList (ended text), c.builder.advance (ended text)⟩ := rfl
  have hcontent : (c.push text).content.toList = c.content.toList ++ ended text := by
    rw [hpush, String.toList_append, String.toList_ofList]
  have hbuilder : (c.push text).builder = c.builder.advance (ended text) := by rw [hpush]
  have hfields := Builder.advance_eq c.builder (ended text)
  have hsources : (c.push text).builder.sources = c.builder.sources := by rw [hbuilder, hfields]
  have hnames : (c.push text).builder.names = c.builder.names := by rw [hbuilder, hfields]
  have hmappings : (c.push text).builder.mappings = c.builder.mappings := by rw [hbuilder, hfields]
  refine ⟨⟨h.builder.more hmappings (hsources ▸ List.prefix_refl _) (hnames ▸ List.prefix_refl _)
    (hsources ▸ h.builder.sources) (hnames ▸ h.builder.names), ?_⟩, hcontent, hsources, hnames⟩
  rw [hcontent, hbuilder]
  exact h.place.advance (ended text)

/-- A piece is written with its last line ended, and its spots are taken over. -/
theorem write_ok (h : c.Holds spots) (p : Piece) (hp : ∀ m ∈ p.map?, m.Fit) :
    ∃ c', c.write p = .ok c' ∧ c'.Holds (spots ++ p.spots (Text.lineBreaks c.content.toList)) ∧
      c'.content.toList = c.content.toList ++ p.text ∧
      (∀ s ∈ c'.builder.sources, s ∈ c.builder.sources ∨ s ∈ p.sources) ∧
      ∀ n ∈ c'.builder.names, n ∈ c.builder.names ∨ n ∈ p.names := by
  -- without a map the text is all there is
  have hplain : ∀ text, (∀ start, p.spots start = []) → p.text = ended text →
      (c.push text).Holds (spots ++ p.spots (Text.lineBreaks c.content.toList)) ∧
      (c.push text).content.toList = c.content.toList ++ p.text ∧
      (∀ s ∈ (c.push text).builder.sources, s ∈ c.builder.sources ∨ s ∈ p.sources) ∧
      ∀ n ∈ (c.push text).builder.names, n ∈ c.builder.names ∨ n ∈ p.names := by
    intro text hspots htext
    obtain ⟨hholds, hcontent, hsources, hnames⟩ := push_ok h text
    rw [hspots, List.append_nil, htext, hsources, hnames]
    exact ⟨hholds, hcontent, fun s hs => .inl hs, fun n hn => .inl hn⟩
  cases p with
  | line s => exact ⟨_, rfl, hplain s.toList (fun _ => rfl) rfl⟩
  | lines s =>
    by_cases hs : s.isEmpty = true
    · have htext : (Piece.lines s).text = [] := if_pos hs
      refine ⟨c, ?_, ?_, ?_, fun s hs => .inl hs, fun n hn => .inl hn⟩
      · rw [write, addLines, if_pos hs]
      · rw [show spots ++ (Piece.lines s).spots _ = spots from List.append_nil spots]
        exact h
      · rw [htext, List.append_nil]
    · refine ⟨c.push s.toList, ?_, hplain s.toList (fun _ => rfl) (if_neg hs)⟩
      rw [write, addLines, if_neg hs]
  | source s m =>
    cases m with
    | none => exact ⟨_, rfl, hplain (stripUrlComment s.toList) (fun _ => rfl) rfl⟩
    | some m =>
      obtain ⟨b', hadd, hholds, hline, hcolumn, hsources, hnames⟩ :=
        addMap_ok h.builder (hp m rfl)
      rw [h.place.line] at hholds hline
      have hmoved : ({ c with builder := b' } : Concat).Holds
          (spots ++ m.spots (Text.lineBreaks c.content.toList)) :=
        ⟨hholds, hline, hcolumn.trans h.place.column⟩
      obtain ⟨hpush, hcontent, hsources', hnames'⟩ := push_ok hmoved (stripUrlComment s.toList)
      refine ⟨_, ?_, hpush, hcontent, fun s hs => hsources s (hsources' ▸ hs),
        fun n hn => hnames n (hnames' ▸ hn)⟩
      rw [write, addSource, hadd]

/-- What is written of pieces, and where its map leads. The induction is on the pieces; each begins on
the line to which the ones before it have come. -/
theorem writeAll_ok (ps : List Piece) :
    ∀ {c : Concat} {spots : List Spot}, c.Holds spots → (∀ p ∈ ps, ∀ m ∈ p.map?, m.Fit) →
      ∃ c', c.writeAll ps = .ok c' ∧
        c'.Holds (spots ++ spotsFrom (Text.lineBreaks c.content.toList) ps) ∧
        c'.content.toList = c.content.toList ++ ps.flatMap Piece.text ∧
        (∀ s ∈ c'.builder.sources, s ∈ c.builder.sources ∨ s ∈ ps.flatMap Piece.sources) ∧
        ∀ n ∈ c'.builder.names, n ∈ c.builder.names ∨ n ∈ ps.flatMap Piece.names := by
  induction ps with
  | nil =>
    intro c spots h _
    exact ⟨c, rfl, by simpa [spotsFrom] using h, by simp, fun s hs => .inl hs, fun n hn => .inl hn⟩
  | cons p ps ih =>
    intro c spots h hps
    obtain ⟨c₁, hwrite, hholds, hcontent, hsources, hnames⟩ :=
      write_ok h p (hps p List.mem_cons_self)
    obtain ⟨c', hwriteAll, hholds', hcontent', hsources', hnames'⟩ :=
      ih hholds fun q hq => hps q (List.mem_cons_of_mem p hq)
    have hstart : Text.lineBreaks c₁.content.toList
        = Text.lineBreaks c.content.toList + p.height := by
      rw [hcontent]
      exact List.count_append
    refine ⟨c', ?_, ?_, ?_, fun s hs => ?_, fun n hn => ?_⟩
    · rw [writeAll, hwrite]
      exact hwriteAll
    · rw [spotsFrom, ← List.append_assoc, ← hstart]
      exact hholds'
    · rw [hcontent', hcontent, List.flatMap_cons, List.append_assoc]
    · rw [List.flatMap_cons, List.mem_append, ← or_assoc]
      exact (hsources' s hs).imp (hsources s) id
    · rw [List.flatMap_cons, List.mem_append, ← or_assoc]
      exact (hnames' n hn).imp (hnames n) id

end Concat

/-! ## The order of the lines -/

/-- The line on which the next piece with a map starts. -/
def nextMapped? : Nat → List Piece → Option Nat
  | _, [] => none
  | start, p :: ps => if p.map?.isSome then some start else nextMapped? (start + p.height) ps

/-- No map leads from a line at or behind the start of the next piece that has one. -/
def Apart : Nat → List Piece → Prop
  | _, [] => True
  | start, p :: ps =>
    (∀ next ∈ nextMapped? (start + p.height) ps, ∀ s ∈ p.spots start, s.line < next) ∧
      Apart (start + p.height) ps

instance decidableApart : ∀ (start : Nat) (ps : List Piece), Decidable (Apart start ps)
  | _, [] => .isTrue trivial
  | start, p :: ps =>
    have := decidableApart (start + p.height) ps
    inferInstanceAs (Decidable (_ ∧ _))

theorem mem_spots {m : SourceMap} {start : Nat} {s : Spot} (h : s ∈ m.spots start) :
    start ≤ s.line ∧ ∃ lines, decodeMappings m.mappings = .ok lines ∧ ∃ segments ∈ lines,
      ∃ segment ∈ segments, ∃ o, segment.origin = some o ∧ s.column = segment.column ∧
        s.sourceLine = o.line ∧ s.sourceColumn = o.column := by
  unfold spots at h
  cases hlines : decodeMappings m.mappings with
  | error e =>
    rw [hlines] at h
    exact nomatch h
  | ok lines =>
    rw [hlines] at h
    obtain ⟨segment, hsegment, hs⟩ := List.mem_filterMap.mp h
    obtain ⟨o, ho, rfl⟩ := Option.map_eq_some_iff.mp hs
    obtain ⟨hle, segments, hin, hmem⟩ := Concat.mem_numbered hsegment
    exact ⟨hle, lines, rfl, segments, hin, segment.2, hmem, o, ho, rfl, rfl, rfl⟩

theorem pairwise_numbered (lines : List (List Segment)) :
    ∀ start, ((Concat.numbered start lines).map Prod.fst).Pairwise (· ≤ ·) := by
  induction lines with
  | nil => exact fun _ => .nil
  | cons segments lines ih =>
    intro start
    rw [Concat.numbered, List.map_append, List.pairwise_append]
    have hfirst : ∀ l ∈ (segments.map (start, ·)).map Prod.fst, l = start := by simp
    refine ⟨List.pairwise_of_forall_mem_list fun l hl k hk => ?_, ih (start + 1), fun l hl k hk => ?_⟩
    · rw [hfirst l hl, hfirst k hk]
    · obtain ⟨s, hs, rfl⟩ := List.mem_map.mp hk
      rw [hfirst l hl]
      exact Nat.le_of_succ_le (Concat.mem_numbered hs).1

theorem pairwise_spots (m : SourceMap) (start : Nat) :
    ((m.spots start).map Spot.line).Pairwise (· ≤ ·) := by
  unfold spots
  split
  · rename_i lines hlines
    rw [List.pairwise_map, List.pairwise_filterMap]
    refine (List.pairwise_map.mp (pairwise_numbered lines start)).imp fun hle s hs t ht => ?_
    obtain ⟨o, -, rfl⟩ := Option.map_eq_some_iff.mp hs
    obtain ⟨o', -, rfl⟩ := Option.map_eq_some_iff.mp ht
    exact hle
  · exact .nil

theorem le_of_mem_spotsFrom {ps : List Piece} :
    ∀ {start : Nat} {s : Spot}, s ∈ spotsFrom start ps → start ≤ s.line := by
  induction ps with
  | nil => exact fun h => nomatch h
  | cons p ps ih =>
    intro start s h
    rcases List.mem_append.mp h with h | h
    · unfold Piece.spots at h
      cases hmap : p.map? with
      | none =>
        rw [hmap] at h
        exact nomatch h
      | some m =>
        rw [hmap] at h
        exact (mem_spots h).1
    · exact Nat.le_trans (Nat.le_add_right _ _) (ih h)

/-- Spots do not stand before the first piece that has a map. -/
theorem exists_nextMapped? {ps : List Piece} :
    ∀ {start : Nat} {s : Spot}, s ∈ spotsFrom start ps →
      ∃ next, nextMapped? start ps = some next ∧ next ≤ s.line := by
  induction ps with
  | nil => exact fun h => nomatch h
  | cons p ps ih =>
    intro start s h
    have hstart := le_of_mem_spotsFrom h
    rw [nextMapped?]
    rw [spotsFrom, Piece.spots] at h
    cases hmap : p.map? with
    | some m => exact ⟨start, if_pos rfl, hstart⟩
    | none =>
      rw [hmap] at h
      exact ih h

/-- The numbers of spots are those of segments. -/
theorem lt_of_mem_spotsFrom {ps : List Piece} (hfit : ∀ p ∈ ps, ∀ m ∈ p.map?, m.Fit) :
    ∀ {start : Nat} {s : Spot}, s ∈ spotsFrom start ps →
      s.column < pow2 62 ∧ s.sourceLine < pow2 62 ∧ s.sourceColumn < pow2 62 := by
  induction ps with
  | nil => exact fun h => nomatch h
  | cons p ps ih =>
    intro start s h
    rcases List.mem_append.mp h with h | h
    · unfold Piece.spots at h
      cases hmap : p.map? with
      | none =>
        rw [hmap] at h
        exact nomatch h
      | some m =>
        rw [hmap] at h
        obtain ⟨lines, hlines, hsegments⟩ := hfit p List.mem_cons_self m hmap
        obtain ⟨-, lines', hlines', segments, hin, segment, hmem, o, ho, hcolumn, hline, hsource⟩ :=
          mem_spots h
        obtain rfl : lines = lines' := Except.ok.inj (hlines.symm.trans hlines')
        rw [hcolumn, hline, hsource]
        exact (hsegments segments hin segment hmem o ho).2
    · exact ih (fun q hq => hfit q (List.mem_cons_of_mem p hq)) h

/-- The lines of the spots do not go back where maps stay apart. -/
theorem pairwise_spotsFrom {ps : List Piece} :
    ∀ {start : Nat}, Apart start ps →
      ((spotsFrom start ps).map Spot.line).Pairwise (· ≤ ·) := by
  induction ps with
  | nil => exact fun _ => .nil
  | cons p ps ih =>
    intro start ⟨hnext, hrest⟩
    rw [spotsFrom, List.map_append, List.pairwise_append]
    refine ⟨?_, ih hrest, fun l hl k hk => ?_⟩
    · unfold Piece.spots
      cases p.map? with
      | none => exact .nil
      | some m => exact pairwise_spots m start
    · obtain ⟨s, hs, rfl⟩ := List.mem_map.mp hl
      obtain ⟨t, ht, rfl⟩ := List.mem_map.mp hk
      obtain ⟨next, heq, hle⟩ := exists_nextMapped? ht
      exact Nat.le_trans (Nat.le_of_lt (hnext next heq s hs)) hle

/-! ## Reading the composite map -/

namespace Concat

theorem numbered_replicate (k : Nat) (lines : List (List Segment)) :
    ∀ start, numbered start (List.replicate k [] ++ lines) = numbered (start + k) lines := by
  induction k with
  | zero => exact fun _ => rfl
  | succ k ih =>
    intro start
    rw [List.replicate_succ, List.cons_append, numbered, ih (start + 1), Nat.add_right_comm]
    rfl

/-- The segments in the rows of mappings are those of the mappings, each with its line. -/
theorem numbered_rows (ms : List Mapping) :
    ∀ {start : Nat}, (start :: ms.map Mapping.line).Pairwise (· ≤ ·) →
      numbered start (Builder.rows start ms) = ms.map fun m => (m.line, m.segment) := by
  induction ms with
  | nil => exact fun _ => rfl
  | cons m ms ih =>
    intro start hlines
    have hle : start ≤ m.line := List.rel_of_pairwise_cons hlines List.mem_cons_self
    have hrest := ih hlines.of_cons
    obtain ⟨segments, others, hrows⟩ :=
      List.exists_cons_of_ne_nil (Builder.rows_ne_nil m.line ms)
    rw [Builder.rows, numbered_replicate, Nat.add_sub_cancel' hle, List.map_cons, ← hrest, hrows]
    rfl

/-- A list without duplicates is not longer than another that has its elements, when the duplicates of
that one are not counted. -/
theorem length_lt_of_dedup {list all : List String} (hlist : list.Nodup)
    (hsub : ∀ s ∈ list, s ∈ all) (hall : all.dedup.length < pow2 62) : list.length < pow2 62 :=
  Nat.lt_of_le_of_lt (List.Nodup.subperm hlist fun s hs => List.mem_dedup.mpr (hsub s hs)).length_le
    hall

/-- The text is that of the pieces in their order, each with its last line ended, no lines without a
trace and without the line at the end of a script that names its map. The map, when it is read, has
the sourced segments of the maps of the pieces in their order and no other: each on the line on which
its piece starts plus its own, in its column, with the name of its source, the place in it and its
name, as its own map has them. No source and no name is listed twice.

That holds as long as each map can be read, with listed sources and numbers below 2 ^ 62, and does not
lead from lines behind the start of the next piece that has a map. The sources and names of all maps,
each counted once, are taken to be fewer than 2 ^ 62, as all lists in memory are. -/
theorem finish_writeAll (ps : List Piece) (file : Option String)
    (hfit : ∀ p ∈ ps, ∀ m ∈ p.map?, m.Fit) (hapart : Apart 0 ps)
    (hsources : (ps.flatMap Piece.sources).dedup.length < pow2 62)
    (hnames : (ps.flatMap Piece.names).dedup.length < pow2 62) :
    ∃ c content map rows, empty.writeAll ps = .ok c ∧ c.finish file = (content, map) ∧
      content.toList = ps.flatMap Piece.text ∧ (∀ p ∈ ps, p.Writes p.text) ∧
      decodeMappings map.mappings = .ok rows ∧
      (numbered 0 rows).map (fun s => spot? (map.sources[·]?) map.names s.1 s.2)
        = (spotsFrom 0 ps).map some ∧
      map.sources.Nodup ∧ map.names.Nodup := by
  have hempty : empty.Holds [] := by
    refine ⟨⟨rfl, ?_, ?_, .nil, .nil⟩, rfl, rfl⟩
    · exact fun m hm => nomatch hm
    · exact fun m hm => nomatch hm
  obtain ⟨c, hwrite, hholds, hcontent, hlisted, hnamed⟩ := writeAll_ok ps hempty hfit
  let b := c.builder
  have hspots : b.mappings.map (Mapping.spot b.sources b.names) = spotsFrom 0 ps :=
    hholds.builder.spots
  have hlines : (b.mappings.map Mapping.line).Pairwise (· ≤ ·) := by
    have hsorted := pairwise_spotsFrom hapart
    rw [← hspots, List.map_map] at hsorted
    exact hsorted
  have hsources' : b.sources.length < pow2 62 :=
    length_lt_of_dedup hholds.builder.sources
      (fun s hs => (hlisted s hs).resolve_left List.not_mem_nil) hsources
  have hnames' : b.names.length < pow2 62 :=
    length_lt_of_dedup hholds.builder.names
      (fun n hn => (hnamed n hn).resolve_left List.not_mem_nil) hnames
  have hsmall : ∀ m ∈ b.mappings, m.Small := fun m hm => by
    have hmem : m.spot b.sources b.names ∈ spotsFrom 0 ps := hspots ▸ List.mem_map_of_mem hm
    obtain ⟨hcolumn, hline, hsourceColumn⟩ := lt_of_mem_spotsFrom hfit hmem
    exact ⟨hcolumn, Nat.lt_trans (hholds.builder.source m hm) hsources', hline, hsourceColumn,
      fun n hn => Nat.lt_trans (hholds.builder.name m hm n hn) hnames'⟩
  refine ⟨c, c.content, _, _, hwrite, rfl, hcontent, fun p _ => p.writes_text,
    Builder.decodeMappings_encodeFrom hsmall hlines, ?_, hholds.builder.sources,
    hholds.builder.names⟩
  change (numbered 0 (Builder.rows 0 b.mappings)).map
    (fun s => spot? (b.sources[·]?) b.names s.1 s.2) = _
  rw [numbered_rows b.mappings (List.pairwise_cons.mpr ⟨fun _ _ => Nat.zero_le _, hlines⟩), ← hspots,
    List.map_map, List.map_map]
  rfl

/-- Two scripts, one of which ends in the name of its map; their maps share a source and a name. -/
theorem finish_writeAll_twoScripts :
    ∃ c content map rows, empty.writeAll
        [.lines "", .line "R(",
          .source "a;\n//# sourceMappingURL=a.js.map\n"
            (some ⟨3, none, some "src/", ["a.ts"], [], ["a"], "AAAAA"⟩),
          .source "b;c" (some ⟨3, none, none, ["b.ts", "src/a.ts"], [], ["c", "a"], "AAAA,CCAAC"⟩)]
        = .ok c ∧ c.finish none = (content, map) ∧ content.toList = "R(\na;\nb;c\n".toList ∧
      decodeMappings map.mappings = .ok rows ∧
      (numbered 0 rows).map (fun s => spot? (map.sources[·]?) map.names s.1 s.2)
        = [some ⟨1, 0, some "src/a.ts", 0, 0, some "a"⟩, some ⟨2, 0, some "b.ts", 0, 0, none⟩,
            some ⟨2, 1, some "src/a.ts", 0, 0, some "a"⟩] := by
  have hnone : ∀ m ∈ (none : Option SourceMap), m.Fit := fun m hm => nomatch hm
  have hsome {m : SourceMap} (h : m.Fit) : ∀ n ∈ some m, n.Fit := fun n hn => by
    cases hn
    exact h
  have hone : (⟨3, none, some "src/", ["a.ts"], [], ["a"], "AAAAA"⟩ : SourceMap).Fit :=
    ⟨[[⟨0, some ⟨0, 0, 0, some 0⟩⟩]], rfl, by decide⟩
  have htwo : (⟨3, none, none, ["b.ts", "src/a.ts"], [], ["c", "a"], "AAAA,CCAAC"⟩ :
      SourceMap).Fit :=
    ⟨[[⟨0, some ⟨0, 0, 0, none⟩⟩, ⟨1, some ⟨1, 0, 0, some 1⟩⟩]], rfl, by decide⟩
  obtain ⟨c, content, map, rows, hwrite, hfinish, hcontent, -, hrows, hspots, -⟩ := finish_writeAll
    [.lines "", .line "R(",
      .source "a;\n//# sourceMappingURL=a.js.map\n"
        (some ⟨3, none, some "src/", ["a.ts"], [], ["a"], "AAAAA"⟩),
      .source "b;c" (some ⟨3, none, none, ["b.ts", "src/a.ts"], [], ["c", "a"], "AAAA,CCAAC"⟩)] none
    (List.forall_mem_cons.mpr ⟨hnone, List.forall_mem_cons.mpr ⟨hnone,
      List.forall_mem_cons.mpr ⟨hsome hone, List.forall_mem_singleton.mpr (hsome htwo)⟩⟩⟩)
    (by decide) (by decide) (by decide)
  refine ⟨c, content, map, rows, hwrite, hfinish, hcontent.trans (by decide), hrows,
    hspots.trans (by decide)⟩

end Concat

end SourceMap

end Bundler

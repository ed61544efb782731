/-
What a builder records is read back.

A builder is led along a text: sources are listed, the text is advanced over piece by piece, and
places of it are tied to places in a source. What it records by that can be told from the steps alone
(`SourceMap.recorded`). A mapping stands behind all the text that was advanced over before, so its line
is the number of line breaks there and its column the number of characters behind the last of them. Its
name is the index at which the name is listed in the end, because names are only ever added at the end
of the list.

The lines of the mappings never go back, so the finished map, when it is read, has the segments of the
recorded mappings line by line (`SourceMap.Builder.decodeMappings_takeAll`).
-/
import Bundler.Proofs.Mappings

set_option autoImplicit false

namespace Bundler

/-! ## The last line of a text -/

namespace Text

/-- The last separator of a text with one more character. -/
theorem splitLast?_append_singleton (p : Char → Bool) (c : Char) :
    ∀ cs : List Char, splitLast? p (cs ++ [c])
      = if p c then some (cs, []) else (splitLast? p cs).map fun s => (s.1, s.2 ++ [c])
  | [] => by
    by_cases hc : p c = true <;> simp [splitLast?, hc]
  | d :: cs => by
    rw [List.cons_append, splitLast?, splitLast?_append_singleton p c cs]
    by_cases hc : p c = true
    · simp [hc]
    · simp only [if_neg hc]
      cases hs : splitLast? p cs with
      | some s => simp [splitLast?, hs]
      | none =>
        by_cases hd : p d = true
        · simp [splitLast?, hs, hd]
        · simp [splitLast?, hs, hd]

end Text

theorem Span.lastLine_append_singleton (text : List Char) (c : Char) :
    lastLine (text ++ [c]) = if c = '\n' then [] else lastLine text ++ [c] := by
  unfold lastLine
  rw [Text.splitLast?_append_singleton]
  by_cases hc : c = '\n'
  · simp [hc]
  · simp only [beq_iff_eq, if_neg hc]
    cases Text.splitLast? (fun c => c == '\n') text <;> rfl

/-- Behind a line break comes a new line, and behind any other character the next column of the same line. -/
theorem Span.positionAfter_append_singleton (before : List Char) (c : Char) :
    positionAfter (before ++ [c])
      = if c = '\n' then ((positionAfter before).1 + 1, 1)
        else ((positionAfter before).1, (positionAfter before).2 + 1) := by
  have hbreaks : Text.lineBreaks (before ++ [c])
      = Text.lineBreaks before + if c = '\n' then 1 else 0 := by
    unfold Text.lineBreaks
    rw [List.count_append, List.count_singleton]
    simp
  have hlast := lastLine_append_singleton before c
  unfold positionAfter
  by_cases hc : c = '\n'
  · rw [if_pos hc] at hbreaks hlast ⊢
    rw [hbreaks, hlast]
    rfl
  · rw [if_neg hc] at hbreaks hlast ⊢
    rw [hbreaks, hlast, List.length_append]
    rfl

namespace SourceMap

/-! ## Lists of texts -/

namespace Builder

/-- Listing adds at the end. -/
theorem exists_intern (s : String) (list : List String) :
    ∃ more, (intern s list).2 = list ++ more := by
  unfold intern
  split
  · exact ⟨[], (List.append_nil _).symm⟩
  · exact ⟨[s], rfl⟩

/-- A text that was listed is found where it was listed, however the list goes on. -/
theorem findIdx?_intern (s : String) (list more : List String) :
    ((intern s list).2 ++ more).findIdx? (· == s) = some (intern s list).1 := by
  unfold intern
  cases h : list.findIdx? (· == s) with
  | some i => simp [List.findIdx?_append, h]
  | none => simp [List.findIdx?_append, h, List.findIdx?_cons]

theorem mem_intern {s t : String} {list : List String} :
    t ∈ (intern s list).2 ↔ t ∈ list ∨ t = s := by
  unfold intern
  split
  · rename_i i hsome
    obtain ⟨hlt, hp, -⟩ := List.findIdx?_eq_some_iff_getElem.mp hsome
    have heq : list[i] = s := by simpa using hp
    have hmem : s ∈ list := heq ▸ List.getElem_mem hlt
    exact ⟨.inl, fun h => h.elim id fun heq => heq ▸ hmem⟩
  · simp

theorem nodup_intern {s : String} {list : List String} (h : list.Nodup) :
    (intern s list).2.Nodup := by
  unfold intern
  split
  · exact h
  · rename_i hnone
    have hmem : s ∉ list := fun hmem => by
      have hne := List.findIdx?_eq_none_iff.mp hnone s hmem
      simp at hne
    exact List.nodup_append.mpr ⟨h, List.pairwise_singleton _ s, fun a ha b hb heq =>
      hmem (List.mem_singleton.mp hb ▸ heq ▸ ha)⟩

/-- A name is listed at the end if it is new, and found at its index however the list goes on. -/
theorem addName_ok (b : Builder) (name : Option String) :
    ∃ more, (b.addName name).2 = { b with names := b.names ++ more } ∧
      ∀ others, (b.addName name).1
        = name.bind fun n => (b.names ++ more ++ others).findIdx? (· == n) := by
  cases name with
  | none => exact ⟨[], by simp [addName], fun _ => rfl⟩
  | some n =>
    obtain ⟨more, hmore⟩ := exists_intern n b.names
    refine ⟨more, ?_, fun others => ?_⟩
    · rw [← hmore]
      rfl
    · rw [← hmore]
      exact (findIdx?_intern n b.names others).symm

theorem nodup_addName {b : Builder} (h : b.names.Nodup) (name : Option String) :
    (b.addName name).2.names.Nodup := by
  cases name with
  | none => exact h
  | some n => exact nodup_intern h

theorem mem_addName {b : Builder} {name : Option String} {n : String} :
    n ∈ (b.addName name).2.names ↔ n ∈ b.names ∨ name = some n := by
  cases name with
  | none => simp [addName]
  | some m =>
    rw [show (b.addName (some m)).2.names = (intern m b.names).2 from rfl, mem_intern,
      Option.some.injEq, eq_comm (a := m)]

/-! ## The place in the text -/

/-- A builder has come to the place behind a text. -/
structure At (b : Builder) (text : List Char) : Prop where
  line : b.line = Text.lineBreaks text
  column : b.column = (Span.lastLine text).length

theorem At.step {b : Builder} {text : List Char} (h : b.At text) (c : Char) :
    (b.step c).At (text ++ [c]) := by
  have hname := Span.positionAfter_append_singleton text c
  unfold Span.positionAfter at hname
  obtain ⟨hline, hcolumn⟩ := h
  unfold Builder.step
  by_cases hc : c = '\n'
  · rw [if_pos hc] at hname
    obtain ⟨hline', hcolumn'⟩ := Prod.mk.inj hname
    rw [if_pos (beq_iff_eq.mpr hc)]
    constructor <;> simp only <;> omega
  · rw [if_neg hc] at hname
    obtain ⟨hline', hcolumn'⟩ := Prod.mk.inj hname
    rw [if_neg fun heq => hc (beq_iff_eq.mp heq)]
    constructor <;> simp only <;> omega

theorem At.advance {b : Builder} {before : List Char} (h : b.At before) (text : List Char) :
    (b.advance text).At (before ++ text) := by
  induction text generalizing b before with
  | nil => simpa [Builder.advance] using h
  | cons c text ih =>
    have hnext := ih (h.step c)
    rw [List.append_assoc, List.singleton_append] at hnext
    exact hnext

/-- Only the place moves. -/
theorem advance_eq (b : Builder) (text : List Char) :
    b.advance text
      = { b with line := (b.advance text).line, column := (b.advance text).column } := by
  unfold Builder.advance
  induction text generalizing b with
  | nil => rfl
  | cons c text ih =>
    rw [List.foldl_cons, ih (b.step c)]
    unfold Builder.step
    split <;> rfl

end Builder

/-! ## Steps -/

/-- A step of building a map. -/
inductive BuildStep where
  /-- Lists a source. -/
  | source (name : String)
  /-- Ties the current place to the start of a span of the first source. -/
  | span (s : Span) (name : Option String)
  /-- Ties the current place to a place in a source. -/
  | place (source line column : Nat) (name : Option String)
  /-- Moves the current place behind a text. -/
  | advance (text : List Char)
  deriving DecidableEq

namespace BuildStep

/-- The place in a source that a step ties the current place to, and its name. -/
def origin? : BuildStep → Option (Nat × Nat × Nat × Option String)
  | .span s name => some (0, s.line - 1, s.column - 1, name)
  | .place i line column name => some (i, line, column, name)
  | _ => none

/-- The name that a step gives to a place. -/
def name? (step : BuildStep) : Option String := step.origin?.bind fun o => o.2.2.2

/-- The text that a step moves behind. -/
def text : BuildStep → List Char
  | .advance cs => cs
  | _ => []

/-- The mapping that a step makes behind a text, where names stand in a list. -/
def mapping? (names : List String) (before : List Char) (step : BuildStep) : Option Mapping :=
  step.origin?.map fun (i, line, column, name) =>
    ⟨Text.lineBreaks before, (Span.lastLine before).length, i, line, column,
      name.bind fun n => names.findIdx? (· == n)⟩

end BuildStep

/-- The mappings that steps make behind a text, where names stand in a list. -/
def recorded (names : List String) : List Char → List BuildStep → List Mapping
  | _, [] => []
  | before, step :: steps =>
    (step.mapping? names before).toList ++ recorded names (before ++ step.text) steps

/-- The lines of recorded mappings do not go back. -/
theorem lines_recorded (names : List String) (steps : List BuildStep) :
    ∀ before, (Text.lineBreaks before :: (recorded names before steps).map Mapping.line).Pairwise
      (· ≤ ·) := by
  induction steps with
  | nil => exact fun _ => List.pairwise_singleton _ _
  | cons step steps ih =>
    intro before
    have hnext := ih (before ++ step.text)
    have hle : Text.lineBreaks before ≤ Text.lineBreaks (before ++ step.text) := by
      unfold Text.lineBreaks
      rw [List.count_append]
      exact Nat.le_add_right _ _
    -- the text of a step can only add lines, so the rest does not go back behind its beginning
    have hrest : (Text.lineBreaks before :: (recorded names (before ++ step.text) steps).map
        Mapping.line).Pairwise (· ≤ ·) :=
      List.pairwise_cons.mpr ⟨fun l hl => Nat.le_trans hle (List.rel_of_pairwise_cons hnext hl),
        hnext.of_cons⟩
    rw [recorded, List.map_append]
    cases hm : step.mapping? names before with
    | none => exact hrest
    | some m =>
      have hline : m.line = Text.lineBreaks before := by
        obtain ⟨o, -, rfl⟩ := Option.map_eq_some_iff.mp hm
        rfl
      refine List.pairwise_cons.mpr ⟨fun l hl => ?_, ?_⟩
      · rcases List.mem_cons.mp hl with rfl | hl
        · exact Nat.le_of_eq hline.symm
        · exact List.rel_of_pairwise_cons hrest hl
      · change (m.line :: _).Pairwise _
        rw [hline]
        exact hrest

namespace Builder

/-- A builder after a step. -/
def take (b : Builder) : BuildStep → Builder
  | .source name => (b.addSource name).2
  | .span s name => b.mapSpan s name
  | .place i line column name => b.map i line column name
  | .advance text => b.advance text

/-- A builder after steps. -/
def takeAll (b : Builder) (steps : List BuildStep) : Builder := steps.foldl take b

/-- The builder before the first step, which may have a source already. -/
def begin (source : Option String) : Builder := source.elim empty ofSource

theorem map_eq (b : Builder) (i line column : Nat) (name : Option String) :
    b.map i line column name = { (b.addName name).2 with
      mappings := (b.addName name).2.mappings ++ [⟨(b.addName name).2.line,
        (b.addName name).2.column, i, line, column, (b.addName name).1⟩] } := rfl

/-- A step that ties places together makes its mapping; its name is found in every list that the
names go on to. -/
private theorem map_ok {b : Builder} {before : List Char} (h : b.At before) (i line column : Nat)
    (name : Option String) :
    (b.map i line column name).At before ∧
      ∃ more, (b.map i line column name).names = b.names ++ more ∧
        ∀ others, (b.map i line column name).mappings = b.mappings ++
          [⟨Text.lineBreaks before, (Span.lastLine before).length, i, line, column,
            name.bind fun n => (b.names ++ more ++ others).findIdx? (· == n)⟩] := by
  obtain ⟨more, hb, hname⟩ := b.addName_ok name
  rw [map_eq, hb]
  exact ⟨⟨h.line, h.column⟩, more, rfl, fun others => by
    rw [← hname others, ← h.line, ← h.column]⟩

theorem take_ok {b : Builder} {before : List Char} (h : b.At before) (step : BuildStep) :
    (b.take step).At (before ++ step.text) ∧
      ∃ more, (b.take step).names = b.names ++ more ∧
        ∀ others, (b.take step).mappings
          = b.mappings ++ (step.mapping? (b.names ++ more ++ others) before).toList := by
  cases step with
  | source name =>
    rw [show (BuildStep.source name).text = [] from rfl, List.append_nil]
    exact ⟨⟨h.line, h.column⟩, [], (List.append_nil _).symm, fun _ => (List.append_nil _).symm⟩
  | span s name =>
    rw [show (BuildStep.span s name).text = [] from rfl, List.append_nil]
    exact map_ok h 0 (s.line - 1) (s.column - 1) name
  | place i line column name =>
    rw [show (BuildStep.place i line column name).text = [] from rfl, List.append_nil]
    exact map_ok h i line column name
  | advance text =>
    have heq : b.take (.advance text) = _ := advance_eq b text
    refine ⟨h.advance text, [], ?_, fun _ => ?_⟩
    · rw [heq]
      exact (List.append_nil _).symm
    · rw [heq]
      exact (List.append_nil _).symm

/-- The mappings of a builder are those that its steps make. -/
theorem takeAll_ok (steps : List BuildStep) :
    ∀ (b : Builder) (before : List Char), b.At before →
      ∃ more, (b.takeAll steps).names = b.names ++ more ∧
        (b.takeAll steps).mappings
          = b.mappings ++ recorded (b.takeAll steps).names before steps := by
  induction steps with
  | nil => exact fun b before _ => ⟨[], (List.append_nil _).symm, (List.append_nil _).symm⟩
  | cons step steps ih =>
    intro b before h
    obtain ⟨hat, more, hnames, hmappings⟩ := take_ok h step
    obtain ⟨others, hnames', hmappings'⟩ := ih (b.take step) (before ++ step.text) hat
    have hall : b.takeAll (step :: steps) = (b.take step).takeAll steps := rfl
    rw [hnames] at hnames'
    refine ⟨more ++ others, ?_, ?_⟩
    · rw [hall, hnames', List.append_assoc]
    · rw [hall, hmappings', hmappings others, hnames', recorded, List.append_assoc]

/-- Names are listed once each, and they are those that steps give. -/
theorem names_takeAll (steps : List BuildStep) :
    ∀ b : Builder, b.names.Nodup →
      (b.takeAll steps).names.Nodup ∧
      ∀ n, n ∈ (b.takeAll steps).names ↔ n ∈ b.names ∨ ∃ step ∈ steps, step.name? = some n := by
  induction steps with
  | nil => exact fun b h => ⟨h, fun n => by simp [takeAll]⟩
  | cons step steps ih =>
    intro b h
    have hstep : (b.take step).names.Nodup ∧
        ∀ n, n ∈ (b.take step).names ↔ n ∈ b.names ∨ step.name? = some n := by
      cases step with
      | source name => exact ⟨h, fun n => by simp [take, addSource, BuildStep.name?, BuildStep.origin?]⟩
      | span s name => exact ⟨nodup_addName h name, fun n => mem_addName⟩
      | place i line column name => exact ⟨nodup_addName h name, fun n => mem_addName⟩
      | advance text =>
        have heq : b.take (.advance text) = _ := advance_eq b text
        rw [heq]
        exact ⟨h, fun n => by simp [BuildStep.name?, BuildStep.origin?]⟩
    obtain ⟨hnodup, hmem⟩ := ih (b.take step) hstep.1
    refine ⟨hnodup, fun n => (hmem n).trans ?_⟩
    rw [hstep.2 n, or_assoc]
    simp

/-- The finished map, when it is read, has the segments of the mappings that the steps make, line by
line and in their order, up to the line of the last one; a map without mappings has one empty line.
The names of the mappings are found in the list of names, which are listed once each. Integers are
written by a loop that ends after thirteen rounds at most, and they are read back from the letters, one
behind the other. All this as long as the numbers are below 2 ^ 62. -/
theorem decodeMappings_takeAll (source : Option String) (steps : List BuildStep)
    (hsmall : ∀ m ∈ ((begin source).takeAll steps).mappings, m.Small)
    (vs : List Int) (hvs : ∀ v ∈ vs, v.natAbs < pow2 62) :
    let b := (begin source).takeAll steps
    let ms := recorded b.names [] steps
    decodeMappings b.build.mappings = .ok ((List.range (lastLine 0 ms + 1)).map (row ms)) ∧
    b.mappings = ms ∧ b.names.Nodup ∧ (∀ n, n ∈ b.names ↔ ∃ step ∈ steps, step.name? = some n) ∧
    (∀ v ∈ vs, Vlq.encodeWithin 13 (Vlq.zigzagWord v) = some (Vlq.encode v)) ∧
    Vlq.decode? (vs.flatMap Vlq.encode) = some vs := by
  intro b ms
  have hbegin : (begin source).At [] ∧ (begin source).names = [] ∧ (begin source).mappings = [] := by
    cases source <;> exact ⟨⟨rfl, rfl⟩, rfl, rfl⟩
  obtain ⟨more, -, hmappings⟩ := takeAll_ok steps (begin source) [] hbegin.1
  rw [hbegin.2.2, List.nil_append] at hmappings
  obtain ⟨hnodup, hnames⟩ := names_takeAll steps (begin source) (by
    rw [hbegin.2.1]
    exact List.nodup_nil)
  have hlines : (0 :: ms.map Mapping.line).Pairwise (· ≤ ·) := lines_recorded b.names steps []
  have hdecode := decodeMappings_encodeFrom (by rwa [hmappings] at hsmall) hlines.of_cons
  rw [(rows_eq ms 0 hlines).2, ← List.range_eq_range'] at hdecode
  refine ⟨?_, hmappings, hnodup, fun n => ?_, fun v hv => Vlq.encodeWithin_zigzagWord (hvs v hv),
    Vlq.decode?_flatMap_encode hvs⟩
  · change decodeMappings (String.ofList (encodeFrom .start b.mappings)) = _
    rw [hmappings]
    exact hdecode
  · rw [hnames n, hbegin.2.1]
    simp

/-- A text of three lines, with a name that is given twice. -/
theorem decodeMappings_takeAll_threeLines :
    decodeMappings ((ofSource "a.ts").takeAll
        [.place 0 0 0 none, .advance "var a;\n\n  b".toList, .source "b.ts",
          .place 1 7 4 (some "b"), .advance ['c'], .span ⟨0, 1, 3, 5, 3, 6⟩ (some "b")]).build.mappings
      = .ok [[⟨0, some ⟨0, 0, 0, none⟩⟩], [],
          [⟨3, some ⟨1, 7, 4, some 0⟩⟩, ⟨4, some ⟨0, 2, 4, some 0⟩⟩]] ∧
    Vlq.decode? ([0, -1, 4611686018427387903, -4611686018427387903].flatMap Vlq.encode)
      = some [0, -1, 4611686018427387903, -4611686018427387903] := by
  have h := decodeMappings_takeAll (some "a.ts")
    [.place 0 0 0 none, .advance "var a;\n\n  b".toList, .source "b.ts",
      .place 1 7 4 (some "b"), .advance ['c'], .span ⟨0, 1, 3, 5, 3, 6⟩ (some "b")] (by decide)
    [0, -1, 4611686018427387903, -4611686018427387903] (by decide)
  exact ⟨h.1, h.2.2.2.2.2⟩

end Builder

end SourceMap

end Bundler

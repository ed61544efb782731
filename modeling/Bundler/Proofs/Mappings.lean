/-
Mappings come back from their written form.

Mappings are written one behind the other, with semicolons for the lines that are left behind and
commas on a line. A reader first cuts at all semicolons and then each line at its commas. To compare
the two, the text is taken apart from its front: a reader that has come to some numbers on some line
finds in a text the segments of the rest of that line and those of the lines behind it
(`SourceMap.Builder.Reads`). A line break in front of the text, or one more segment, makes of this what
it should (`Reads.breaks`, `Reads.segment`), and the writing of mappings is made of these two.

What is found are the rows of the mappings (`rows`), as long as no mapping stands on an earlier line
than the one before it, since nothing is written for a line that is gone back. A row holds the mappings
of one line, in order, and the rows end with that of the last mapping (`rows_eq`).
-/
import Bundler.SourceMap.Builder
import Bundler.Proofs.Names
import Bundler.Proofs.Vlq

set_option autoImplicit false

namespace Bundler

/-! ## Splitting -/

namespace Text

variable {p : Char → Bool}

/-- Characters in front of a text belong to its first piece. -/
theorem splitWhere_prepend {as bs first : List Char} {rest : List (List Char)}
    (has : ∀ c ∈ as, p c = false) (h : splitWhere p bs = first :: rest) :
    splitWhere p (as ++ bs) = (as ++ first) :: rest := by
  induction as with
  | nil => exact h
  | cons a as ih =>
    have ha := has a List.mem_cons_self
    rw [List.cons_append, splitWhere, ha, ih fun c hc => has c (List.mem_cons_of_mem a hc)]
    rfl

/-- Separators in front of a text are as many empty pieces. -/
theorem splitWhere_replicate {s : Char} (hs : p s = true) (k : Nat) (bs : List Char) :
    splitWhere p (List.replicate k s ++ bs) = List.replicate k [] ++ splitWhere p bs := by
  induction k with
  | zero => rfl
  | succ k ih =>
    rw [List.replicate_succ, List.cons_append, splitWhere, if_pos hs, ih]
    rfl

end Text

namespace SourceMap

/-! ## Reading lines -/

/-- The segments that a written line holds. -/
def pieces (line : List Char) : List (List Char) :=
  (Text.splitWhere (· == ',') line).filter fun t => !t.isEmpty

theorem pieces_comma (line : List Char) : pieces (',' :: line) = pieces line := by
  simp [pieces, Text.splitWhere]

/-- A segment and what follows it on its line. -/
theorem pieces_append {text line : List Char} (hne : text ≠ [])
    (htext : ∀ c ∈ text, (c == ',') = false) (hline : line = [] ∨ ∃ y, line = ',' :: y) :
    pieces (text ++ line) = text :: pieces line := by
  have hkeep (ts : List (List Char)) :
      (text :: ts).filter (fun t => !t.isEmpty) = text :: ts.filter fun t => !t.isEmpty :=
    List.filter_cons_of_pos (by simpa using hne)
  rcases hline with rfl | ⟨y, rfl⟩
  · rw [List.append_nil]
    unfold pieces
    rw [Text.splitWhere_of_not_mem htext, hkeep]
    rfl
  · rw [pieces_comma]
    unfold pieces
    rw [Text.splitWhere_append (by rfl) y htext, hkeep]

theorem decodeLine_cons {r r' r'' : Running} {generated generated' : Int} {text : List Char}
    {texts : List (List Char)} {s : Segment} {segments : List Segment}
    (h : decodeSegment r generated text = .ok (r', generated', s))
    (h' : decodeLine r' generated' texts = .ok (r'', segments)) :
    decodeLine r generated (text :: texts) = .ok (r'', s :: segments) := by
  rw [decodeLine, h]
  change (decodeLine r' generated' texts >>= fun p => pure (p.1, s :: p.2)) = _
  rw [h']
  rfl

theorem decodeLines_cons {r r' : Running} {line : List Char} {lines : List (List Char)}
    {segments : List Segment} {others : List (List Segment)}
    (h : decodeLine r 0 (pieces line) = .ok (r', segments))
    (h' : decodeLines r' lines = .ok others) :
    decodeLines r (line :: lines) = .ok (segments :: others) := by
  rw [decodeLines]
  change (decodeLine r 0 (pieces line) >>= fun p => decodeLines p.1 lines >>= fun others =>
    pure (p.2 :: others)) = _
  rw [h]
  change (decodeLines r' lines >>= fun others => pure (segments :: others)) = _
  rw [h']
  rfl

/-- Empty lines have no segments and leave the numbers as they are. -/
theorem decodeLines_replicate (r : Running) (k : Nat) {lines : List (List Char)}
    {others : List (List Segment)} (h : decodeLines r lines = .ok others) :
    decodeLines r (List.replicate k [] ++ lines) = .ok (List.replicate k [] ++ others) := by
  induction k with
  | zero => exact h
  | succ k ih =>
    rw [List.replicate_succ, List.cons_append]
    exact decodeLines_cons rfl ih

/-! ## One mapping -/

/-- A mapping as a segment of its line. -/
def Mapping.segment (m : Mapping) : Segment :=
  ⟨m.column, some ⟨m.source, m.sourceLine, m.sourceColumn, m.name⟩⟩

/-- The numbers of a mapping that are written are below 2 ^ 62. -/
structure Mapping.Small (m : Mapping) : Prop where
  column : m.column < pow2 62
  source : m.source < pow2 62
  sourceLine : m.sourceLine < pow2 62
  sourceColumn : m.sourceColumn < pow2 62
  name : ∀ n, m.name = some n → n < pow2 62

instance (m : Mapping) : Decidable m.Small :=
  decidable_of_iff (m.column < pow2 62 ∧ m.source < pow2 62 ∧ m.sourceLine < pow2 62 ∧
      m.sourceColumn < pow2 62 ∧ m.name.getD 0 < pow2 62)
    ⟨fun ⟨hcolumn, hsource, hline, hsourceColumn, hname⟩ =>
      ⟨hcolumn, hsource, hline, hsourceColumn, fun n hn => by rwa [hn] at hname⟩,
    fun h => ⟨h.column, h.source, h.sourceLine, h.sourceColumn, by
      cases hname : m.name with
      | none => exact pow2_pos 62
      | some n => exact h.name n hname⟩⟩

namespace Builder

/-- The numbers from which the next mapping is counted are below 2 ^ 62. -/
structure Written.Small (w : Written) : Prop where
  column : w.column < pow2 62
  source : w.source < pow2 62
  sourceLine : w.sourceLine < pow2 62
  sourceColumn : w.sourceColumn < pow2 62
  name : w.name < pow2 62

/-- The numbers from which a reader counts on. -/
def Written.running (w : Written) : Running := ⟨w.source, w.sourceLine, w.sourceColumn, w.name⟩

/-- The numbers behind a mapping. -/
def Written.behind (w : Written) (m : Mapping) : Written :=
  ⟨(w.toLine m.line).2.line, m.column, m.source, m.sourceLine, m.sourceColumn,
    m.name.getD w.name, true⟩

variable {w : Written} {m : Mapping}

theorem Written.Small.start : Written.start.Small :=
  ⟨pow2_pos 62, pow2_pos 62, pow2_pos 62, pow2_pos 62, pow2_pos 62⟩

theorem Written.Small.toLine (hw : w.Small) (line : Nat) : (w.toLine line).2.Small := by
  unfold Written.toLine
  split
  · exact ⟨pow2_pos 62, hw.source, hw.sourceLine, hw.sourceColumn, hw.name⟩
  · exact hw

theorem Written.Small.behind (hw : w.Small) (hm : m.Small) : (w.behind m).Small where
  column := hm.column
  source := hm.source
  sourceLine := hm.sourceLine
  sourceColumn := hm.sourceColumn
  name := by
    change m.name.getD w.name < _
    cases hname : m.name with
    | none => exact hw.name
    | some n => exact hm.name n hname

theorem running_toLine (w : Written) (line : Nat) : (w.toLine line).2.running = w.running := by
  unfold Written.toLine
  split <;> rfl

theorem running_behind_toLine (w : Written) (m : Mapping) :
    ((w.toLine m.line).2.behind m).running = (w.behind m).running := by
  have hname : (w.toLine m.line).2.name = w.name := by
    unfold Written.toLine
    split <;> rfl
  unfold Written.running Written.behind
  rw [hname]

/-- The differences that are written for a mapping. -/
def differences (w : Written) (m : Mapping) : List Int :=
  [delta m.column w.column, delta m.source w.source, delta m.sourceLine w.sourceLine,
    delta m.sourceColumn w.sourceColumn] ++ (m.name.map fun n => delta n w.name).toList

/-- The text that is written for a mapping, once its line is reached. -/
def segmentText (w : Written) (m : Mapping) : List Char := (differences w m).flatMap Vlq.encode

theorem encodeMapping_eq (w : Written) (m : Mapping) :
    encodeMapping w m = ((w.toLine m.line).1 ++
      ((if (w.toLine m.line).2.started then [','] else []) ++
        segmentText (w.toLine m.line).2 m), w.behind m) := by
  have hname : (w.toLine m.line).2.name = w.name := by
    unfold Written.toLine
    split <;> rfl
  unfold encodeMapping
  simp only [Prod.mk.injEq]
  constructor
  · unfold segmentText differences
    cases m.name <;> simp [List.append_assoc]
  · unfold Written.behind
    rw [hname]

theorem segmentText_ne_nil (w : Written) (m : Mapping) : segmentText w m ≠ [] := by
  unfold segmentText differences
  simp [Vlq.encode_ne_nil]

/-- No separator occurs in a segment. -/
theorem not_mem_segmentText {c : Char} (hc : c ∉ Vlq.digits) :
    ∀ d ∈ segmentText w m, (d == c) = false := by
  intro d hd
  obtain ⟨v, -, hv⟩ := List.mem_flatMap.mp hd
  exact beq_eq_false_iff_ne.mpr fun heq => hc (heq ▸ Vlq.mem_digits_of_mem_encode hv)

theorem natAbs_delta_lt {now before : Nat} (h : now < pow2 62) (h' : before < pow2 62) :
    (delta now before).natAbs < pow2 62 := by
  unfold delta
  omega

theorem addWords_delta {now : Nat} (before : Nat) (h : now < pow2 62) :
    Vlq.addWords before (delta now before) = .ok (now : Int) := by
  have hsum : (before : Int) + delta now before = now := by
    unfold delta
    omega
  rw [Vlq.addWords_of_lt (by rw [hsum]; omega), hsum]

theorem decode?_segmentText (hw : w.Small) (hm : m.Small) :
    Vlq.decode? (segmentText w m) = some (differences w m) := by
  refine Vlq.decode?_flatMap_encode fun v hv => ?_
  unfold differences at hv
  rcases List.mem_append.mp hv with hfirst | hname
  · simp only [List.mem_cons, List.not_mem_nil, or_false] at hfirst
    rcases hfirst with rfl | rfl | rfl | rfl
    · exact natAbs_delta_lt hm.column hw.column
    · exact natAbs_delta_lt hm.source hw.source
    · exact natAbs_delta_lt hm.sourceLine hw.sourceLine
    · exact natAbs_delta_lt hm.sourceColumn hw.sourceColumn
  · obtain ⟨n, hn, rfl⟩ := Option.map_eq_some_iff.mp (Option.mem_toList.mp hname)
    exact natAbs_delta_lt (hm.name n hn) hw.name

/-- A segment is read as the mapping that it was written for. -/
theorem decodeSegment_segmentText (hw : w.Small) (hm : m.Small) :
    decodeSegment w.running w.column (segmentText w m)
      = .ok ((w.behind m).running, (m.column : Int), m.segment) := by
  have hvalues := decode?_segmentText hw hm
  have hcolumn := addWords_delta w.column hm.column
  have hsource := addWords_delta w.source hm.source
  have hline := addWords_delta w.sourceLine hm.sourceLine
  have hsourceColumn := addWords_delta w.sourceColumn hm.sourceColumn
  have hnonneg : ∀ n : Nat, ¬ (n : Int) < 0 := fun n => by omega
  unfold decodeSegment
  rw [hvalues]
  unfold differences Written.running Written.behind Mapping.segment
  cases hname : m.name with
  | none =>
    simp [hcolumn, hsource, hline, hsourceColumn, bind, Except.bind, liftM, monadLift,
      MonadLift.monadLift, Failure.ofFault, pure, Except.pure, hnonneg]
  | some n =>
    have hn := addWords_delta w.name (hm.name n hname)
    have hunsigned := Vlq.toUnsigned_of_lt (hm.name n hname)
    simp [hcolumn, hsource, hline, hsourceColumn, hn, hunsigned, bind, Except.bind, liftM,
      monadLift, MonadLift.monadLift, Failure.ofFault, pure, Except.pure, hnonneg]

/-! ## All mappings -/

/-- A reader that has come to the numbers `w` finds these segments in a text, on the rest of the line
and on the lines behind it. -/
def Reads (w : Written) (text : List Char) (expected : List (List Segment)) : Prop :=
  ∃ first rest r segments others,
    Text.splitWhere (· == ';') text = first :: rest ∧
    (w.started = true → first = [] ∨ ∃ y, first = ',' :: y) ∧
    decodeLine w.running w.column (pieces first) = .ok (r, segments) ∧
    decodeLines r rest = .ok others ∧ expected = segments :: others

theorem Reads.breaks {w' : Written} {text : List Char} {expected : List (List Segment)} (k : Nat)
    (h : Reads w' text expected) (hrunning : w'.running = w.running) (hcolumn : w'.column = 0) :
    Reads w (List.replicate (k + 1) ';' ++ text) (List.replicate (k + 1) [] ++ expected) := by
  obtain ⟨first, rest, r, segments, others, hsplit, -, hdecode, hothers, rfl⟩ := h
  rw [hrunning, hcolumn] at hdecode
  refine ⟨[], List.replicate k [] ++ first :: rest, w.running, [], _, ?_, fun _ => .inl rfl, rfl,
    decodeLines_replicate _ k (decodeLines_cons hdecode hothers), rfl⟩
  rw [Text.splitWhere_replicate rfl, hsplit]
  rfl

theorem Reads.segment {w' : Written} {text : List Char} {segments : List Segment}
    {others : List (List Segment)} (hw : w.Small) (hm : m.Small)
    (h : Reads w' text (segments :: others)) (hrunning : w'.running = (w.behind m).running)
    (hcolumn : w'.column = m.column) (hstarted : w'.started = true) :
    Reads w ((if w.started then [','] else []) ++ segmentText w m ++ text)
      ((m.segment :: segments) :: others) := by
  obtain ⟨first, rest, r, segments, others, hsplit, hstart, hdecode, hothers, heq⟩ := h
  cases heq
  rw [hrunning, hcolumn] at hdecode
  have hpieces : pieces (segmentText w m ++ first) = segmentText w m :: pieces first :=
    pieces_append (segmentText_ne_nil w m) (not_mem_segmentText (by decide)) (hstart hstarted)
  have hline := decodeLine_cons (decodeSegment_segmentText hw hm) hdecode
  rw [← hpieces] at hline
  have hsplit' := Text.splitWhere_prepend (not_mem_segmentText (w := w) (m := m) (by decide)) hsplit
  rw [List.append_assoc]
  -- only the first segment of a line has no comma before it
  cases hs : w.started with
  | false =>
    have hnot : ¬ w.started = true := by simp [hs]
    exact ⟨_, rest, r, _, others, hsplit', fun h => absurd h hnot, hline, hothers, rfl⟩
  | true =>
    refine ⟨',' :: (segmentText w m ++ first), rest, r, _, others, ?_, fun _ => .inr ⟨_, rfl⟩, ?_,
      hothers, rfl⟩
    · exact Text.splitWhere_prepend (show ∀ c ∈ [','], (c == ';') = false by simp) hsplit'
    · rw [pieces_comma]
      exact hline

/-- The segments of mappings on a line and on those behind it, up to that of the last mapping. -/
def rows : Nat → List Mapping → List (List Segment)
  | _, [] => [[]]
  | line, m :: ms =>
    List.replicate (m.line - line) [] ++ (rows m.line ms).modifyHead (m.segment :: ·)

theorem rows_ne_nil (line : Nat) (ms : List Mapping) : rows line ms ≠ [] := by
  induction ms generalizing line with
  | nil => simp [rows]
  | cons m ms ih => simp [rows, ih m.line]

/-- What is written of mappings is read as their rows. -/
theorem reads_encodeFrom (ms : List Mapping) :
    ∀ w : Written, w.Small → (∀ m ∈ ms, m.Small) →
      (w.line :: ms.map Mapping.line).Pairwise (· ≤ ·) →
      Reads w (encodeFrom w ms) (rows w.line ms) := by
  induction ms with
  | nil =>
    intro w _ _ _
    exact ⟨[], [], w.running, [], [], rfl, fun _ => .inl rfl, rfl, rfl, rfl⟩
  | cons m ms ih =>
    intro w hw hms hlines
    have hm := hms m List.mem_cons_self
    have hle : w.line ≤ m.line := List.rel_of_pairwise_cons hlines List.mem_cons_self
    have hline : (w.behind m).line = m.line := by
      change (w.toLine m.line).2.line = m.line
      unfold Written.toLine
      split
      · rfl
      · change w.line = m.line
        omega
    have hrest := ih (w.behind m) (hw.behind hm) (fun n hn => hms n (List.mem_cons_of_mem m hn))
      (by rw [hline]; exact hlines.of_cons)
    rw [hline] at hrest
    obtain ⟨segments, others, hrows⟩ := List.exists_cons_of_ne_nil (rows_ne_nil m.line ms)
    rw [hrows] at hrest
    have hsegment := hrest.segment (hw.toLine m.line) hm (running_behind_toLine w m).symm rfl rfl
    rw [encodeFrom, encodeMapping_eq, rows, hrows]
    simp only [List.append_assoc] at hsegment ⊢
    -- the mapping opens a new line, or it goes on in the one that is open
    by_cases hlt : w.line < m.line
    · have hto : w.toLine m.line = (List.replicate (m.line - w.line) ';',
          { w with line := m.line, column := 0, started := false }) := by
        unfold Written.toLine
        rw [if_pos hlt]
      obtain ⟨k, hk⟩ : ∃ k, m.line - w.line = k + 1 := ⟨m.line - w.line - 1, by omega⟩
      have hbreaks := hsegment.breaks (w := w) k (running_toLine w m.line) (by rw [hto])
      rw [show (w.toLine m.line).1 = List.replicate (k + 1) ';' by rw [hto, hk], hk]
      exact hbreaks
    · have hto : w.toLine m.line = ([], w) := by
        unfold Written.toLine
        rw [if_neg hlt]
      have hzero : m.line - w.line = 0 := by omega
      rw [hto] at hsegment ⊢
      rw [hzero]
      exact hsegment

/-- Mappings in the order of their lines are read back from their written form. -/
theorem decodeMappings_encodeFrom {ms : List Mapping} (hms : ∀ m ∈ ms, m.Small)
    (hlines : (ms.map Mapping.line).Pairwise (· ≤ ·)) :
    decodeMappings (String.ofList (encodeFrom .start ms)) = .ok (rows 0 ms) := by
  obtain ⟨first, rest, r, segments, others, hsplit, -, hdecode, hothers, hrows⟩ :=
    reads_encodeFrom ms .start .start hms
      (List.pairwise_cons.mpr ⟨fun _ _ => Nat.zero_le _, hlines⟩)
  have hrows' : rows 0 ms = segments :: others := hrows
  unfold decodeMappings
  rw [String.toList_ofList, hsplit, hrows']
  exact decodeLines_cons hdecode hothers

/-! ## Rows, line by line -/

/-- The segments of the mappings on a line. -/
def row (ms : List Mapping) (line : Nat) : List Segment :=
  (ms.filter fun m => m.line = line).map Mapping.segment

theorem row_of_forall_lt {ms : List Mapping} {line : Nat} (h : ∀ m ∈ ms, line < m.line) :
    row ms line = [] := by
  unfold row
  rw [List.filter_eq_nil_iff.mpr fun m hm => ?_]
  · rfl
  · have hlt := h m hm
    simp only [decide_eq_true_eq]
    omega

/-- The line of the last mapping, or a given one if there is none. -/
def lastLine (line : Nat) (ms : List Mapping) : Nat := (ms.getLast?.map Mapping.line).getD line

theorem lastLine_cons (line : Nat) (m : Mapping) (ms : List Mapping) :
    lastLine line (m :: ms) = lastLine m.line ms := by
  unfold lastLine
  cases ms with
  | nil => rfl
  | cons n ms =>
    rw [List.getLast?_cons_cons]
    simp [List.getLast?_cons]

/-- The rows are those of the lines from the first to that of the last mapping. -/
theorem rows_eq (ms : List Mapping) :
    ∀ line, (line :: ms.map Mapping.line).Pairwise (· ≤ ·) →
      line ≤ lastLine line ms ∧
      rows line ms = (List.range' line (lastLine line ms - line + 1)).map (row ms) := by
  induction ms with
  | nil =>
    intro line _
    simp [rows, row, lastLine, List.range'_one]
  | cons m ms ih =>
    intro line hlines
    have hle : line ≤ m.line := List.rel_of_pairwise_cons hlines List.mem_cons_self
    obtain ⟨hlast, hrows⟩ := ih m.line hlines.of_cons
    rw [lastLine_cons]
    generalize lastLine m.line ms = last at hlast hrows
    refine ⟨Nat.le_trans hle hlast, ?_⟩
    have hge : ∀ n ∈ m :: ms, m.line ≤ n.line := by
      intro n hn
      rcases List.mem_cons.mp hn with rfl | hn
      · exact Nat.le_refl _
      · exact List.rel_of_pairwise_cons hlines.of_cons (List.mem_map_of_mem hn)
    -- the lines before that of the first mapping, its own line, and those behind it
    have hsplit : List.range' line (last - line + 1)
        = List.range' line (m.line - line) ++ m.line :: List.range' (m.line + 1) (last - m.line) := by
      rw [← List.range'_succ, show last - line + 1 = (m.line - line) + (last - m.line + 1) by omega,
        ← List.range'_append_1, Nat.add_sub_cancel' hle]
    have hbefore : (List.range' line (m.line - line)).map (row (m :: ms))
        = List.replicate (m.line - line) [] := by
      refine List.eq_replicate_iff.mpr ⟨by simp, fun segments hsegments => ?_⟩
      obtain ⟨l, hl, rfl⟩ := List.mem_map.mp hsegments
      have hlt := List.mem_range'_1.mp hl
      exact row_of_forall_lt fun n hn => Nat.lt_of_lt_of_le (by omega) (hge n hn)
    have hown : row (m :: ms) m.line = m.segment :: row ms m.line := by
      simp [row]
    have hbehind : (List.range' (m.line + 1) (last - m.line)).map (row (m :: ms))
        = (List.range' (m.line + 1) (last - m.line)).map (row ms) := by
      refine List.map_congr_left fun l hl => ?_
      have hlt := (List.mem_range'_1.mp hl).1
      unfold row
      rw [List.filter_cons_of_neg (by simp only [decide_eq_true_eq]; omega)]
    rw [rows, hrows, hsplit, List.map_append, List.map_cons, hbefore, hown, hbehind,
      List.range'_succ, List.map_cons]
    rfl

end Builder

end SourceMap

end Bundler

/-
Lines keep their numbers.

Each replacement moves all that follows it by the line breaks that it has more than the text it stands for
(`Script.Replacement.shift`, `Script.WrittenWith.exists_moved`). Padding sees to it that none has fewer, and
none of those that a build makes has more, with two exceptions: the two words of an export give way to one
word without padding, and a name of an import list that goes over several lines is written twice. Where
neither is found, each part of the text that is kept stays on its line, whatever a build sets
(`Session.render_keeps_lines`). This is what the map of a script says, which sends the start of each line to
the start of the line of the same number (`Script.decodeMappings_lineMap`).
-/
import Bundler.Proofs.CalmEdits
import Bundler.Proofs.Mappings
import Bundler.Proofs.Recording
import Bundler.Proofs.Splices
import Mathlib.Algebra.Ring.Int.Defs

set_option autoImplicit false

namespace Bundler

open Text Step

namespace Script

/-! ## What replacements do to the lines -/

variable {text before more rest body : List Char} {cursor : Nat} {r : Replacement} {rs : List Replacement}

/-- The line breaks that a replacement adds to a text, or takes away where the number is negative. -/
def Replacement.shift (text : List Char) (r : Replacement) : Int :=
  lineBreaks r.text - lineBreaks ((slice? text r.start r.stop).getD [])

theorem Replacement.Fits.exists_part (h : r.Fits text) : ∃ part behind,
    Stands text r.start (part ++ behind) ∧ r.stop = r.start + size part ∧
      slice? text r.start r.stop = some part := by
  obtain ⟨⟨here, hhere⟩, ⟨behind, hbehind⟩, hlt⟩ := h
  obtain ⟨part, rfl, hstop⟩ := hhere.exists_part hbehind (Nat.le_of_lt hlt)
  exact ⟨part, behind, hhere, hstop, hstop ▸ hhere.slice?⟩

/-- A replacement that fits the beginning of a text stands for the same part of both. -/
theorem Replacement.Fits.shift_append (h : r.Fits before) (more : List Char) :
    r.shift (before ++ more) = r.shift before := by
  obtain ⟨part, behind, hpart, hstop, hslice⟩ := h.exists_part
  obtain ⟨front, rfl, hstart⟩ := hpart
  have hwhole : Stands (front ++ (part ++ behind) ++ more) r.start (part ++ (behind ++ more)) :=
    ⟨front, by simp only [List.append_assoc], hstart⟩
  unfold shift
  rw [hslice, hstop, hwhole.slice?]

theorem Spliced.stands (h : Spliced text cursor rs body) : ∃ rest, Stands text cursor rest := by
  cases h with
  | rest h => exact ⟨_, h⟩
  | replace h _ _ => exact ⟨_, h⟩

theorem Spliced.fits (h : Spliced text cursor rs body) (hlt : ∀ r ∈ rs, r.start < r.stop) :
    ∀ r ∈ rs, r.Fits text := by
  induction h with
  | rest _ => exact fun _ h => absurd h List.not_mem_nil
  | @replace r rs cursor front back body hfront hstart hrest ih =>
    have hplace := hfront.append front
    rw [← hstart] at hplace
    intro r' hr'
    rcases List.mem_cons.mp hr' with rfl | hr'
    · exact ⟨⟨_, hplace⟩, hrest.stands, hlt _ List.mem_cons_self⟩
    · exact ih (fun r hr => hlt r (List.mem_cons_of_mem _ hr)) r' hr'

/-- What is written has the line breaks of the text, and those that the replacements add. -/
theorem Spliced.lineBreaks_eq (h : Spliced text cursor rs body) (hlt : ∀ r ∈ rs, r.start < r.stop)
    (hrest : Stands text cursor rest) :
    (lineBreaks body : Int) = lineBreaks rest + (rs.map (·.shift text)).sum := by
  have hfits := h.fits hlt
  induction h generalizing rest with
  | rest h =>
    rw [h.eq_of hrest]
    simp
  | @replace r rs cursor front back body hfront hstart hspliced ih =>
    -- the text goes on with what is kept, then what is replaced, then what the later ones are made in
    obtain ⟨part, behind, hpart, hstop, hslice⟩ := (hfits r List.mem_cons_self).exists_part
    obtain rfl := hfront.eq_of hrest
    have hback := hfront.append front
    rw [← hstart] at hback
    obtain rfl := hback.eq_of hpart
    have hbehind := hpart.append part
    rw [← hstop] at hbehind
    have hlater := ih (fun r hr => hlt r (List.mem_cons_of_mem _ hr)) hbehind
      fun r hr => hfits r (List.mem_cons_of_mem _ hr)
    have hshift : r.shift text = lineBreaks r.text - lineBreaks part := by
      unfold Replacement.shift
      rw [hslice]
      rfl
    simp only [lineBreaks_append, List.map_cons, List.sum_cons, hshift]
    omega

/-- A part of a text that no replacement touches moves by the line breaks that are added before it. -/
theorem WrittenWith.exists_moved {s : Script} {o : WriteOptions} {written : Written} {part behind : List Char}
    (h : s.WrittenWith o rs body written) (htext : s.source.toList = before ++ part ++ behind)
    (hout : ∀ r ∈ rs, size before + size part ≤ r.start ∨ r.stop ≤ size before) :
    ∃ earlier later pre post, rs = earlier ++ later ∧ body = pre ++ part ++ post ∧
      Spliced before 0 earlier pre ∧
      (lineBreaks pre : Int) = lineBreaks before + (earlier.map (·.shift s.source.toList)).sum := by
  have hlt : ∀ r ∈ rs, r.start < r.stop := fun r hr => (h.fits r hr).lt
  obtain ⟨earlier, later, pre, post, rfl, hbody, hspliced⟩ := h.spliced.exists_kept htext
    (fun r hr => Nat.le_of_lt (hlt r hr)) (Nat.zero_le _) hout
  have hlt' : ∀ r ∈ earlier, r.start < r.stop := fun r hr => hlt r (List.mem_append_left _ hr)
  -- the earlier replacements stand in the text before the part, so they shift as much in it
  have hshift : earlier.map (·.shift s.source.toList) = earlier.map (·.shift before) := by
    apply List.map_congr_left
    intro r hr
    rw [htext, List.append_assoc]
    exact (hspliced.fits hlt' r hr).shift_append _
  refine ⟨earlier, later, pre, post, rfl, hbody, hspliced, ?_⟩
  rw [hshift]
  exact hspliced.lineBreaks_eq hlt' (.start before)

/-- What a replacement of a script is made for. -/
inductive Replacement.Of (s : Script) (o : WriteOptions) : Replacement → Prop
  | statement {i : Import} {index : Nat} {id : String} {r : Replacement} (hi : i ∈ s.imports)
      (h : padded s.source.toList i.span (importStatement index i.binding id) = .ok r) : Of s o r
  | word {e : String × Span} {word : String} (he : e ∈ s.exports) (hword : word = "var" ∨ word = "function") :
      Of s o ⟨e.2.start, e.2.stop, word.toList⟩
  | init {c : ExportedConstant} {r : Replacement} (hc : c ∈ s.constants) (hedited : c.edited = true)
      (h : padded s.source.toList c.initSpan c.init.render = .ok r) : Of s o r
  | call {c : Call} {r : Replacement} (hc : c ∈ s.calls) (hedited : c.edited = true)
      (h : padded s.source.toList c.span c.render = .ok r) : Of s o r

theorem mem_importReplacements {source : List Char} {o : WriteOptions} :
    ∀ {is : List Import} {index : Nat} {rs : List Replacement},
      importReplacements o source index is = .ok rs → r ∈ rs →
        ∃ i ∈ is, ∃ index id, padded source i.span (importStatement index i.binding id) = .ok r
  | [], _, _, h, hr => by
    cases h
    exact absurd hr List.not_mem_nil
  | i :: is, index, rs, h, hr => by
    unfold importReplacements at h
    obtain ⟨first, hfirst, h⟩ := (except_bind_ok_iff _ _ _).mp h
    obtain ⟨rest, hrest, h⟩ := (except_bind_ok_iff _ _ _).mp h
    cases h
    rcases List.mem_cons.mp hr with rfl | hr
    · exact ⟨i, List.mem_cons_self, index, _, hfirst⟩
    · obtain ⟨i', hi', hone⟩ := mem_importReplacements hrest hr
      exact ⟨i', List.mem_cons_of_mem _ hi', hone⟩

theorem of_replacements {s : Script} {o : WriteOptions} (h : replacements s o = .ok rs) (hr : r ∈ rs) :
    r.Of s o := by
  unfold replacements at h
  obtain ⟨imports, himports, h⟩ := (except_bind_ok_iff _ _ _).mp h
  obtain ⟨constants, hconstants, h⟩ := (except_bind_ok_iff _ _ _).mp h
  obtain ⟨calls, hcalls, h⟩ := (except_bind_ok_iff _ _ _).mp h
  cases h
  simp only [(Span.perm_inOrder _ _).mem_iff, List.mem_append, List.mem_flatten] at hr
  rcases hr with ((hr | ⟨one, hone, hr⟩) | hr) | hr
  · obtain ⟨i, hi, index, id, hpadded⟩ := mem_importReplacements himports hr
    exact .statement hi hpadded
  · obtain ⟨c, hc, hconstant⟩ := exists_of_mem_mapM hconstants hone
    have he : (c.name, c.keyword) ∈ s.exports := List.mem_append_left _ (List.mem_map_of_mem hc)
    unfold constantReplacements at hconstant
    split at hconstant
    · rename_i hedited
      obtain ⟨init, hinit, hconstant⟩ := (except_bind_ok_iff _ _ _).mp hconstant
      cases hconstant
      rcases List.mem_cons.mp hr with rfl | hr
      · exact .word he (.inl rfl)
      · obtain rfl := List.mem_singleton.mp hr
        exact .init hc hedited hinit
    · cases hconstant
      obtain rfl := List.mem_singleton.mp hr
      exact .word he (.inl rfl)
  · obtain ⟨f, hf, rfl⟩ := List.mem_map.mp hr
    exact .word (List.mem_append_right _ (List.mem_map_of_mem hf)) (.inr rfl)
  · obtain ⟨c, hc, hcall⟩ := exists_of_mem_mapM hcalls hr
    obtain ⟨hc, hedited⟩ := List.mem_filter.mp hc
    exact .call hc hedited hcall

theorem WrittenWith.of_mem {s : Script} {o : WriteOptions} {written : Written} (h : s.WrittenWith o rs body written)
    (hr : r ∈ rs) : r.Of s o := by
  obtain ⟨all, hall, rfl⟩ := h.made
  exact of_replacements hall ((made_sublist all 0).subset hr)

/-- A padded replacement adds the line breaks that it has more than the text that it stands for. -/
theorem shift_padded {source : List Char} {span : Span} {new : String}
    (h : padded source span new = .ok r) : ∃ part, slice? source span.start span.stop = some part ∧
      r.shift source = (lineBreaks new.toList - lineBreaks part : Nat) := by
  unfold padded at h
  obtain ⟨part, hpart, h⟩ := (except_bind_ok_iff _ _ _).mp h
  cases h
  have hslice := Fault.ofCut_ok hpart
  refine ⟨part, hslice, ?_⟩
  unfold Replacement.shift
  simp only [lineBreaks_padLines, hslice, Option.getD_some]
  omega

/-! ## Where lines stay -/

/-- A replacement moves no line if it is for none of the two words of an export that stand on several lines,
and for no import whose names do. -/
theorem Replacement.Of.shift_eq_zero {t : Script} {o : WriteOptions} {r : Replacement} (h : r.Of t o)
    (hwords : ∀ e ∈ t.exports, ∀ words, slice? t.source.toList e.2.start e.2.stop = some words →
      lineBreaks words = 0)
    (hnames : ∀ i ∈ t.imports, ∀ name ∈ i.binding.names, lineBreaks name.toList = 0)
    (hinits : ∀ c ∈ t.constants, c.edited = true → c.init.breaks = 0)
    (hcalls : ∀ c ∈ t.calls, ∀ part, slice? t.source.toList c.span.start c.span.stop = some part →
      c.breaks ≤ lineBreaks part) (hfits : r.Fits t.source.toList) : r.shift t.source.toList = 0 := by
  cases h with
  | statement hi h =>
    obtain ⟨part, -, hshift⟩ := shift_padded h
    rw [hshift, lineBreaks_importStatement _ _ (hnames _ hi), Nat.zero_sub]
    rfl
  | @word e word he hword =>
    obtain ⟨words, -, -, -, hslice⟩ := hfits.exists_part
    have hnone := hwords e he words hslice
    have hword : lineBreaks word.toList = 0 := by
      rcases hword with rfl | rfl <;> decide
    unfold Replacement.shift
    rw [hslice, hword, Option.getD_some, hnone]
    rfl
  | init hc hedited h =>
    obtain ⟨part, -, hshift⟩ := shift_padded h
    have hinit := hinits _ hc hedited
    unfold Expr.breaks at hinit
    rw [hshift, hinit, Nat.zero_sub]
    rfl
  | @call c _ hc hedited h =>
    obtain ⟨part, hpart, hshift⟩ := shift_padded h
    have hle : lineBreaks c.render.toList ≤ lineBreaks part := hcalls _ hc part hpart
    rw [hshift, Nat.sub_eq_zero_of_le hle]
    rfl

end Script

/-! ## The map -/

namespace Text

theorem length_splitWhere (p : Char → Bool) (cs : List Char) :
    (splitWhere p cs).length = cs.countP p + 1 := by
  induction cs with
  | nil => rfl
  | cons c cs ih =>
    unfold splitWhere
    by_cases hc : p c = true
    · rw [if_pos hc, List.length_cons, ih, List.countP_cons_of_pos hc]
    · rw [if_neg hc, List.countP_cons_of_neg hc]
      obtain ⟨piece, pieces, heq⟩ := List.exists_cons_of_ne_nil (splitWhere_ne_nil p cs)
      rw [heq] at ih ⊢
      exact ih

theorem length_lines (cs : List Char) : (splitWhere (· == '\n') cs).length = lineBreaks cs + 1 :=
  length_splitWhere _ cs

end Text

namespace SourceMap

/-- The mapping of the start of a line to the start of the line of the same number. -/
def lineMapping (line : Nat) : Mapping := ⟨line, 0, 0, line, 0, none⟩

namespace Builder

theorem rows_lineMapping : ∀ (n line : Nat),
    rows line ((List.range' line (n + 1)).map lineMapping)
      = (List.range' line (n + 1)).map fun i => [(lineMapping i).segment]
  | 0, line => by simp [List.range'_succ, rows, lineMapping]
  | n + 1, line => by
    have hnext := rows_lineMapping n (line + 1)
    -- the rows behind the first line are those of the next line on
    have hskip : rows line ((List.range' (line + 1) (n + 1)).map lineMapping)
        = [] :: rows (line + 1) ((List.range' (line + 1) (n + 1)).map lineMapping) := by
      simp [List.range'_succ, rows, lineMapping]
    rw [List.range'_succ, List.map_cons, rows]
    change List.replicate (line - line) [] ++ (rows line _).modifyHead _ = _
    rw [hskip, hnext, Nat.sub_self]
    rfl

/-- A line without its end leads on along the line. -/
theorem line_advance {line : List Char} (h : '\n' ∉ line) (b : Builder) : (b.advance line).line = b.line := by
  induction line generalizing b with
  | nil => rfl
  | cons c line ih =>
    obtain ⟨hc, hline⟩ := not_or.mp (mt List.mem_cons.mpr h)
    have hstep : (b.step c).line = b.line := by
      unfold step
      rw [if_neg fun heq => hc (beq_iff_eq.mp heq).symm]
    exact (ih hline (b.step c)).trans hstep

/-- Lines that are mapped one behind the other. -/
theorem foldl_lines : ∀ (lines : List (List Char)) (b : Builder), (∀ line ∈ lines, '\n' ∉ line) →
    b.column = 0 → ∃ line column, (lines.zipIdx b.line).foldl (fun b (line, index) =>
        ((b.map 0 index 0 none).advance line).advance ['\n']) b
      = { b with
          mappings := b.mappings ++ (List.range' b.line lines.length).map lineMapping
          line := line
          column := column }
  | [], b, _, _ => ⟨b.line, b.column, by simp⟩
  | cs :: lines, b, h, hcolumn => by
    have hmap : b.map 0 b.line 0 none = { b with mappings := b.mappings ++ [lineMapping b.line] } := by
      rw [map_eq]
      change { b with mappings := b.mappings ++ [(⟨b.line, b.column, 0, b.line, 0, none⟩ : Mapping)] } = _
      rw [hcolumn]
      rfl
    have hnext : ((b.map 0 b.line 0 none).advance cs).advance ['\n'] = { b with
        mappings := b.mappings ++ [lineMapping b.line], line := b.line + 1, column := 0 } := by
      rw [hmap, advance_eq _ cs, line_advance (h cs List.mem_cons_self)]
      rfl
    rw [List.zipIdx_cons, List.foldl_cons]
    simp only [hnext]
    obtain ⟨line, column, hrest⟩ := foldl_lines lines { b with
      mappings := b.mappings ++ [lineMapping b.line], line := b.line + 1, column := 0 }
      (fun cs' hcs' => h cs' (List.mem_cons_of_mem _ hcs')) rfl
    refine ⟨line, column, hrest.trans ?_⟩
    simp [List.range'_succ]

end Builder

end SourceMap

namespace Script

/-- The map of a script sends the start of each line of the text, and nothing else, to the start of the line
of the same number. -/
theorem decodeMappings_lineMap (s : Script) (o : WriteOptions) (h : lineBreaks s.source.toList < pow2 62) :
    (lineMap s o).sources = [s.file] ∧ SourceMap.decodeMappings (lineMap s o).mappings
      = .ok ((List.range (lineBreaks s.source.toList + 1)).map fun i => [⟨0, some ⟨0, i, 0, none⟩⟩]) := by
  obtain ⟨line, column, hlines⟩ := SourceMap.Builder.foldl_lines
    (splitWhere (· == '\n') s.source.toList)
    { SourceMap.Builder.ofSource s.file with file := some o.jsName, sourceRoot := o.sourceRoot }
    (fun cs hcs hmem => by
      have hne := not_mem_splitWhere _ _ cs hcs '\n' hmem
      cases hne) rfl
  rw [length_lines] at hlines
  have hmap : lineMap s o = SourceMap.Builder.build _ := congrArg SourceMap.Builder.build hlines
  rw [hmap]
  refine ⟨rfl, ?_⟩
  have hsmall : ∀ m ∈ (List.range' 0 (lineBreaks s.source.toList + 1)).map SourceMap.lineMapping,
      m.Small := by
    intro m hm
    obtain ⟨i, hi, rfl⟩ := List.mem_map.mp hm
    have hlt : i < pow2 62 := by
      have := List.mem_range'.mp hi
      omega
    have hpos := pow2_pos 62
    exact ⟨hpos, hpos, hlt, hpos, fun n hn => by cases hn⟩
  have hordered : (((List.range' 0 (lineBreaks s.source.toList + 1)).map
      SourceMap.lineMapping).map SourceMap.Mapping.line).Pairwise (· ≤ ·) := by
    rw [List.map_map]
    change ((List.range' 0 _).map id).Pairwise _
    rw [List.map_id]
    exact List.pairwise_le_range' 1
  have hdecoded := SourceMap.Builder.decodeMappings_encodeFrom hsmall hordered
  rw [SourceMap.Builder.rows_lineMapping] at hdecoded
  rw [List.range_eq_range']
  exact hdecoded

end Script

namespace Session

variable {file source : String} {script : Script} {ds : List Diagnostic} {refs : References}
  {overrides : List Override} {o : Script.WriteOptions} {written : Script.Written} {p p' : Project}

/-- Whatever a build sets in a script that was read, no line of its text moves, as long as the two words of
each export stand on one line, and each name in an import list does. -/
theorem render_keeps_lines (hread : Script.read file source = .ok (script, ds))
    (hvalues : ∀ v ∈ overrides, ∃ value, v.value = .ofJson value)
    (hwords : ∀ e ∈ script.exports, ∀ words, slice? source.toList e.2.start e.2.stop = some words →
      lineBreaks words = 0)
    (hnames : ∀ i ∈ script.imports, ∀ names, i.binding = .named names →
      ∀ name ∈ i.binding.names, lineBreaks name.toList = 0)
    (h : render file script refs overrides o p = .ok written p') :
    ∃ (t : Script) (rs : List Script.Replacement) (body : List Char), t.source = source ∧
      t.WrittenWith o rs body written ∧
      ∀ before part behind, source.toList = before ++ part ++ behind →
        (∀ r ∈ rs, size before + size part ≤ r.start ∨ r.stop ≤ size before) →
          ∃ earlier later pre post, rs = earlier ++ later ∧ body = pre ++ part ++ post ∧
            Script.Spliced before 0 earlier pre ∧ lineBreaks pre = lineBreaks before := by
  have hinit : ∀ v ∈ overrides, ∀ e e' : Editing, e.setInit v.constant v.value = .ok e' →
      e.Leads e' ∧ e.Calmer e' := by
    intro v hv e e' hset
    obtain ⟨value, hvalue⟩ := hvalues v hv
    refine ⟨(Editing.Edit.init hset).leads, Editing.calmer_setInit hset ?_⟩
    rw [hvalue]
    exact Expr.breaks_ofJson value
  obtain ⟨e, ⟨hleads, hcalmer⟩, hwrite⟩ :=
    exists_of_render (Resources.carries_leads.and Resources.carries_calmer) hinit h
  obtain ⟨_, _, hread', hsource, hfits, -⟩ := Script.read_ok file source
  cases hread.symm.trans hread'
  have hnodes := hleads.sameNodes
  have hunedited := (Script.unedited_of_read hread).2
  have hsame : e.script.source = source := hnodes.source.trans hsource
  obtain ⟨written', rs, body, hwrite', hwritten⟩ := Script.write_with (hnodes.fits hfits) o
  obtain rfl : written' = written := Except.ok.inj (hwrite'.symm.trans hwrite)
  -- the edits leave all spans where they are, so what was read of the text still stands behind each
  have hlevel : ∀ r ∈ rs, r.shift e.script.source.toList = 0 := by
    intro r hr
    apply (hwritten.of_mem hr).shift_eq_zero
    · rw [hnodes.exports, hsame]
      exact hwords
    · rw [hnodes.imports]
      intro i hi
      rcases (Script.importPlaced_of_read hread hi).names_cases with ⟨names, hi'⟩ | hone
      · exact hnames i hi names hi'
      · exact hone
    · apply hcalmer.constants
      intro c hc hedited
      rw [hunedited.constants c hc] at hedited
      cases hedited
    · intro c hc part hpart
      obtain ⟨id, hid⟩ := List.mem_iff_getElem?.mp hc
      obtain ⟨c₀, hc₀, hle⟩ := hcalmer.calls id c hid
      have hspan : c.span = c₀.span := by
        have hspans := congrArg (fun spans => spans[id]?) hnodes.calls
        simpa only [List.getElem?_map, hid, hc₀, Option.map_some, Option.some.injEq] using hspans
      rw [hspan, hsame] at hpart
      exact Nat.le_trans hle (Script.breaks_le_of_read hread (List.mem_of_getElem? hc₀) hpart)
    · exact hwritten.fits r hr
  refine ⟨e.script, rs, body, hsame, hwritten, ?_⟩
  intro before part behind htext hout
  rw [← hsame] at htext
  obtain ⟨earlier, later, pre, post, rfl, hbody, hspliced, hmoved⟩ := hwritten.exists_moved htext hout
  have hsum : (earlier.map (·.shift e.script.source.toList)).sum = 0 := by
    apply List.sum_eq_zero
    intro n hn
    obtain ⟨r, hr, rfl⟩ := List.mem_map.mp hn
    exact hlevel r (List.mem_append_left _ hr)
  refine ⟨earlier, later, pre, post, rfl, hbody, hspliced, ?_⟩
  omega

end Session

end Bundler

/-
Module statements are rewritten.

A script is written as its text with some spans replaced. The replacements are made from left to right, and
one that starts inside another is left out, so what is written is made of the parts of the text between the
replacements that are made and of their texts (`Script.Spliced`), and each node stands in a span that is
replaced (`Script.exists_made`).

A script that was read has a node for every statement that its text is found to import or export by, edits
leave these nodes where they are, and every span can be cut. So a script that was read is always written,
whatever was edited: no import and no export of its text is left as it was, and each exported name has its
line behind the text (`Session.rewrites_modules`). A constant with nothing behind its equals sign on the
line is no node and is left as it was.
-/
import Bundler.Proofs.Edits

set_option autoImplicit false

namespace Bundler

open Text Step

/-! ## Order -/

theorem Span.pairwise_insertInOrder {α : Type} {place : α → Nat} (a : α) :
    ∀ {bs : List α}, bs.Pairwise (fun a b => place a ≤ place b) →
      (Span.insertInOrder place a bs).Pairwise fun a b => place a ≤ place b
  | [], _ => .cons (fun _ h => absurd h List.not_mem_nil) .nil
  | b :: bs, h => by
    obtain ⟨hfirst, hrest⟩ := List.pairwise_cons.mp h
    unfold Span.insertInOrder
    split
    · rename_i hle
      refine .cons (fun c hc => ?_) h
      rcases List.mem_cons.mp hc with rfl | hc
      · exact hle
      · exact Nat.le_trans hle (hfirst c hc)
    · refine .cons (fun c hc => ?_) (pairwise_insertInOrder a hrest)
      rcases List.mem_cons.mp ((Span.perm_insertInOrder place a bs).mem_iff.mp hc) with rfl | hc
      · omega
      · exact hfirst c hc

/-- What was put in order is in order. -/
theorem Span.pairwise_inOrder {α : Type} (place : α → Nat) :
    ∀ as : List α, (Span.inOrder place as).Pairwise fun a b => place a ≤ place b
  | [] => .nil
  | a :: as => pairwise_insertInOrder a (pairwise_inOrder place as)

namespace Script

/-! ## Replacements -/

variable {text : List Char} {cursor : Nat} {r : Replacement} {rs : List Replacement}

/-- A replacement stands for a part of a text that is not empty. -/
structure Replacement.Fits (text : List Char) (r : Replacement) : Prop where
  start : ∃ rest, Stands text r.start rest
  stop : ∃ rest, Stands text r.stop rest
  lt : r.start < r.stop

/-- The replacements that are made from a place on: one that starts before it is left out. -/
def made (cursor : Nat) : List Replacement → List Replacement
  | [] => []
  | r :: rs => if r.start < cursor then made cursor rs else r :: made r.stop rs

/-- A text from a place on with replacements made: its parts between them, and their texts. -/
inductive Spliced (text : List Char) : Nat → List Replacement → List Char → Prop
  | rest {cursor : Nat} {rest : List Char} (h : Stands text cursor rest) : Spliced text cursor [] rest
  | replace {r : Replacement} {rs : List Replacement} {cursor : Nat} {before behind body : List Char}
      (h : Stands text cursor (before ++ behind)) (hstart : r.start = cursor + size before)
      (hrest : Spliced text r.stop rs body) : Spliced text cursor (r :: rs) (before ++ r.text ++ body)

/-- Replacements that fit a text can be made. -/
theorem replaceSpans_ok : ∀ {rs : List Replacement} {cursor : Nat} {rest : List Char},
    (∀ r ∈ rs, r.Fits text) → Stands text cursor rest →
      ∃ body, replaceSpans cursor rest rs = .ok body ∧ Spliced text cursor (made cursor rs) body
  | [], cursor, rest, _, h => ⟨rest, rfl, .rest h⟩
  | r :: rs, cursor, rest, hfits, h => by
    have hlater : ∀ r' ∈ rs, r'.Fits text := fun r' hr' => hfits r' (List.mem_cons_of_mem _ hr')
    unfold replaceSpans made
    by_cases hskip : r.start < cursor
    · rw [if_pos hskip, if_pos hskip]
      exact replaceSpans_ok hlater h
    · rw [if_neg hskip, if_neg hskip]
      obtain ⟨⟨here, hhere⟩, ⟨behind, hbehind⟩, hlt⟩ := hfits r List.mem_cons_self
      obtain ⟨before, rfl, hstart⟩ := h.exists_part hhere (Nat.le_of_not_lt hskip)
      obtain ⟨replaced, rfl, hstop⟩ := hhere.exists_part hbehind (Nat.le_of_lt hlt)
      obtain ⟨body, hbody, hspliced⟩ := replaceSpans_ok hlater hbehind
      have hbefore : r.start - cursor = size before := by omega
      have hreplaced : r.stop - r.start = size replaced := by omega
      refine ⟨before ++ r.text ++ body, ?_, .replace h hstart hspliced⟩
      simp only [hbefore, hreplaced, takeBytes?_size, dropBytes?_size, Fault.ofCut, hbody, bind, Except.bind]
      rfl

/-- Of replacements in order, one that is not made starts inside another that is. -/
theorem exists_made : ∀ {rs : List Replacement} {cursor : Nat}, rs.Pairwise (fun a b => a.start ≤ b.start) →
    (∀ r ∈ rs, r.start < r.stop) → r ∈ rs → cursor ≤ r.start →
      ∃ r' ∈ made cursor rs, r'.start ≤ r.start ∧ r.start < r'.stop
  | [], _, _, _, hr, _ => absurd hr List.not_mem_nil
  | h :: rs, cursor, hsorted, hlt, hr, hcursor => by
    obtain ⟨hfirst, hsorted⟩ := List.pairwise_cons.mp hsorted
    have hlater : ∀ r ∈ rs, r.start < r.stop := fun r hr => hlt r (List.mem_cons_of_mem _ hr)
    unfold made
    by_cases hskip : h.start < cursor
    · rw [if_pos hskip]
      rcases List.mem_cons.mp hr with rfl | hr
      · omega
      · exact exists_made hsorted hlater hr hcursor
    · rw [if_neg hskip]
      by_cases hinside : r.start < h.stop
      · refine ⟨h, List.mem_cons_self, ?_, hinside⟩
        rcases List.mem_cons.mp hr with rfl | hr
        · exact Nat.le_refl _
        · exact hfirst r hr
      · have hmem : r ∈ rs := by
          rcases List.mem_cons.mp hr with rfl | hr
          · exact absurd (hlt r List.mem_cons_self) hinside
          · exact hr
        obtain ⟨r', hr', hcovers⟩ := exists_made hsorted hlater hmem (Nat.le_of_not_lt hinside)
        exact ⟨r', List.mem_cons_of_mem _ hr', hcovers⟩

/-! ## The replacements of a script -/

variable {source : List Char} {o : WriteOptions}

/-- What stands in a span can be replaced. -/
theorem padded_ok {span : Span} (h : span.Fits source) (text : String) :
    ∃ r, padded source span text = .ok r ∧ r.start = span.start ∧ r.Fits source := by
  obtain ⟨⟨here, hhere⟩, ⟨behind, hbehind⟩, hlt⟩ := h
  obtain ⟨part, rfl, hstop⟩ := hhere.exists_part hbehind (Nat.le_of_lt hlt)
  refine ⟨⟨span.start, span.stop, padLines text.toList part⟩, ?_, rfl, ⟨_, hhere⟩, ⟨_, hbehind⟩, hlt⟩
  unfold padded
  rw [hstop, hhere.slice?]
  rfl

theorem importReplacements_ok : ∀ {is : List Import} (index : Nat), (∀ i ∈ is, i.span.Fits source) →
    ∃ rs, importReplacements o source index is = .ok rs ∧ (∀ r ∈ rs, r.Fits source) ∧
      ∀ i ∈ is, ∃ r ∈ rs, r.start = i.span.start
  | [], _, _ => ⟨[], rfl, fun _ h => absurd h List.not_mem_nil, fun _ h => absurd h List.not_mem_nil⟩
  | i :: is, index, h => by
    obtain ⟨r, hr, hat, hfits⟩ := padded_ok (h i List.mem_cons_self)
      (importStatement index i.binding ((o.moduleNames.get? i.specifier).getD i.specifier))
    obtain ⟨rs, hrs, hall, hfound⟩ :=
      importReplacements_ok (index + 1) fun j hj => h j (List.mem_cons_of_mem _ hj)
    refine ⟨r :: rs, ?_, List.forall_mem_cons.mpr ⟨hfits, hall⟩,
      List.forall_mem_cons.mpr ⟨⟨r, List.mem_cons_self, hat⟩, fun j hj => ?_⟩⟩
    · unfold importReplacements
      simp only [hr, hrs, bind, Except.bind]
      rfl
    · obtain ⟨r', hr', hat'⟩ := hfound j hj
      exact ⟨r', List.mem_cons_of_mem _ hr', hat'⟩

theorem constantReplacements_ok {c : ExportedConstant} (hkeyword : c.keyword.Fits source)
    (hinit : c.initSpan.Fits source) : ∃ rs, constantReplacements source c = .ok rs ∧
      (∀ r ∈ rs, r.Fits source) ∧ ∃ r ∈ rs, r.start = c.keyword.start := by
  have hword : Replacement.Fits source ⟨c.keyword.start, c.keyword.stop, "var".toList⟩ :=
    ⟨hkeyword.start, hkeyword.stop, hkeyword.lt⟩
  unfold constantReplacements
  split
  · obtain ⟨r, hr, -, hfits⟩ := padded_ok hinit c.init.render
    refine ⟨[⟨c.keyword.start, c.keyword.stop, "var".toList⟩, r], ?_, ?_, _, List.mem_cons_self, rfl⟩
    · rw [hr]
      rfl
    · exact List.forall_mem_cons.mpr ⟨hword, List.forall_mem_singleton.mpr hfits⟩
  · exact ⟨[_], rfl, List.forall_mem_singleton.mpr hword, _, List.mem_cons_self, rfl⟩

/-- A script whose nodes are parts of its text has a replacement for each import and export, in the order
of their starts. -/
theorem replacements_ok {s : Script} (h : s.Fits) (o : WriteOptions) :
    ∃ rs, replacements s o = .ok rs ∧ rs.Pairwise (fun a b => a.start ≤ b.start) ∧
      (∀ r ∈ rs, r.Fits s.source.toList) ∧ (∀ i ∈ s.imports, ∃ r ∈ rs, r.start = i.span.start) ∧
      (∀ c ∈ s.constants, ∃ r ∈ rs, r.start = c.keyword.start) ∧
      ∀ f ∈ s.functions, ∃ r ∈ rs, r.start = f.keyword.start := by
  obtain ⟨imports, himports, hi, hiFound⟩ := importReplacements_ok (o := o) 0 h.imports
  obtain ⟨constants, hconstants, hcFound, hc⟩ := exists_mapM_ok fun c hc =>
    constantReplacements_ok (h.constants c hc).1 (h.constants c hc).2
  obtain ⟨calls, hcalls, -, hcallFits⟩ := exists_mapM_ok
    fun c (hc : c ∈ s.calls.filter (·.edited)) => padded_ok (h.calls c (List.mem_filter.mp hc).1) c.render
  have hwritten : replacements s o = .ok (Span.inOrder Replacement.start (imports ++ constants.flatten ++
      (s.functions.map fun f => ⟨f.keyword.start, f.keyword.stop, "function".toList⟩) ++ calls)) := by
    unfold replacements
    simp only [himports, hconstants, hcalls, bind, Except.bind]
    rfl
  refine ⟨_, hwritten, Span.pairwise_inOrder _ _, fun r hr => ?_, fun i hmem => ?_, fun c hmem => ?_,
    fun f hmem => ?_⟩
  all_goals simp only [(Span.perm_inOrder _ _).mem_iff, List.mem_append, List.mem_flatten, List.mem_map] at *
  · rcases hr with ((hr | ⟨rs, hrs, hr⟩) | hr) | hr
    · exact hi r hr
    · obtain ⟨_, -, hall, -⟩ := hc rs hrs
      exact hall r hr
    · obtain ⟨f, hf, rfl⟩ := hr
      exact ⟨(h.functions f hf).start, (h.functions f hf).stop, (h.functions f hf).lt⟩
    · obtain ⟨_, -, -, hfits⟩ := hcallFits r hr
      exact hfits
  · obtain ⟨r, hr, hat⟩ := hiFound i hmem
    exact ⟨r, .inl (.inl (.inl hr)), hat⟩
  · obtain ⟨rs, hrs, -, r, hr, hat⟩ := hcFound c hmem
    exact ⟨r, .inl (.inl (.inr ⟨rs, hrs, hr⟩)), hat⟩
  · exact ⟨_, .inl (.inr ⟨f, hmem, rfl⟩), rfl⟩

/-- The line at the end that names the map. -/
def urlLine (o : WriteOptions) : String :=
  if o.sourceMap then SourceMap.urlComment ++ Path.fileName o.jsName ++ ".map\n" else ""

/-- When the replacements can be made, a script is written with a line for each exported name behind its
text, and the name of the map behind those. -/
theorem write_eq {s : Script} {body : List Char} (hrs : replacements s o = .ok rs)
    (hbody : replaceSpans 0 s.source.toList rs = .ok body) : ∃ written, s.write o = .ok written ∧
      written.js = String.ofList body ++ exportLines (s.exports.map Prod.fst) body ++ urlLine o ∧
      written.sourceMap = if o.sourceMap then some (lineMap s o).toJson else none := by
  unfold write urlLine
  simp only [hrs, hbody, bind, Except.bind]
  refine ⟨_, rfl, ?_, rfl⟩
  simp only
  split
  · rfl
  · rw [String.append_empty]

/-- A script whose nodes are parts of its text is written: as its text with replacements, and with a line
for each exported name behind it. Every import and export stands in a span that is replaced. -/
theorem write_ok {s : Script} (h : s.Fits) (o : WriteOptions) :
    ∃ written rs body more, s.write o = .ok written ∧
      Spliced s.source.toList 0 rs body ∧
      written.js = String.ofList body ++ exportLines (s.exports.map Prod.fst) body ++ more ∧
      (∀ i ∈ s.imports, ∃ r ∈ rs, r.start ≤ i.span.start ∧ i.span.start < r.stop) ∧
      ∀ e ∈ s.exports, ∃ r ∈ rs, r.start ≤ e.2.start ∧ e.2.start < r.stop := by
  obtain ⟨rs, hrs, hsorted, hfits, himports, hconstants, hfunctions⟩ := replacements_ok h o
  obtain ⟨body, hbody, hspliced⟩ := replaceSpans_ok hfits (.start s.source.toList)
  have hcovered : ∀ {start}, (∃ r ∈ rs, r.start = start) →
      ∃ r ∈ made 0 rs, r.start ≤ start ∧ start < r.stop := by
    rintro _ ⟨r, hr, rfl⟩
    exact exists_made hsorted (fun r hr => (hfits r hr).lt) hr (Nat.zero_le _)
  obtain ⟨written, hok, hjs, -⟩ := write_eq hrs hbody
  refine ⟨written, made 0 rs, body, _, hok, hspliced, hjs, fun i hi => hcovered (himports i hi),
    fun e he => ?_⟩
  rcases List.mem_append.mp he with he | he
  · obtain ⟨c, hc, rfl⟩ := List.mem_map.mp he
    exact hcovered (hconstants c hc)
  · obtain ⟨f, hf, rfl⟩ := List.mem_map.mp he
    exact hcovered (hfunctions f hf)

end Script

/-! ## Scripts under edit -/

namespace Editing

/-- Two scripts have the same text, and nodes at the same places. -/
structure SameNodes (s t : Script) : Prop where
  source : t.source = s.source
  imports : t.imports = s.imports
  functions : t.functions = s.functions
  constants : t.constants.map (fun c => (c.name, c.keyword, c.initSpan))
    = s.constants.map fun c => (c.name, c.keyword, c.initSpan)
  calls : t.calls.map Call.span = s.calls.map Call.span

theorem SameNodes.refl (s : Script) : SameNodes s s := ⟨rfl, rfl, rfl, rfl, rfl⟩

theorem SameNodes.trans {s t u : Script} (h : SameNodes s t) (h' : SameNodes t u) : SameNodes s u :=
  ⟨h'.source.trans h.source, h'.imports.trans h.imports, h'.functions.trans h.functions,
    h'.constants.trans h.constants, h'.calls.trans h.calls⟩

variable {e e' : Editing}

theorem sameNodes_editCall {id : Nat} {change : Call → Call} (h : e.editCall id change = .ok e')
    (hchange : ∀ c, (change c).span = c.span) : SameNodes e.script e'.script := by
  obtain ⟨c, hc, -, hscript⟩ := exists_of_editCall h
  rw [hscript]
  refine ⟨rfl, rfl, rfl, rfl, List.ext_getElem? fun j => ?_⟩
  unfold putCall
  rw [List.getElem?_map, List.getElem?_map, List.getElem?_set]
  split
  · rename_i hj
    subst hj
    obtain ⟨hlt, -⟩ := List.getElem?_eq_some_iff.mp (getElem?_of_call hc)
    rw [if_pos hlt, getElem?_of_call hc]
    exact congrArg some (hchange c)
  · rfl

theorem sameNodes_setInit {id : Nat} {value : Expr} (h : e.setInit id value = .ok e') :
    SameNodes e.script e'.script := by
  unfold setInit at h
  split at h
  · cases h
  · cases h
    refine ⟨rfl, rfl, rfl, List.ext_getElem? fun j => ?_, rfl⟩
    unfold putInit
    rw [List.getElem?_map, List.getElem?_map, List.getElem?_modify]
    cases e.script.constants[j]? with
    | none => rfl
    | some c =>
      simp only [Option.map_some, Functor.map]
      split <;> rfl

/-- Edits leave the nodes where they are. -/
theorem Edit.sameNodes (h : Edit e e') : SameNodes e.script e'.script := by
  cases h with
  | method _ h => exact sameNodes_editCall h fun _ => rfl
  | argument _ _ h => exact sameNodes_editCall h fun _ => rfl
  | argumentCount h => exact sameNodes_editCall h fun _ => rfl
  | init h => exact sameNodes_setInit h

theorem Leads.sameNodes (h : Leads e e') : SameNodes e.script e'.script := by
  induction h with
  | refl => exact .refl _
  | tail _ hedit ih => exact ih.trans hedit.sameNodes

/-- So they stay parts of the text. -/
theorem SameNodes.fits {s t : Script} (h : SameNodes s t) (hs : s.Fits) : t.Fits := by
  refine ⟨?_, fun c hc => ?_, ?_, fun c hc => ?_⟩
  · rw [h.imports, h.source]
    exact hs.imports
  · have hmem := List.mem_map_of_mem hc (f := fun c : ExportedConstant => (c.name, c.keyword, c.initSpan))
    rw [h.constants] at hmem
    obtain ⟨c', hc', heq⟩ := List.mem_map.mp hmem
    simp only [Prod.mk.injEq] at heq
    obtain ⟨-, hkeyword, hinit⟩ := heq
    rw [← hkeyword, ← hinit, h.source]
    exact hs.constants c' hc'
  · rw [h.functions, h.source]
    exact hs.functions
  · have hmem := List.mem_map_of_mem hc (f := Call.span)
    rw [h.calls] at hmem
    obtain ⟨c', hc', heq⟩ := List.mem_map.mp hmem
    rw [← heq, h.source]
    exact hs.calls c' hc'

/-- And the same names are exported. -/
theorem SameNodes.exports {s t : Script} (h : SameNodes s t) : t.exports = s.exports := by
  have hpair : ∀ u : Script, u.constants.map (fun c => (c.name, c.keyword))
      = (u.constants.map fun c => (c.name, c.keyword, c.initSpan)).map fun c => (c.1, c.2.1) := by
    intro u
    rw [List.map_map]
    rfl
  unfold Script.exports
  rw [hpair, h.constants, ← hpair, h.functions]

end Editing

namespace Session

/-- Whatever is edited in a script that was read, it is written, with all statements rewritten that its text
is found to import or export by: each stands in a span that is replaced, and behind the text follows a line
for each exported name. -/
theorem rewrites_modules {file source : String} {script : Script} {ds : List Diagnostic} {e : Editing}
    (hread : Script.read file source = .ok (script, ds)) (h : (Editing.start script).Leads e)
    (o : Script.WriteOptions) : ∃ written rs body names more, e.script.write o = .ok written ∧
      Script.Spliced source.toList 0 rs body ∧
      written.js = String.ofList body ++ Script.exportLines names body ++ more ∧
      (∀ start, Script.Imports source.toList (.scan source.toList) start →
        ∃ r ∈ rs, r.start ≤ start ∧ start < r.stop) ∧
      ∀ name start, Script.ExportsConstant source.toList (.scan source.toList) name start ∨
          Script.ExportsFunction source.toList (.scan source.toList) name start →
        name ∈ names ∧ ∃ r ∈ rs, r.start ≤ start ∧ start < r.stop := by
  obtain ⟨_, _, hread', rfl, hfits, hfinds⟩ := Script.read_ok file source
  cases hread.symm.trans hread'
  have hnodes := h.sameNodes
  obtain ⟨written, rs, body, more, hok, hspliced, hjs, himports, hexports⟩ :=
    Script.write_ok (hnodes.fits hfits) o
  rw [hnodes.source] at hspliced
  rw [hnodes.imports] at himports
  rw [hnodes.exports] at hexports hjs
  refine ⟨written, rs, body, _, more, hok, hspliced, hjs, fun start hstart => ?_, fun name start hstart => ?_⟩
  · obtain ⟨i, hi, rfl⟩ := hfinds.imports start hstart
    exact himports i hi
  · have hnode : ∃ e ∈ script.exports, e.1 = name ∧ e.2.start = start := by
      rcases hstart with hstart | hstart
      · obtain ⟨c, hc, hname, hat⟩ := hfinds.constants name start hstart
        exact ⟨_, List.mem_append_left _ (List.mem_map.mpr ⟨c, hc, rfl⟩), hname, hat⟩
      · obtain ⟨f, hf, hname, hat⟩ := hfinds.functions name start hstart
        exact ⟨_, List.mem_append_right _ (List.mem_map.mpr ⟨f, hf, rfl⟩), hname, hat⟩
    obtain ⟨e, he, rfl, rfl⟩ := hnode
    exact ⟨List.mem_map.mpr ⟨e, he, rfl⟩, hexports e he⟩

/-- A constant whose initializer begins on the next line is not found. -/
example : (Script.read "a.ts" "export const x =\n  1;\n").map (fun r => r.1.constants) = .ok [] := by
  decide +kernel

end Session

end Bundler

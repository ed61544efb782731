/-
What is written is the text around what was edited.

The spans that can be replaced come from five readers that know nothing of each other, so one can lie in
another: a call in an initializer that is set anew, the word of an export in an argument. The writer goes
over them in the order of their starts and keeps a place up to which the text is written. A span that
starts before this place starts inside the last one that was replaced, and is left out
(`Script.outermost_made`); all others are replaced, and the text between them is kept as it stands
(`Script.Spliced.kept`).

Steps leave the nodes of a script where they are, and mark the calls and constants that they edit
(`Editing.EditedBy`). So whatever steps a script under edit takes, it is written, and what differs from its
text are the spans of its imports and exports and of what the steps since the last restore have edited
(`Editing.writes_splices`).
-/
import Bundler.Proofs.ModuleSyntax
import Bundler.Proofs.Restoration

set_option autoImplicit false

namespace Bundler

open Text Step

namespace Span

/-! ## Places in order -/

/-- Where a span starts, and where it stops. -/
def ends (s : Span) : Nat × Nat := (s.start, s.stop)

section InOrder

variable {α β : Type} {place : α → Nat} (f : α → β) (place' : β → Nat)

theorem map_insertInOrder (h : ∀ a, place' (f a) = place a) (a : α) (bs : List α) :
    (insertInOrder place a bs).map f = insertInOrder place' (f a) (bs.map f) := by
  induction bs with
  | nil => rfl
  | cons b bs ih =>
    simp only [List.map_cons, insertInOrder, h]
    by_cases hle : place a ≤ place b
    · rw [if_pos hle, if_pos hle, List.map_cons, List.map_cons]
    · rw [if_neg hle, if_neg hle, List.map_cons, ih]

/-- Putting in order looks at the places only. -/
theorem map_inOrder (h : ∀ a, place' (f a) = place a) (as : List α) :
    (inOrder place as).map f = inOrder place' (as.map f) := by
  induction as with
  | nil => rfl
  | cons a as ih =>
    change (insertInOrder place a (inOrder place as)).map f = insertInOrder place' (f a) _
    rw [map_insertInOrder f place' h, ih]
    rfl

end InOrder

/-- What is taken of a list of places, from the first on: a place is left out if it starts inside one
that was taken before it. -/
inductive Outermost : List (Nat × Nat) → List (Nat × Nat) → List (Nat × Nat) → Prop
  | nil (before : List (Nat × Nat)) : Outermost before [] []
  | taken {before as left : List (Nat × Nat)} {a : Nat × Nat}
      (h : ∀ b ∈ before, ¬ (b.1 ≤ a.1 ∧ a.1 < b.2)) (hrest : Outermost (a :: before) as left) :
      Outermost before (a :: as) (a :: left)
  | inside {before as left : List (Nat × Nat)} {a b : Nat × Nat} (hb : b ∈ before)
      (h : b.1 ≤ a.1 ∧ a.1 < b.2) (hrest : Outermost before as left) : Outermost before (a :: as) left

end Span

namespace Script

/-- Where a replacement starts, and where it stops. -/
def Replacement.ends (r : Replacement) : Nat × Nat := (r.start, r.stop)

variable {text : List Char} {cursor : Nat} {rs : List Replacement} {body : List Char}

/-! ## The replacements that are made -/

theorem made_sublist : ∀ (rs : List Replacement) (cursor : Nat), (made cursor rs).Sublist rs
  | [], _ => .slnil
  | r :: rs, cursor => by
    unfold made
    by_cases hskip : r.start < cursor
    · rw [if_pos hskip]
      exact (made_sublist rs cursor).cons r
    · rw [if_neg hskip]
      exact (made_sublist rs r.stop).cons_cons r

/-- Nothing is replaced before the place up to which the text is written, and no two replacements that are
made have a byte in common. -/
theorem made_apart : ∀ {rs : List Replacement} {cursor : Nat}, (∀ r ∈ rs, r.start < r.stop) →
    (∀ r ∈ made cursor rs, cursor ≤ r.start) ∧ (made cursor rs).Pairwise fun r r' => r.stop ≤ r'.start
  | [], _, _ => ⟨fun _ h => absurd h List.not_mem_nil, .nil⟩
  | first :: rs, cursor, hlt => by
    have hlater : ∀ r ∈ rs, r.start < r.stop := fun r hr => hlt r (List.mem_cons_of_mem _ hr)
    unfold made
    by_cases hskip : first.start < cursor
    · rw [if_pos hskip]
      exact made_apart hlater
    · obtain ⟨hbehind, hapart⟩ : (∀ r ∈ made first.stop rs, first.stop ≤ r.start) ∧
          (made first.stop rs).Pairwise fun r r' => r.stop ≤ r'.start := made_apart hlater
      have hfirst := hlt first List.mem_cons_self
      rw [if_neg hskip]
      refine ⟨?_, List.pairwise_cons.mpr ⟨hbehind, hapart⟩⟩
      intro r hr
      rcases List.mem_cons.mp hr with rfl | hr
      · exact Nat.le_of_not_lt hskip
      · have hle := hbehind r hr
        omega

/-- The replacements that are made are those that do not start inside an earlier one. The place up to which
the text is written is the end of the last one that was made, and none of the others starts before that
one. -/
theorem outermost_made {before : List (Nat × Nat)} (hsorted : rs.Pairwise fun r r' => r.start ≤ r'.start)
    (hlt : ∀ r ∈ rs, r.start < r.stop) (hbefore : ∀ b ∈ before, b.2 ≤ cursor)
    (hcursor : cursor = 0 ∨ ∃ b ∈ before, b.2 = cursor ∧ ∀ r ∈ rs, b.1 ≤ r.start) :
    Span.Outermost before (rs.map Replacement.ends) ((made cursor rs).map Replacement.ends) := by
  induction rs generalizing cursor before with
  | nil => exact .nil before
  | cons r rs ih =>
    obtain ⟨hfirst, hsorted⟩ := List.pairwise_cons.mp hsorted
    have hlater : ∀ r ∈ rs, r.start < r.stop := fun r hr => hlt r (List.mem_cons_of_mem _ hr)
    have hr := hlt r List.mem_cons_self
    unfold made
    by_cases hskip : r.start < cursor
    · rw [if_pos hskip, List.map_cons]
      -- the place is not the start of the text any more, so it is the end of one that was made
      rcases hcursor with hzero | ⟨b, hb, hstop, hstart⟩
      · omega
      · have hrest : ∀ r ∈ rs, b.1 ≤ r.start := fun r hr => hstart r (List.mem_cons_of_mem _ hr)
        refine .inside hb ⟨hstart r List.mem_cons_self, ?_⟩
          (ih hsorted hlater hbefore (.inr ⟨b, hb, hstop, hrest⟩))
        change r.start < b.2
        omega
    · rw [if_neg hskip, List.map_cons, List.map_cons]
      refine .taken ?_ (ih hsorted hlater ?_ (.inr ⟨r.ends, List.mem_cons_self, rfl, hfirst⟩))
      · rintro b hb ⟨-, hinside⟩
        have hle := hbefore b hb
        change r.start < b.2 at hinside
        omega
      · intro b hb
        rcases List.mem_cons.mp hb with rfl | hb
        · exact Nat.le_refl _
        · have hle := hbefore b hb
          omega

/-! ## The spans that are replaced -/

/-- The spans of a script that are written anew: those of its imports, the words of its exports, the
initializers of edited constants, and those of edited calls. -/
def changed (s : Script) : List Span :=
  s.imports.map Import.span
    ++ s.constants.flatMap (fun c => if c.edited then [c.keyword, c.initSpan] else [c.keyword])
    ++ s.functions.map ExportedFunction.keyword
    ++ (s.calls.filter (·.edited)).map Call.span

variable {source : List Char} {o : WriteOptions}

theorem ends_padded {span : Span} {new : String} {r : Replacement} (h : padded source span new = .ok r) :
    r.ends = span.ends := by
  unfold padded at h
  obtain ⟨replaced, -, h⟩ := (except_bind_ok_iff _ _ _).mp h
  cases h
  rfl

theorem ends_importReplacements : ∀ {is : List Import} {index : Nat} {rs : List Replacement},
    importReplacements o source index is = .ok rs → rs.map Replacement.ends = is.map (·.span.ends)
  | [], _, _, h => by
    cases h
    rfl
  | i :: is, index, rs, h => by
    unfold importReplacements at h
    obtain ⟨r, hr, h⟩ := (except_bind_ok_iff _ _ _).mp h
    obtain ⟨more, hmore, h⟩ := (except_bind_ok_iff _ _ _).mp h
    cases h
    rw [List.map_cons, List.map_cons, ends_padded hr, ends_importReplacements hmore]

theorem ends_constantReplacements {c : ExportedConstant} (h : constantReplacements source c = .ok rs) :
    rs.map Replacement.ends
      = (if c.edited then [c.keyword, c.initSpan] else [c.keyword]).map Span.ends := by
  unfold constantReplacements at h
  split at h
  · obtain ⟨r, hr, h⟩ := (except_bind_ok_iff _ _ _).mp h
    cases h
    rename_i hedited
    rw [if_pos hedited, List.map_cons, List.map_cons, List.map_cons, ends_padded hr]
    rfl
  · cases h
    rename_i hedited
    rw [if_neg hedited]
    rfl

/-- What is true of each result is true of the list of them. -/
theorem map_of_mapM_ok {α β γ : Type} {f : α → Except Fault β} {g : β → γ} {g' : α → γ}
    (hone : ∀ a b, f a = .ok b → g b = g' a) :
    ∀ {as : List α} {bs : List β}, as.mapM f = .ok bs → bs.map g = as.map g'
  | [], bs, h => by
    cases h
    rfl
  | a :: as, bs, h => by
    rw [List.mapM_cons] at h
    obtain ⟨b, hb, h⟩ := (except_bind_ok_iff _ _ _).mp h
    obtain ⟨more, hmore, h⟩ := (except_bind_ok_iff _ _ _).mp h
    cases h
    rw [List.map_cons, List.map_cons, hone a b hb, map_of_mapM_ok hone hmore]

/-- The replacements of a script stand for its changed spans, in the order of their starts. -/
theorem ends_replacements {s : Script} (h : replacements s o = .ok rs) :
    rs.map Replacement.ends = Span.inOrder Prod.fst (s.changed.map Span.ends) := by
  unfold replacements at h
  obtain ⟨imports, himports, h⟩ := (except_bind_ok_iff _ _ _).mp h
  obtain ⟨constants, hconstants, h⟩ := (except_bind_ok_iff _ _ _).mp h
  obtain ⟨calls, hcalls, h⟩ := (except_bind_ok_iff _ _ _).mp h
  cases h
  have hi := ends_importReplacements himports
  have hc := map_of_mapM_ok
    (fun c rs (h : constantReplacements _ c = .ok rs) => ends_constantReplacements h) hconstants
  have hcall := map_of_mapM_ok (fun c r (h : padded _ c.span c.render = .ok r) => ends_padded h) hcalls
  refine (Span.map_inOrder Replacement.ends Prod.fst (fun _ => rfl) _).trans ?_
  unfold changed
  rw [List.map_append, List.map_append, List.map_append, List.map_append, List.map_append,
    List.map_append, hi, List.map_flatten, hc, hcall, List.map_flatMap, List.flatMap_def, List.map_map,
    List.map_map, List.map_map, List.map_map]
  rfl

/-! ## What is kept -/

/-- A part of a text stands in what is written, behind what the text before it has become. -/
def Kept (text : List Char) (rs : List Replacement) (body : List Char) (start : Nat) (part : List Char) :
    Prop :=
  ∃ before behind earlier later pre post, text = before ++ part ++ behind ∧ start = size before ∧
    rs = earlier ++ later ∧ body = pre ++ part ++ post ∧ Spliced before 0 earlier pre

/-- A place in the first part of a text. -/
theorem exists_stands_of_le {before more rest : List Char} {pos : Nat}
    (h : Stands (before ++ more) pos rest) (hle : pos ≤ size before) :
    ∃ between, Stands before pos between ∧ rest = between ++ more := by
  have hbehind : Stands (before ++ more) (size before) more := ⟨before, rfl, rfl⟩
  obtain ⟨between, rfl, -⟩ := h.exists_part hbehind hle
  obtain ⟨front, heq, hpos⟩ := h
  rw [← List.append_assoc] at heq
  exact ⟨between, ⟨front, List.append_cancel_right heq, hpos⟩, rfl⟩

/-- A part of a text that no replacement touches is kept. -/
theorem Spliced.exists_kept {before part behind : List Char} (h : Spliced text cursor rs body)
    (htext : text = before ++ part ++ behind) (hle : ∀ r ∈ rs, r.start ≤ r.stop)
    (hcursor : cursor ≤ size before)
    (hout : ∀ r ∈ rs, size before + size part ≤ r.start ∨ r.stop ≤ size before) :
    ∃ earlier later pre post, rs = earlier ++ later ∧ body = pre ++ part ++ post ∧
      Spliced before cursor earlier pre := by
  induction h with
  | rest hrest =>
    rw [htext, List.append_assoc] at hrest
    obtain ⟨pre, hpre, rfl⟩ := exists_stands_of_le hrest hcursor
    exact ⟨[], [], pre, behind, rfl, (List.append_assoc ..).symm, .rest hpre⟩
  | @replace r rs cursor front back body hfront hstart _ ih =>
    have hlater : ∀ r ∈ rs, r.start ≤ r.stop := fun r hr => hle r (List.mem_cons_of_mem _ hr)
    rcases hout r List.mem_cons_self with hbehind | hbefore
    · -- the part stands in front of the replacement
      have hback := hfront.append front
      have hafter : Stands text (size before + size part) behind :=
        ⟨before ++ part, htext, (size_append ..).symm⟩
      obtain ⟨post, rfl, -⟩ := hafter.exists_part hback (by omega)
      rw [htext, List.append_assoc] at hfront
      obtain ⟨pre, hpre, heq⟩ := exists_stands_of_le hfront hcursor
      have hfront' : front = pre ++ part ++ post := by
        refine List.append_cancel_right (?_ : front ++ back = pre ++ part ++ post ++ back)
        rw [heq]
        simp only [List.append_assoc]
      refine ⟨[], r :: rs, pre, post ++ r.text ++ body, rfl, ?_, .rest hpre⟩
      rw [hfront']
      simp only [List.append_assoc]
    · -- the replacement stands in front of the part, and so does what is kept before it
      have hr := hle r List.mem_cons_self
      obtain ⟨earlier, later, pre, post, rfl, rfl, hspliced⟩ := ih hlater hbefore fun r' hr' =>
        hout r' (List.mem_cons_of_mem _ hr')
      have hplace : Stands text cursor (front ++ back) := hfront
      rw [htext, List.append_assoc] at hplace
      have hback := hplace.append front
      obtain ⟨between, hbetween, rfl⟩ := exists_stands_of_le hback (by omega)
      obtain ⟨all, hall, heq⟩ := exists_stands_of_le hplace hcursor
      rw [← List.append_assoc] at heq
      obtain rfl := List.append_cancel_right heq
      refine ⟨r :: earlier, later, front ++ r.text ++ pre, post, rfl, ?_, .replace hall hstart hspliced⟩
      simp only [List.append_assoc]

/-! ## What is written -/

/-- What a script was written as with some replacements: its text with these replaced, and behind it the
lines of the exports and of the map. The replacements stand for the changed spans, but for those that start
inside an earlier one, and no two have a byte in common. -/
structure WrittenWith (s : Script) (o : WriteOptions) (rs : List Replacement) (body : List Char)
    (written : Written) : Prop where
  made : ∃ all, replacements s o = .ok all ∧ rs = made 0 all
  spliced : Spliced s.source.toList 0 rs body
  js : written.js = String.ofList body ++ exportLines (s.exports.map Prod.fst) body ++ urlLine o
  map : written.sourceMap = if o.sourceMap then some (lineMap s o).toJson else none
  fits : ∀ r ∈ rs, r.Fits s.source.toList
  apart : rs.Pairwise fun r r' => r.stop ≤ r'.start
  outermost : Span.Outermost [] (Span.inOrder Prod.fst (s.changed.map Span.ends))
    (rs.map Replacement.ends)

theorem write_with {s : Script} (h : s.Fits) (o : WriteOptions) : ∃ written rs body,
    s.write o = .ok written ∧ s.WrittenWith o rs body written := by
  obtain ⟨rs, hrs, hsorted, hfits, -⟩ := replacements_ok h o
  obtain ⟨body, hbody, hspliced⟩ := replaceSpans_ok hfits (.start s.source.toList)
  obtain ⟨written, hok, hjs, hmap⟩ := write_eq hrs hbody
  have hlt : ∀ r ∈ rs, r.start < r.stop := fun r hr => (hfits r hr).lt
  have houtermost : Span.Outermost [] (rs.map Replacement.ends) ((made 0 rs).map Replacement.ends) :=
    outermost_made hsorted hlt (fun _ hb => absurd hb List.not_mem_nil) (.inl rfl)
  rw [ends_replacements hrs] at houtermost
  refine ⟨written, made 0 rs, body, hok, ⟨rs, hrs, rfl⟩, hspliced, hjs, hmap, ?_,
    (made_apart hlt).2, houtermost⟩
  intro r hr
  exact hfits r ((made_sublist rs 0).subset hr)

namespace WrittenWith

variable {s : Script} {written : Written}

/-- A part of the text that no replacement touches is kept. -/
theorem kept (h : s.WrittenWith o rs body written) {span : Span} (hspan : span.Fits s.source.toList)
    (hout : ∀ r ∈ rs, span.stop ≤ r.start ∨ r.stop ≤ span.start) :
    ∃ part, slice? s.source.toList span.start span.stop = some part ∧
      Kept s.source.toList rs body span.start part := by
  obtain ⟨⟨here, hhere⟩, ⟨behind, hbehind⟩, hlt⟩ := hspan
  obtain ⟨part, rfl, hstop⟩ := hhere.exists_part hbehind (Nat.le_of_lt hlt)
  have hslice := hhere.slice?
  rw [← hstop] at hslice
  obtain ⟨before, htext, hstart⟩ := hhere
  rw [← List.append_assoc] at htext
  rw [hstart] at hstop hout
  obtain ⟨earlier, later, pre, post, hrs, hbody, hspliced⟩ := h.spliced.exists_kept htext
    (fun r hr => Nat.le_of_lt (h.fits r hr).lt) (Nat.zero_le _) fun r hr => by
      rw [← hstop]
      exact hout r hr
  exact ⟨part, hslice, before, behind, earlier, later, pre, post, htext, hstart, hrs, hbody, hspliced⟩

/-- A text with nothing to replace is kept. -/
theorem eq_source (h : s.WrittenWith o rs body written) (hchanged : s.changed = []) (hexports : s.exports = []) :
    written.js = s.source ++ urlLine o := by
  have houtermost := h.outermost
  have hspliced := h.spliced
  rw [hchanged] at houtermost
  obtain rfl : rs = [] := by
    cases rs with
    | nil => rfl
    | cons r rs => cases houtermost
  cases hspliced with
  | rest hrest =>
    obtain rfl := hrest.eq_of (.start _)
    have hnone : exportLines [] s.source.toList = "" := rfl
    rw [h.js, hexports, List.map_nil, hnone, String.ofList_toList, String.append_empty]

end WrittenWith

end Script

/-! ## What steps edit -/

namespace EditStep

/-- The call that a step edits. -/
def call? : EditStep → Option Nat
  | method call _ | argument call _ _ | argumentCount call _ => some call
  | initializer _ _ | restore => none

/-- The constant that a step edits. -/
def constant? : EditStep → Option Nat
  | initializer constant _ => some constant
  | method _ _ | argument _ _ _ | argumentCount _ _ | restore => none

end EditStep

namespace Editing

section Marks

variable {α : Type} {edited : α → Bool} {node? : EditStep → Option Nat} {steps more : List EditStep}
  {step : EditStep} {as bs cs : List α}

/-- Each node of a list is edited by one of the steps and marked, or edited by none of them and as it
was. -/
def Marks (edited : α → Bool) (node? : EditStep → Option Nat) (steps : List EditStep) (as bs : List α) :
    Prop :=
  ∀ id b, bs[id]? = some b →
    ((∃ step ∈ steps, node? step = some id) ∧ edited b = true) ∨
      ((∀ step ∈ steps, node? step ≠ some id) ∧ as[id]? = some b)

theorem Marks.nil (as : List α) : Marks edited node? [] as as := by
  intro id b hb
  exact .inr ⟨fun _ h => absurd h List.not_mem_nil, hb⟩

theorem Marks.append (h : Marks edited node? steps as bs) (h' : Marks edited node? more bs cs) :
    Marks edited node? (steps ++ more) as cs := by
  intro id c hc
  rcases h' id c hc with ⟨⟨step, hstep, hnode⟩, hmarked⟩ | ⟨hmore, hb⟩
  · exact .inl ⟨⟨step, List.mem_append_right _ hstep, hnode⟩, hmarked⟩
  · rcases h id c hb with ⟨⟨step, hstep, hnode⟩, hmarked⟩ | ⟨hsteps, ha⟩
    · exact .inl ⟨⟨step, List.mem_append_left _ hstep, hnode⟩, hmarked⟩
    · refine .inr ⟨?_, ha⟩
      intro step hstep
      rcases List.mem_append.mp hstep with hstep | hstep
      · exact hsteps step hstep
      · exact hmore step hstep

theorem marks_of_none (h : node? step = none) : Marks edited node? [step] as as := by
  intro id b hb
  refine .inr ⟨?_, hb⟩
  intro step' hstep' hnode
  obtain rfl := List.mem_singleton.mp hstep'
  rw [h] at hnode
  cases hnode

theorem marks_of_some {id : Nat} (h : node? step = some id) (hother : ∀ j, id ≠ j → bs[j]? = as[j]?)
    (hmarked : ∀ b, bs[id]? = some b → edited b = true) : Marks edited node? [step] as bs := by
  intro j b hb
  by_cases hj : id = j
  · subst hj
    exact .inl ⟨⟨step, List.mem_singleton_self step, h⟩, hmarked b hb⟩
  · rw [hother j hj] at hb
    refine .inr ⟨?_, hb⟩
    intro step' hstep' hnode
    obtain rfl := List.mem_singleton.mp hstep'
    exact hj (Option.some.inj (h.symm.trans hnode))

theorem marks_of_missing (h : ∀ id, node? step = some id → as[id]? = none) :
    Marks edited node? [step] as as := by
  cases hnode : node? step with
  | none => exact marks_of_none hnode
  | some id =>
    refine marks_of_some hnode (fun _ _ => rfl) ?_
    intro b hb
    rw [h id hnode] at hb
    cases hb

/-- A node that was not marked is marked just if a step edits it. -/
theorem Marks.iff (h : Marks edited node? steps as bs) (has : ∀ a ∈ as, edited a = false) {id : Nat} {b : α}
    (hb : bs[id]? = some b) : edited b = true ↔ ∃ step ∈ steps, node? step = some id := by
  rcases h id b hb with ⟨hstep, hmarked⟩ | ⟨hnone, ha⟩
  · exact ⟨fun _ => hstep, fun _ => hmarked⟩
  · have hunmarked := has b (List.mem_of_getElem? ha)
    constructor
    · intro hmarked
      rw [hunmarked] at hmarked
      cases hmarked
    · rintro ⟨step, hstep, hnode⟩
      exact absurd hnode (hnone step hstep)

end Marks

/-- A script after the edits of steps. -/
structure EditedBy (steps : List EditStep) (s t : Script) : Prop extends SameNodes s t where
  marked_calls : Marks Call.edited EditStep.call? steps s.calls t.calls
  marked_constants : Marks ExportedConstant.edited EditStep.constant? steps s.constants t.constants

variable {s t u : Script} {e e' : Editing} {step : EditStep} {steps more : List EditStep}

theorem EditedBy.refl (s : Script) : EditedBy [] s s := ⟨.refl s, .nil _, .nil _⟩

theorem EditedBy.trans (h : EditedBy steps s t) (h' : EditedBy more t u) : EditedBy (steps ++ more) s u :=
  ⟨h.toSameNodes.trans h'.toSameNodes, h.marked_calls.append h'.marked_calls,
    h.marked_constants.append h'.marked_constants⟩

theorem editedBy_editCall {id : Nat} {change : Call → Call} (h : e.editCall id change = .ok e')
    (hchange : ∀ c, (change c).span = c.span) (hcall : step.call? = some id)
    (hconstant : step.constant? = none) : EditedBy [step] e.script e'.script := by
  obtain ⟨c, hc, -, hscript⟩ := exists_of_editCall h
  obtain ⟨hlt, -⟩ := List.getElem?_eq_some_iff.mp (getElem?_of_call hc)
  have hnodes := sameNodes_editCall h hchange
  rw [hscript] at hnodes ⊢
  refine ⟨hnodes, marks_of_some hcall ?_ ?_, marks_of_none hconstant⟩
  · intro j hj
    exact List.getElem?_set_ne hj
  · intro d hd
    unfold putCall at hd
    simp only [List.getElem?_set_self hlt] at hd
    cases hd
    rfl

theorem editedBy_setInit {id : Nat} {value : Expr} (h : e.setInit id value = .ok e') :
    EditedBy [.initializer id value] e.script e'.script := by
  have hnodes := sameNodes_setInit h
  unfold setInit at h
  split at h
  · cases h
  · cases h
    refine ⟨hnodes, marks_of_none rfl, marks_of_some rfl ?_ ?_⟩
    · intro j hj
      exact List.getElem?_modify_ne _ _ hj
    · intro c hc
      unfold putInit at hc
      simp only [List.getElem?_modify_eq] at hc
      obtain ⟨c', -, rfl⟩ := Option.map_eq_some_iff.mp hc
      rfl

theorem editedBy_apply (h : step.apply e = .ok e') (hstep : step ≠ .restore) :
    EditedBy [step] e.script e'.script := by
  cases step with
  | method call name => exact editedBy_editCall h (fun _ => rfl) rfl rfl
  | argument call index value => exact editedBy_editCall h (fun _ => rfl) rfl rfl
  | argumentCount call count => exact editedBy_editCall h (fun _ => rfl) rfl rfl
  | initializer constant value => exact editedBy_setInit h
  | restore => exact absurd rfl hstep

/-- A step that cannot be carried out names no node of the script. -/
theorem editedBy_of_not_fits (h : step.fits s = false) : EditedBy [step] s s := by
  refine ⟨.refl s, marks_of_missing ?_, marks_of_missing ?_⟩
  all_goals
    intro id hnode
    apply List.getElem?_eq_none
    cases step <;> cases hnode <;> exact Nat.le_of_not_lt (of_decide_eq_false h)

theorem editedBy_take (hstep : step ≠ .restore) : EditedBy [step] e.script (e.take step).script := by
  unfold take
  cases hfits : step.fits e.script with
  | true =>
    obtain ⟨e', happly, -, -⟩ := apply_of_fits hfits
    rw [happly]
    exact editedBy_apply happly hstep
  | false =>
    rw [apply_of_not_fits hfits hstep]
    exact editedBy_of_not_fits hfits

theorem editedBy_takeAll (h : .restore ∉ steps) : EditedBy steps e.script (e.takeAll steps).script := by
  induction steps generalizing e with
  | nil => exact .refl _
  | cons step steps ih =>
    obtain ⟨hstep, hsteps⟩ := not_or.mp (mt List.mem_cons.mpr h)
    exact (editedBy_take (Ne.symm hstep)).trans (ih hsteps)

/-- Steps before the last restore leave nothing behind. -/
theorem takeAll_sinceRestore (s : Script) (steps : List EditStep) :
    (start s).takeAll steps = (start s).takeAll (EditStep.sinceRestore steps) := by
  induction steps using List.reverseRecOn with
  | nil => rfl
  | append_singleton steps step ih =>
    by_cases hrestore : step = .restore
    · subst hrestore
      have hback := restored_takeAll (start s) steps
      rw [EditStep.sinceRestore_restore, takeAll_append]
      change start ((start s).takeAll steps).restored = start s
      rw [hback]
      rfl
    · have hone : EditStep.restore ∉ [step] := fun hmem => hrestore (List.mem_singleton.mp hmem).symm
      rw [EditStep.sinceRestore_append steps hone, takeAll_append, takeAll_append, ih]

/-- Steps none of which can be carried out leave all calls unmarked. -/
theorem EditedBy.unmarked (h : EditedBy steps s t) (hs : s.Unedited)
    (hnone : ∀ step ∈ steps, step.fits s = false) : ∀ c ∈ t.calls, c.edited = false := by
  intro c hc
  obtain ⟨id, hid⟩ := List.mem_iff_getElem?.mp hc
  by_contra hmarked
  rw [Bool.not_eq_false, h.marked_calls.iff hs.calls hid] at hmarked
  obtain ⟨step, hstep, hnode⟩ := hmarked
  have hlt : id < s.calls.length := by
    rw [← List.length_map (f := Call.span), ← h.calls, List.length_map]
    exact (List.getElem?_eq_some_iff.mp hid).1
  have hfits : step.fits s = true := by
    cases step <;> cases hnode <;> exact decide_eq_true hlt
  rw [hnone step hstep] at hfits
  cases hfits

/-- Whatever steps a script under edit takes that was read, it is written, with the spans of its imports, of
the words of its exports and of what the steps since the last restore have edited replaced, as far as they do
not start inside an earlier one. A call that is not marked is kept if no replacement touches it, and where
nothing is imported, exported or edited the text is kept. -/
theorem writes_splices (file source : String) (steps : List EditStep) (o : Script.WriteOptions) :
    ∃ script ds t written rs body, Script.read file source = .ok (script, ds) ∧
      ((start script).takeAll steps).script = t ∧ script.Unedited ∧
      EditedBy (EditStep.sinceRestore steps) script t ∧ t.source = source ∧
      t.write o = .ok written ∧ t.WrittenWith o rs body written ∧
      (∀ c ∈ t.calls, c.edited = false → (∀ r ∈ rs, c.span.stop ≤ r.start ∨ r.stop ≤ c.span.start) →
        ∃ part, slice? source.toList c.span.start c.span.stop = some part ∧
          Script.Kept source.toList rs body c.span.start part) ∧
      (script.imports = [] → script.exports = [] →
        (∀ step ∈ EditStep.sinceRestore steps, step.fits script = false) →
          written.js = source ++ Script.urlLine o) := by
  obtain ⟨script, ds, hread, hsource, hfits, -⟩ := Script.read_ok file source
  have hunedited := (Script.unedited_of_read hread).2
  have hedited : EditedBy (EditStep.sinceRestore steps) script ((start script).takeAll steps).script := by
    -- a restore undoes all marks, so only what follows the last one counts
    obtain ⟨-, -, hnone⟩ := EditStep.exists_sinceRestore steps
    rw [takeAll_sinceRestore]
    exact editedBy_takeAll (e := start script) hnone
  generalize ht : ((start script).takeAll steps).script = t at hedited
  have hsame : t.source = source := hedited.source.trans hsource
  have htfits := hedited.fits hfits
  obtain ⟨written, rs, body, hwrite, hwritten⟩ := Script.write_with htfits o
  refine ⟨script, ds, t, written, rs, body, hread, ht, hunedited, hedited, hsame, hwrite, hwritten, ?_, ?_⟩
  · intro c hc _ hout
    rw [← hsame]
    exact hwritten.kept (htfits.calls c hc) hout
  · intro himports hexports hnone
    have hcalls := hedited.unmarked hunedited hnone
    obtain ⟨hconstants, hfunctions⟩ := List.append_eq_nil_iff.mp (hedited.exports.trans hexports)
    rw [← hsame]
    apply hwritten.eq_source
    · have hmarked : t.calls.filter (·.edited) = [] := by
        apply List.filter_eq_nil_iff.mpr
        intro c hc
        rw [hcalls c hc]
        exact Bool.false_ne_true
      unfold Script.changed
      rw [hedited.imports, himports, List.map_eq_nil_iff.mp hconstants, List.map_eq_nil_iff.mp hfunctions,
        hmarked]
      rfl
    · exact hedited.exports.trans hexports

end Editing

end Bundler

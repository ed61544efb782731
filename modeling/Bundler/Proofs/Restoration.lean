/-
Edits can be taken back one by one.

A script under edit takes any steps in any order: its calls and constants are set, some of them again
and again, everything is taken back in between, and now and then a step names a call or a constant
that the script does not have, which is a fault and changes nothing. Through all of this a script
under edit keeps the shape of the script that it began with, so whether a step can be carried out is
a matter of that script alone (`EditStep.fits`), and the number of edits since everything was last
taken back can be read off the steps.

Each step that is carried out puts one record in front of the others, and the record leads back to
the script before the step (`Editing.Extends`). So the newest records, as many as there are edits
behind some point, lead back to that point exactly, records and all, and all of them together lead
back to the script at the beginning (`Editing.reversible`).
-/
import Mathlib.Data.List.Induction
import Mathlib.Data.List.TakeWhile
import Bundler.Proofs.Edits

set_option autoImplicit false

namespace Bundler

/-! ## Steps -/

/-- A step on a script under edit. -/
inductive EditStep where
  | method (call : Nat) (name : String)
  | argument (call index : Nat) (value : Expr)
  | argumentCount (call count : Nat)
  | initializer (constant : Nat) (value : Expr)
  /-- Takes all edits back. -/
  | restore
  deriving DecidableEq

namespace EditStep

/-- What a step makes of a script under edit. -/
def apply (e : Editing) : EditStep → Except Fault Editing
  | method call name => e.setMethod call name
  | argument call index value => e.setArgument call index value
  | argumentCount call count => e.setArgumentCount call count
  | initializer constant value => e.setInit constant value
  | restore => .ok e.restore

/-- Whether a script has the node that a step edits. Taking everything back edits nothing. -/
def fits (s : Script) : EditStep → Bool
  | method call _ | argument call _ _ | argumentCount call _ => call < s.calls.length
  | initializer constant _ => constant < s.constants.length
  | restore => false

/-- The steps behind the last one that takes everything back. -/
def sinceRestore (steps : List EditStep) : List EditStep :=
  (steps.reverse.takeWhile (· ≠ restore)).reverse

theorem sinceRestore_append (before : List EditStep) {after : List EditStep}
    (h : restore ∉ after) : sinceRestore (before ++ after) = sinceRestore before ++ after := by
  have hall : ∀ step ∈ after.reverse, decide (step ≠ restore) = true := by
    intro step hstep
    have hmem : step ∈ after := List.mem_reverse.mp hstep
    exact decide_eq_true fun heq => h (heq ▸ hmem)
  unfold sinceRestore
  rw [List.reverse_append, List.takeWhile_append_of_pos hall, List.reverse_append,
    List.reverse_reverse]

theorem sinceRestore_restore (steps : List EditStep) :
    sinceRestore (steps ++ [restore]) = [] := by
  simp [sinceRestore]

/-- Steps end in those behind the last one that takes everything back. -/
theorem exists_sinceRestore (steps : List EditStep) :
    ∃ before, steps = before ++ sinceRestore steps ∧ restore ∉ sinceRestore steps := by
  refine ⟨(steps.reverse.dropWhile (· ≠ restore)).reverse, ?_, fun h => ?_⟩
  · unfold sinceRestore
    rw [← List.reverse_append, List.takeWhile_append_dropWhile, List.reverse_reverse]
  · have hmem := List.mem_takeWhile_imp (List.mem_reverse.mp h)
    exact absurd rfl (of_decide_eq_true hmem)

end EditStep

namespace Editing

/-- A script under edit after a step. A step that cannot be carried out leaves it as it is. -/
def take (e : Editing) (step : EditStep) : Editing :=
  match step.apply e with
  | .ok e' => e'
  | .error _ => e

/-- A script under edit after steps. -/
def takeAll (e : Editing) (steps : List EditStep) : Editing := steps.foldl take e

/-- Takes the newest edits back, a number of them. -/
def undoNewest (k : Nat) (e : Editing) : Editing :=
  ⟨(e.records.take k).foldl undo e.script, e.records.drop k⟩

/-! ## The shape of a script -/

/-- Two scripts have the same numbers of calls and of constants. -/
structure SameShape (s t : Script) : Prop where
  calls : t.calls.length = s.calls.length
  constants : t.constants.length = s.constants.length

theorem SameShape.refl (s : Script) : SameShape s s := ⟨rfl, rfl⟩

theorem SameShape.trans {s t u : Script} (h : SameShape s t) (h' : SameShape t u) :
    SameShape s u := ⟨h'.calls.trans h.calls, h'.constants.trans h.constants⟩

theorem SameShape.fits {s t : Script} (h : SameShape s t) (step : EditStep) :
    step.fits t = step.fits s := by
  cases step with
  | method call name => simp only [EditStep.fits, h.calls]
  | argument call index value => simp only [EditStep.fits, h.calls]
  | argumentCount call count => simp only [EditStep.fits, h.calls]
  | initializer constant value => simp only [EditStep.fits, h.constants]
  | restore => rfl

theorem sameShape_undo (s : Script) (r : EditRecord) : SameShape s (undo s r) := by
  cases r with
  | call id before => exact ⟨List.length_set, rfl⟩
  | constant id init edited => exact ⟨rfl, List.length_modify _ _ _⟩

theorem sameShape_restored (e : Editing) : SameShape e.script e.restored := by
  obtain ⟨s, records⟩ := e
  change SameShape s (records.foldl undo s)
  induction records generalizing s with
  | nil => exact .refl s
  | cons r records ih => exact (sameShape_undo s r).trans (ih (undo s r))

/-! ## One step -/

variable {e e' : Editing} {step : EditStep}

private theorem editCall_of_lt {id : Nat} (change : Call → Call)
    (h : id < e.script.calls.length) : ∃ e', e.editCall id change = .ok e' := by
  unfold editCall call
  rw [List.getElem?_eq_getElem h]
  exact ⟨_, rfl⟩

private theorem editCall_of_not_lt {id : Nat} (change : Call → Call)
    (h : ¬ id < e.script.calls.length) : e.editCall id change = .error .outOfRange := by
  unfold editCall call
  rw [List.getElem?_eq_none (Nat.le_of_not_lt h)]
  rfl

private theorem sameShape_editCall {id : Nat} {change : Call → Call}
    (h : e.editCall id change = .ok e') : SameShape e.script e'.script := by
  unfold editCall at h
  obtain ⟨before, -, h⟩ := (Step.except_bind_ok_iff _ _ _).mp h
  cases h
  exact ⟨List.length_set, rfl⟩

/-- A step that a script has the node for is carried out, and it is one edit. -/
theorem apply_of_fits (h : step.fits e.script = true) :
    ∃ e', step.apply e = .ok e' ∧ e.Extends e' ∧ SameShape e.script e'.script := by
  have hcall : ∀ id change, id < e.script.calls.length →
      ∃ e', e.editCall id change = .ok e' ∧ e.Extends e' ∧ SameShape e.script e'.script := by
    intro id change hlt
    obtain ⟨e', he'⟩ := editCall_of_lt change hlt
    exact ⟨e', he', extends_editCall he', sameShape_editCall he'⟩
  cases step with
  | method call name => exact hcall call _ (of_decide_eq_true h)
  | argument call index value => exact hcall call _ (of_decide_eq_true h)
  | argumentCount call count => exact hcall call _ (of_decide_eq_true h)
  | initializer constant value =>
    have hlt : constant < e.script.constants.length := of_decide_eq_true h
    have hset : ∃ e', e.setInit constant value = .ok e' ∧ SameShape e.script e'.script := by
      unfold setInit
      rw [List.getElem?_eq_getElem hlt]
      exact ⟨_, rfl, rfl, List.length_modify _ _ _⟩
    obtain ⟨e', he', hshape⟩ := hset
    exact ⟨e', he', extends_setInit he', hshape⟩
  | restore => cases h

/-- A step that a script has no node for is a fault. -/
theorem apply_of_not_fits (h : step.fits e.script = false) (hstep : step ≠ .restore) :
    step.apply e = .error .outOfRange := by
  cases step with
  | method call name => exact editCall_of_not_lt _ (of_decide_eq_false h)
  | argument call index value => exact editCall_of_not_lt _ (of_decide_eq_false h)
  | argumentCount call count => exact editCall_of_not_lt _ (of_decide_eq_false h)
  | initializer constant value =>
    have hle : ¬ constant < e.script.constants.length := of_decide_eq_false h
    change e.setInit constant value = _
    unfold setInit
    rw [List.getElem?_eq_none (Nat.le_of_not_lt hle)]
  | restore => exact absurd rfl hstep

/-- A step is one edit, or it takes everything back, or it changes nothing. -/
theorem take_cases (e : Editing) (step : EditStep) :
    (step.fits e.script = true ∧ e.Extends (e.take step) ∧
      SameShape e.script (e.take step).script) ∨
    (step = .restore ∧ e.take step = start e.restored) ∨
    (step.fits e.script = false ∧ step ≠ .restore ∧ e.take step = e) := by
  by_cases hrestore : step = .restore
  · subst hrestore
    exact .inr (.inl ⟨rfl, rfl⟩)
  · cases hfits : step.fits e.script with
    | true =>
      obtain ⟨e', happly, hextends, hshape⟩ := apply_of_fits hfits
      have htake : e.take step = e' := by simp only [take, happly]
      rw [htake]
      exact .inl ⟨rfl, hextends, hshape⟩
    | false =>
      have htake : e.take step = e := by simp only [take, apply_of_not_fits hfits hrestore]
      exact .inr (.inr ⟨rfl, hrestore, htake⟩)

theorem sameShape_take (e : Editing) (step : EditStep) :
    SameShape e.script (e.take step).script := by
  rcases take_cases e step with ⟨-, -, hshape⟩ | ⟨-, htake⟩ | ⟨-, -, htake⟩
  · exact hshape
  · rw [htake]
    exact sameShape_restored e
  · rw [htake]
    exact .refl _

theorem restored_take (e : Editing) (step : EditStep) :
    (e.take step).restored = e.restored := by
  rcases take_cases e step with ⟨-, hextends, -⟩ | ⟨-, htake⟩ | ⟨-, -, htake⟩
  · exact hextends.restored_eq
  · rw [htake]
    rfl
  · rw [htake]

/-- The newest record leads back over the newest edit. -/
theorem undoNewest_of_extends (h : e.Extends e') (k : Nat) :
    undoNewest (k + 1) e' = undoNewest k e := by
  obtain ⟨r, hrecords, hback⟩ := h
  unfold undoNewest
  rw [hrecords, List.take_succ_cons, List.drop_succ_cons, List.foldl_cons, hback]

@[simp] theorem undoNewest_zero (e : Editing) : undoNewest 0 e = e := rfl

/-! ## All steps -/

variable {s : Script}

theorem takeAll_append (e : Editing) (steps more : List EditStep) :
    e.takeAll (steps ++ more) = (e.takeAll steps).takeAll more := List.foldl_append

theorem sameShape_takeAll (e : Editing) (steps : List EditStep) :
    SameShape e.script (e.takeAll steps).script := by
  induction steps generalizing e with
  | nil => exact .refl _
  | cons step steps ih => exact (sameShape_take e step).trans (ih (e.take step))

theorem restored_takeAll (e : Editing) (steps : List EditStep) :
    (e.takeAll steps).restored = e.restored := by
  induction steps generalizing e with
  | nil => rfl
  | cons step steps ih => exact (ih (e.take step)).trans (restored_take e step)

/-- Steps among which none takes everything back are undone by as many records as they made
edits. -/
theorem undoNewest_takeAll (e : Editing) {steps : List EditStep} (h : .restore ∉ steps) :
    undoNewest (steps.countP (·.fits e.script)) (e.takeAll steps) = e ∧
      (e.takeAll steps).pending = e.pending + steps.countP (·.fits e.script) := by
  -- The newest edit is the one of the last step, so the steps are taken from the right.
  induction steps using List.reverseRecOn with
  | nil => exact ⟨rfl, rfl⟩
  | append_singleton steps step ih =>
    obtain ⟨hundo, hpending⟩ := ih fun hmem => h (List.mem_append_left _ hmem)
    have hstep : step ≠ .restore := fun heq => h (by simp [heq])
    have hfits := (sameShape_takeAll e steps).fits step
    rw [takeAll_append]
    change undoNewest _ ((e.takeAll steps).take step) = e ∧ ((e.takeAll steps).take step).pending = _
    rcases take_cases (e.takeAll steps) step with ⟨hone, hextends, -⟩ | ⟨heq, -⟩ | ⟨hone, -, htake⟩
    · rw [hfits] at hone
      have hcount : (steps ++ [step]).countP (·.fits e.script)
          = steps.countP (·.fits e.script) + 1 := by simp [hone]
      rw [hcount, undoNewest_of_extends hextends]
      obtain ⟨r, hrecords, -⟩ := hextends
      refine ⟨hundo, ?_⟩
      unfold pending at hpending ⊢
      rw [hrecords, List.length_cons, hpending]
      rfl
    · exact absurd heq hstep
    · rw [hfits] at hone
      have hcount : (steps ++ [step]).countP (·.fits e.script)
          = steps.countP (·.fits e.script) := by simp [hone]
      rw [hcount, htake]
      exact ⟨hundo, hpending⟩

/-- Only the steps behind the last one that takes everything back have left records. -/
theorem pending_takeAll (s : Script) (steps : List EditStep) :
    ((start s).takeAll steps).pending = (EditStep.sinceRestore steps).countP (·.fits s) := by
  induction steps using List.reverseRecOn with
  | nil => rfl
  | append_singleton steps step ih =>
    by_cases hrestore : step = .restore
    · subst hrestore
      rw [EditStep.sinceRestore_restore, takeAll_append]
      rfl
    · have hone : .restore ∉ [step] := fun hmem => hrestore (List.mem_singleton.mp hmem).symm
      have hshape := sameShape_takeAll (start s) steps
      obtain ⟨-, hpending⟩ := undoNewest_takeAll ((start s).takeAll steps) hone
      rw [EditStep.sinceRestore_append steps hone, List.countP_append, ← ih, takeAll_append,
        hpending]
      congr 1
      exact List.countP_congr fun step' _ => by rw [hshape.fits]; rfl

/-- A list can be split so that any number, up to all of them, of the elements with a property
stand behind. -/
private theorem exists_split_countP {α : Type} (p : α → Bool) :
    ∀ (l : List α) (k : Nat), k ≤ l.countP p → ∃ a b, l = a ++ b ∧ b.countP p = k
  | [], k, h => ⟨[], [], rfl, (Nat.le_zero.mp h).symm⟩
  | x :: l, k, h => by
    by_cases hk : k ≤ l.countP p
    · obtain ⟨a, b, rfl, hb⟩ := exists_split_countP p l k hk
      exact ⟨x :: a, b, rfl, hb⟩
    · have hle : (x :: l).countP p ≤ l.countP p + 1 := by
        rw [List.countP_cons]
        split <;> omega
      exact ⟨[], x :: l, rfl, by omega⟩

/-- Whatever steps a script under edit takes, and whichever of them are faults: taking all edits
back leaves the script that the edits began with; the number of edits that can be undone is the number
of those carried out since everything was last taken back; undoing the newest of them leads back to
where the script under edit was before those; and there is such a point for every number of edits
that can be undone. -/
theorem reversible (s : Script) (steps : List EditStep) :
    ((start s).takeAll steps).restored = s ∧
    ((start s).takeAll steps).pending = (EditStep.sinceRestore steps).countP (·.fits s) ∧
    (∀ before after, steps = before ++ after → .restore ∉ after →
      undoNewest (after.countP (·.fits s)) ((start s).takeAll steps) = (start s).takeAll before) ∧
    (∀ k ≤ ((start s).takeAll steps).pending, ∃ before after, steps = before ++ after ∧
      .restore ∉ after ∧ after.countP (·.fits s) = k) := by
  refine ⟨restored_takeAll (start s) steps, pending_takeAll s steps, ?_, fun k hk => ?_⟩
  · rintro before after rfl hafter
    have hshape := sameShape_takeAll (start s) before
    obtain ⟨hundo, -⟩ := undoNewest_takeAll ((start s).takeAll before) hafter
    have hcount : after.countP (·.fits s)
        = after.countP (·.fits ((start s).takeAll before).script) :=
      List.countP_congr fun step _ => by rw [hshape.fits]; rfl
    rw [takeAll_append, hcount]
    exact hundo
  · obtain ⟨before, hsteps, hnone⟩ := EditStep.exists_sinceRestore steps
    rw [pending_takeAll] at hk
    obtain ⟨between, after, hsplit, hcount⟩ := exists_split_countP _ _ k hk
    refine ⟨before ++ between, after, ?_, fun hmem => hnone ?_, hcount⟩
    · rw [List.append_assoc, ← hsplit]
      exact hsteps
    · rw [hsplit]
      exact List.mem_append_right _ hmem

end Editing

end Bundler

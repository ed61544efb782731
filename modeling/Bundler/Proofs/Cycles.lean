/-
The stages of a cycle.

A cycle is cut into three here. It selects what is stale (`Session.select`), it loads and checks a
program (`Session.loadChecked`), and it delivers it (`Session.emitAll`). Where nothing is stale the
last two are left out, and where there is an error after the second, the last one is. So a cycle
that returns is idle, blocked or built, and `Session.compile_ok_iff` tells which of the stages it went
through, with the states in between.

The program that a cycle loads is not part of its report, but it follows from where the cycle starts
(`Session.loads?`).
-/
import Bundler.Proofs.Passes

set_option autoImplicit false

namespace Bundler

open Workspace Step

/-- The entry files of a project, as a cycle takes them. -/
def Project.mains (p : Project) : List String := p.config.main.map Path.normalize

namespace Session

/-! ## The stages -/

/-- What a cycle does before it knows what is stale: whether everything is built anew. -/
def prelude : Step Session Bool := do
  let force ← takeForce
  if force then startAnew
  enter .entrySelection
  changeProject Project.beginCycle
  return force

/-- Selects the entry files that are stale: whether everything is built anew, all entry files, and
those that are stale. -/
def select : Step Session (Bool × List String × List String) := do
  let force ← prelude
  let mains := (← get).project.mains
  let stale ← staleMains force mains
  return (force, mains, stale)

/-- Whether a cycle from a session builds everything anew. -/
def isForced (s : Session) : Bool :=
  s.force || s.configText.any fun before => before != s.project.config.toJson

/-- A session without what a new build must not take over. -/
def anew (s : Session) : Session :=
  { s with
    cache := s.cache.forceRebuild
    messages := .empty
    project := s.project.clearMaps }

/-- A session at the point where a cycle looks for what is stale. -/
def begun (s : Session) : Session :=
  let t := { s with configText := some s.project.config.toJson, force := false }
  let t := if s.isForced then t.anew else t
  { t with phase := .entrySelection, project := t.project.beginCycle }

/-- Loads the program, drops the modules of other files, and checks it. -/
def loadChecked (mains : List String) : Step Session (List String) := do
  let program ← loadProgram mains
  dropModules program
  checkProgram program
  return program

/-- Counts a cycle without errors. -/
def countCycle : Step Session Unit := do
  if !(← get).messages.hasErrors then
    modify fun s => { s with liveReloadIndex := s.liveReloadIndex + 1 }

/-- What a cycle does when it has something to do. -/
def build (force : Bool) (stale mains : List String) : Step Session CycleReport := do
  let program ← loadChecked mains
  if (← get).messages.hasErrors then return ← finish stale []
  let emitted ← emitAll force program
  countCycle
  finish stale emitted

theorem prelude_eq (s : Session) : prelude s = .ok s.isForced s.begun := by
  have htake : takeForce s
      = .ok s.isForced { s with configText := some s.project.config.toJson, force := false } := rfl
  unfold prelude
  rw [bind_of_ok htake]
  unfold begun
  cases s.isForced with
  | true => rfl
  | false => rfl

theorem begun_config (s : Session) : s.begun.project.config = s.project.config := by
  unfold begun
  cases s.isForced with
  | true => exact (Project.quiet_beginCycle s.project.clearMaps).config
  | false => exact (Project.quiet_beginCycle s.project).config

theorem begun_dir (s : Session) : s.begun.project.dir = s.project.dir := by
  unfold begun
  cases s.isForced with
  | true => exact (Project.quiet_beginCycle s.project.clearMaps).dir
  | false => exact (Project.quiet_beginCycle s.project).dir

theorem begun_output (s : Session) : s.begun.project.output = s.project.output := by
  unfold begun
  cases s.isForced with
  | true => exact (Project.quiet_beginCycle s.project.clearMaps).output
  | false => exact (Project.quiet_beginCycle s.project).output

theorem begun_disk (s : Session) : s.begun.disk = s.disk := by
  unfold begun
  cases s.isForced with
  | true => rfl
  | false => rfl

theorem begun_mains (s : Session) : s.begun.project.mains = s.project.mains := by
  unfold Project.mains
  rw [begun_config]

theorem begun_destination (s : Session) : s.begun.destination = s.destination := by
  unfold begun
  cases s.isForced with
  | true => rfl
  | false => rfl

theorem begun_cache_of_forced {s : Session} (h : s.isForced = true) :
    s.begun.cache = s.cache.forceRebuild := by
  unfold begun
  rw [h]
  rfl

theorem begun_cache_of_not_forced {s : Session} (h : s.isForced = false) :
    s.begun.cache = s.cache := by
  unfold begun
  rw [h]
  rfl

theorem begun_cache (s : Session) :
    s.begun.cache = s.cache ∨ s.begun.cache = s.cache.forceRebuild := by
  cases h : s.isForced with
  | true => exact .inr (begun_cache_of_forced h)
  | false => exact .inl (begun_cache_of_not_forced h)

/-- What is selected is what a pass finds stale from where the cycle has begun. -/
theorem select_ok_iff {s t : Session} {force : Bool} {mains stale : List String} :
    select s = .ok (force, mains, stale) t
      ↔ force = s.isForced ∧ mains = s.begun.project.mains ∧
        ∃ w, staleMains s.isForced s.begun.project.mains s.begun.toWorkspace = .ok stale w ∧
          { s.begun with toWorkspace := w } = t := by
  unfold select
  rw [bind_of_ok (prelude_eq s)]
  have hget : (get : Step Session Session) s.begun = .ok s.begun s.begun := rfl
  rw [bind_of_ok hget]
  constructor
  · intro h
    obtain ⟨stale', t', hstale, h⟩ := (bind_ok_iff _ _ _ _ _).mp h
    obtain ⟨w, hw, rfl⟩ := (liftWorkspace_ok_iff _ _ _ _).mp hstale
    obtain ⟨hanswer, rfl⟩ := (pure_ok_iff _ _ _ _).mp h
    cases hanswer
    exact ⟨rfl, rfl, w, hw, rfl⟩
  · rintro ⟨rfl, rfl, w, hw, rfl⟩
    exact bind_of_ok ((liftWorkspace_ok_iff _ _ _ _).mpr ⟨w, hw, rfl⟩)

theorem compile_eq : compile = (do
    let (force, mains, stale) ← select
    if stale.isEmpty then finish [] [] else build force stale mains) := by
  have hcount : ∀ (s : Session) (next : Step Session CycleReport),
      ((if (!s.messages.hasErrors) = true then modify fun s =>
            { s with liveReloadIndex := s.liveReloadIndex + 1 }
          else pure ()) >>= fun _ => next)
        = if (!s.messages.hasErrors) = true then (modify fun s =>
              { s with liveReloadIndex := s.liveReloadIndex + 1 }) >>= fun _ => next
          else next := by
    intro s next
    split
    · rfl
    · exact pure_bind _ _
  unfold compile select prelude build loadChecked countCycle Project.mains
  simp only [bind_assoc, pure_bind, hcount]
  refine bind_congr fun force => ?_
  cases force with
  | true => simp only [if_true, bind_assoc, pure_bind]
  | false => simp only [Bool.false_eq_true, if_false, bind_assoc, pure_bind]

/-! ## Answers -/

/-- A session at the end of a cycle. -/
def done (s : Session) : Session := { s with phase := .done }

/-- A session whose cycle was counted, if it had no errors. -/
def counted (s : Session) : Session :=
  if s.messages.hasErrors then s else { s with liveReloadIndex := s.liveReloadIndex + 1 }

theorem finish_eq (stale emitted : List String) (s : Session) :
    finish stale emitted s
      = .ok ⟨stale, emitted, s.messages.errors, s.messages.warnings⟩ s.done := rfl

theorem countCycle_eq (s : Session) : countCycle s = .ok () s.counted := by
  have hget : (get : Step Session Session) s = .ok s s := rfl
  unfold countCycle counted
  rw [bind_of_ok hget]
  by_cases h : s.messages.hasErrors = true
  · simp only [h, Bool.not_true, Bool.false_eq_true, if_false, if_true]
    rfl
  · simp only [h, Bool.not_false, if_true]
    rfl

/-- How a cycle from a session returns: nothing was stale, an error stood in the way of the output,
or the program was written. -/
inductive Outcome (s : Session) : CycleReport → Session → Prop where
  | idle {force : Bool} {mains : List String} {s₁ : Session}
      (hselect : select s = .ok (force, mains, []) s₁) :
      Outcome s ⟨[], [], s₁.messages.errors, s₁.messages.warnings⟩ s₁.done
  | blocked {force : Bool} {mains stale program : List String} {s₁ s₂ : Session}
      (hselect : select s = .ok (force, mains, stale) s₁) (hstale : stale ≠ [])
      (hload : loadChecked mains s₁ = .ok program s₂) (herrors : s₂.messages.hasErrors = true) :
      Outcome s ⟨stale, [], s₂.messages.errors, s₂.messages.warnings⟩ s₂.done
  | built {force : Bool} {mains stale program emitted : List String} {s₁ s₂ s₃ : Session}
      (hselect : select s = .ok (force, mains, stale) s₁) (hstale : stale ≠ [])
      (hload : loadChecked mains s₁ = .ok program s₂) (herrors : s₂.messages.hasErrors = false)
      (hemit : emitAll force program s₂ = .ok emitted s₃) :
      Outcome s ⟨stale, emitted, s₃.messages.errors, s₃.messages.warnings⟩ s₃.counted.done

private theorem counted_messages (s : Session) : s.counted.messages = s.messages := by
  unfold counted
  split <;> rfl

/-- A cycle returns in one of the three ways. -/
theorem compile_ok_iff {s s' : Session} {r : CycleReport} :
    compile s = .ok r s' ↔ Outcome s r s' := by
  rw [compile_eq]
  constructor
  · intro h
    obtain ⟨⟨force, mains, stale⟩, s₁, hselect, h⟩ := (bind_ok_iff _ _ _ _ _).mp h
    by_cases hstale : stale = []
    · subst hstale
      have hfinish : finish [] [] s₁ = .ok r s' := h
      rw [finish_eq] at hfinish
      cases hfinish
      exact .idle hselect
    · have hne : stale.isEmpty = false := by simpa using hstale
      simp only [hne, Bool.false_eq_true, if_false] at h
      obtain ⟨program, s₂, hload, h⟩ := (bind_ok_iff _ _ _ _ _).mp h
      obtain ⟨t, t', hget, h⟩ := (bind_ok_iff _ _ _ _ _).mp h
      obtain ⟨rfl, rfl⟩ := (get_ok_iff _ _ _).mp hget
      by_cases herrors : s₂.messages.hasErrors = true
      · rw [if_pos herrors, finish_eq] at h
        cases h
        exact .blocked hselect hstale hload herrors
      · rw [if_neg herrors] at h
        obtain ⟨emitted, s₃, hemit, h⟩ := (bind_ok_iff _ _ _ _ _).mp h
        obtain ⟨u, s₄, hcount, h⟩ := (bind_ok_iff _ _ _ _ _).mp h
        rw [countCycle_eq] at hcount
        cases hcount
        rw [finish_eq, counted_messages] at h
        cases h
        exact .built hselect hstale hload (by simpa using herrors) hemit
  · intro h
    cases h with
    | idle hselect => exact (bind_of_ok hselect).trans rfl
    | @blocked force mains stale program s₁ s₂ hselect hstale hload herrors =>
      have hne : stale.isEmpty = false := by simpa using hstale
      refine (bind_of_ok hselect).trans ?_
      simp only [hne, Bool.false_eq_true, if_false]
      have hget : (get : Step Session Session) s₂ = .ok s₂ s₂ := rfl
      refine (bind_of_ok hload).trans ((bind_of_ok hget).trans ?_)
      rw [if_pos herrors]
      rfl
    | @built force mains stale program emitted s₁ s₂ s₃ hselect hstale hload herrors hemit =>
      have hne : stale.isEmpty = false := by simpa using hstale
      refine (bind_of_ok hselect).trans ?_
      simp only [hne, Bool.false_eq_true, if_false]
      have hget : (get : Step Session Session) s₂ = .ok s₂ s₂ := rfl
      refine (bind_of_ok hload).trans ((bind_of_ok hget).trans ?_)
      rw [herrors]
      simp only [Bool.false_eq_true, if_false]
      refine (bind_of_ok hemit).trans ((bind_of_ok (countCycle_eq s₃)).trans ?_)
      rw [finish_eq, counted_messages]

/-! ## Cycles of a watch -/

/-- A cycle after the probes were cleared, as every cycle of a watch is. -/
def cycle : Step Session CycleReport := do
  modify clearProbes
  compile

theorem cycle_eq (s : Session) : cycle s = compile s.clearProbes := rfl

/-- The program that a cycle loads, if it loads one. -/
def loads? (s : Session) : Option (List String) :=
  match select s with
  | .error _ _ => none
  | .ok (_, mains, stale) t =>
    if stale.isEmpty then none
    else
      match loadChecked mains t with
      | .error _ _ => none
      | .ok program _ => some program

/-- An idle cycle loads nothing. -/
theorem loads?_of_idle {s s₁ : Session} {force : Bool} {mains : List String}
    (hselect : select s = .ok (force, mains, []) s₁) : s.loads? = none := by
  unfold loads?
  rw [hselect]
  rfl

theorem loads?_of_stale {s s₁ s₂ : Session} {force : Bool} {mains stale program : List String}
    (hselect : select s = .ok (force, mains, stale) s₁) (hstale : stale ≠ [])
    (hload : loadChecked mains s₁ = .ok program s₂) : s.loads? = some program := by
  have hne : stale.isEmpty = false := by simpa using hstale
  unfold loads?
  rw [hselect]
  simp only [hne, Bool.false_eq_true, if_false, hload]

end Session

end Bundler

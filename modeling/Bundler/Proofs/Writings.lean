/-
The files that a cycle writes.

A cycle may end early while its program is written, and then some files of the program were written and
others not. So a file that is written is told apart from the report of the cycle (`Session.Writes`): the
program before it is dealt with, then the file is written, and nothing is said about what follows. Each
file that a cycle reports was written so (`Session.exists_writes`).

What a law says of all that delivers holds from there to the end of the cycle, whether it returns or ends
early (`Session.Writes.later`). And where the file is written, all files of the program have been loaded,
so what a law says of delivering holds from the loading on (`Session.Writes.exists_loaded`).
-/
import Bundler.Proofs.ImportClosure

set_option autoImplicit false

namespace Bundler

open Workspace Step

namespace Session

variable {force atlasChanged : Bool} {overrides : FileOverrides} {file : String} {w w' : Workspace}

/-! ## One file of a program -/

/-- Deals with the entry of a file of a program: the file, if it is written. -/
def emitEntry (force atlasChanged : Bool) (overrides : FileOverrides) (file : String) (id : Nat)
    (asIs : Bool) : Step Workspace (List String) := do
  if asIs then
    changeEntry id Entry.stampOutput
    return []
  else if needsEmit force atlasChanged (← entry id) then
    emitFile id file ((overrides.filter fun o => o.1 == file).map Prod.snd)
    return [file]
  else return []

/-- Deals with one file of a program. -/
def emitOne (force atlasChanged : Bool) (overrides : FileOverrides) (file : String) :
    Step Workspace (List String) := do
  let id ← onCache fun _ dir c => c.get dir file
  let asIs ← if ← Path.isDeclaration file then pure true else Path.isJs file
  emitEntry force atlasChanged overrides file id asIs

/-- A program is dealt with file by file. -/
theorem emitProgram_cons (force atlasChanged : Bool) (overrides : FileOverrides) (file : String)
    (files : List String) : emitProgram force atlasChanged overrides (file :: files) = (do
      let first ← emitOne force atlasChanged overrides file
      let rest ← emitProgram force atlasChanged overrides files
      return first ++ rest) := by
  have hentry : ∀ (id : Nat) (asIs : Bool), (do
      if asIs then
        changeEntry id Entry.stampOutput
        emitProgram force atlasChanged overrides files
      else if needsEmit force atlasChanged (← entry id) then
        emitFile id file ((overrides.filter fun o => o.1 == file).map Prod.snd)
        return file :: (← emitProgram force atlasChanged overrides files)
      else emitProgram force atlasChanged overrides files : Step Workspace (List String)) = (do
      let first ← emitEntry force atlasChanged overrides file id asIs
      let rest ← emitProgram force atlasChanged overrides files
      return first ++ rest) := by
    intro id asIs
    unfold emitEntry
    split
    · simp only [bind_assoc, pure_bind, List.nil_append, bind_pure]
    · simp only [bind_assoc]
      refine bind_congr fun e => ?_
      split
      · simp only [bind_assoc, pure_bind, List.cons_append, List.nil_append]
      · simp only [pure_bind, List.nil_append, bind_pure]
  rw [emitProgram]
  unfold emitOne
  simp only [bind_assoc]
  refine bind_congr fun id => bind_congr fun declaration => ?_
  cases declaration with
  | true =>
    simp only [if_true, pure_bind]
    exact hentry id true
  | false =>
    simp only [Bool.false_eq_true, if_false]
    rw [bind_assoc]
    exact bind_congr fun asIs => hentry id asIs

theorem emitProgram_append (force atlasChanged : Bool) (overrides : FileOverrides)
    (front rest : List String) : emitProgram force atlasChanged overrides (front ++ rest) = (do
      let done ← emitProgram force atlasChanged overrides front
      let others ← emitProgram force atlasChanged overrides rest
      return done ++ others) := by
  induction front with
  | nil =>
    rw [List.nil_append, emitProgram]
    simp only [pure_bind, List.nil_append, bind_pure]
  | cons file front ih =>
    rw [List.cons_append, emitProgram_cons, emitProgram_cons, ih]
    simp only [bind_assoc, pure_bind, List.append_assoc]

/-- What is said of one file: nothing, or the file, which is written then. -/
theorem emitEntry_ok {id : Nat} {asIs : Bool} {out : List String}
    (h : emitEntry force atlasChanged overrides file id asIs w = .ok out w') :
    out = [] ∨ out = [file] ∧
      emitFile id file ((overrides.filter fun o => o.1 == file).map Prod.snd) w = .ok () w' := by
  unfold emitEntry at h
  split at h
  · obtain ⟨u, t, -, h⟩ := (bind_ok_iff _ _ _ _ _).mp h
    exact .inl ((pure_ok_iff _ _ _ _).mp h).1.symm
  · obtain ⟨e, t, he, h⟩ := (bind_ok_iff _ _ _ _ _).mp h
    obtain ⟨-, rfl⟩ := (entry_ok_iff _ _ _ _).mp he
    split at h
    · obtain ⟨u, t, hemit, h⟩ := (bind_ok_iff _ _ _ _ _).mp h
      obtain ⟨rfl, rfl⟩ := (pure_ok_iff _ _ _ _).mp h
      exact .inr ⟨rfl, hemit⟩
    · exact .inl ((pure_ok_iff _ _ _ _).mp h).1.symm

theorem emitOne_ok {out : List String} (h : emitOne force atlasChanged overrides file w = .ok out w') :
    out = [] ∨ out = [file] ∧ ∃ id v, v = { w with cache := (w.cache.get w.project.dir file).2 } ∧
      v.cache.find? v.project.dir file = some id ∧
      emitFile id file ((overrides.filter fun o => o.1 == file).map Prod.snd) v = .ok () w' := by
  unfold emitOne at h
  obtain ⟨id, v, hget, h⟩ := (bind_ok_iff _ _ _ _ _).mp h
  obtain ⟨rfl, rfl⟩ := (onCache_ok_iff _ _ _ _).mp hget
  obtain ⟨declaration, v, hdecl, h⟩ := (bind_ok_iff _ _ _ _ _).mp h
  obtain ⟨-, rfl⟩ := (lift_ok_iff _ _ _ _).mp hdecl
  have hentry : ∃ asIs, emitEntry force atlasChanged overrides file (w.cache.get w.project.dir file).1 asIs
      { w with cache := (w.cache.get w.project.dir file).2 } = .ok out w' := by
    cases declaration with
    | true => exact ⟨true, h⟩
    | false =>
      obtain ⟨asIs, v, hjs, h⟩ := (bind_ok_iff _ _ _ _ _).mp h
      obtain ⟨-, rfl⟩ := (lift_ok_iff _ _ _ _).mp hjs
      exact ⟨asIs, h⟩
  obtain ⟨asIs, hentry⟩ := hentry
  exact (emitEntry_ok hentry).imp_right fun ⟨hout, hemit⟩ =>
    ⟨hout, _, _, rfl, Cache.find?_get w.cache w.project.dir file, hemit⟩

/-- Each file that is said to be written was written behind those before it. -/
theorem exists_emitOne : ∀ {program out : List String} {w w' : Workspace},
    emitProgram force atlasChanged overrides program w = .ok out w' → file ∈ out →
    ∃ front behind done v v', program = front ++ file :: behind ∧
      emitProgram force atlasChanged overrides front w = .ok done v ∧
      emitOne force atlasChanged overrides file v = .ok [file] v'
  | [], out, w, w', h, hfile => by
    obtain ⟨rfl, -⟩ := (pure_ok_iff _ _ _ _).mp h
    cases hfile
  | other :: program, out, w, w', h, hfile => by
    rw [emitProgram_cons] at h
    obtain ⟨first, v, hfirst, h⟩ := (bind_ok_iff _ _ _ _ _).mp h
    obtain ⟨rest, t, hrest, h⟩ := (bind_ok_iff _ _ _ _ _).mp h
    obtain ⟨rfl, rfl⟩ := (pure_ok_iff _ _ _ _).mp h
    rcases List.mem_append.mp hfile with hmem | hmem
    · rcases emitOne_ok hfirst with rfl | ⟨rfl, -⟩
      · cases hmem
      · obtain rfl := List.mem_singleton.mp hmem
        exact ⟨[], program, [], w, v, rfl, rfl, hfirst⟩
    · obtain ⟨front, behind, done, u, u', rfl, hfront, hone⟩ := exists_emitOne hrest hmem
      refine ⟨other :: front, behind, first ++ done, u, u', rfl, ?_, hone⟩
      rw [emitProgram_cons, bind_of_ok hfirst, bind_of_ok hfront]
      rfl

/-! ## Files that are written -/

/-- A cycle from `s` writes a file, going from `w` to `w'`: it has selected, loaded and prepared a program,
and has dealt with the files before this one. How it goes on is left open. -/
inductive Writes (s : Session) (file : String) (w w' : Workspace) : Prop where
  | intro {force : Bool} {mains stale program front behind done : List String} {s₁ s₂ s₃ : Session}
      {v : Workspace} {overrides : FileOverrides} {atlasChanged : Bool}
      (hselect : select s = .ok (force, mains, stale) s₁) (hstale : stale ≠ [])
      (hload : loadChecked mains s₁ = .ok program s₂) (herrors : s₂.messages.hasErrors = false)
      (hprepare : prepare program s₂ = .ok (overrides, atlasChanged) s₃)
      (hrefresh : refreshProgram program s₃.toWorkspace = .ok () v)
      (hprogram : program = front ++ file :: behind)
      (hfront : emitProgram force atlasChanged overrides front { v with phase := .emit } = .ok done w)
      (hwritten : emitOne force atlasChanged overrides file w = .ok [file] w') : Writes s file w w'

variable {s t : Session}

/-- What follows the writing of the files says nothing about them. -/
theorem supply_ok {emitted out : List String} (h : supply emitted s = .ok out t) : out = emitted := by
  unfold supply at h
  obtain ⟨u, s₁, -, h⟩ := (bind_ok_iff _ _ _ _ _).mp h
  obtain ⟨u, s₂, -, h⟩ := (bind_ok_iff _ _ _ _ _).mp h
  obtain ⟨u, s₃, -, h⟩ := (bind_ok_iff _ _ _ _ _).mp h
  split at h
  · obtain ⟨u, s₄, -, h⟩ := (bind_ok_iff _ _ _ _ _).mp h
    exact ((pure_ok_iff _ _ _ _).mp h).1.symm
  · exact ((pure_ok_iff _ _ _ _).mp h).1.symm

/-- The files that a cycle reports were written. -/
theorem exists_writes {r : CycleReport} (h : compile s = .ok r t) (hfile : file ∈ r.emitted) :
    ∃ w w', Writes s file w w' := by
  cases compile_ok_iff.mp h with
  | idle => cases hfile
  | blocked => cases hfile
  | built hselect hstale hload herrors hemit =>
    rw [emitAll_eq] at hemit
    obtain ⟨⟨overrides, atlasChanged⟩, s₃, hprepare, hemit⟩ := (bind_ok_iff _ _ _ _ _).mp hemit
    obtain ⟨u, s₄, hlifted, hemit⟩ := (bind_ok_iff _ _ _ _ _).mp hemit
    obtain ⟨v, hrefresh, rfl⟩ := (liftWorkspace_ok_iff _ _ _ _).mp hlifted
    rw [deliverProgram_eq] at hemit
    obtain ⟨u, s₅, henter, hemit⟩ := (bind_ok_iff _ _ _ _ _).mp hemit
    obtain ⟨v', hv', rfl⟩ := (liftWorkspace_ok_iff _ _ _ _).mp henter
    obtain rfl := (modify_ok_iff _ _ _ _).mp hv'
    obtain ⟨out, s₆, hlifted, hemit⟩ := (bind_ok_iff _ _ _ _ _).mp hemit
    obtain ⟨v'', hprogram, -⟩ := (liftWorkspace_ok_iff _ _ _ _).mp hlifted
    obtain rfl := supply_ok hemit
    obtain ⟨front, behind, done, w, w', hsplit, hfront, hwritten⟩ := exists_emitOne hprogram hfile
    exact ⟨w, w', .intro hselect (by simpa using hstale) hload herrors hprepare hrefresh hsplit hfront
      hwritten⟩

variable {L : Law Workspace}

/-- What a law allows of a step in a workspace it allows beneath a session. -/
private theorem allows_lifted {α : Type} {step : Step Workspace α} {t : Session}
    (h : L.Allows w' (step t.toWorkspace)) :
    L.beneath.Allows { t with toWorkspace := w' } ((liftM step : Step Session α) t) := by
  change L.beneath.Allows _ (onWorkspace step t)
  unfold onWorkspace Step.on
  cases hr : step t.toWorkspace with
  | ok a v =>
    rw [hr] at h
    exact h
  | error e v =>
    rw [hr] at h
    exact ⟨h.1, trivial⟩

/-- What a law says of all that delivers holds from where a file was written to the end of the cycle. -/
theorem Writes.later (hL : Delivering L fun _ => True) (h : Writes s file w w') :
    L.moves w' (Step.final (compile s)).toWorkspace := by
  obtain @⟨force, mains, stale, program, front, behind, done, s₁, s₂, s₃, v, overrides, atlasChanged, hselect,
    hstale, hload, herrors, hprepare, hrefresh, rfl, hfront, hwritten⟩ := h
  have hempty : stale.isEmpty = false := by simpa using hstale
  have hget : (get : Step Session Session) s₂ = .ok s₂ s₂ := rfl
  have hrefreshed := (liftWorkspace_ok_iff _ _ s₃ _).mpr ⟨v, hrefresh, rfl⟩
  have henter : (liftM (enter .emit) : Step Session Unit) { s₃ with toWorkspace := v }
      = .ok () { s₃ with toWorkspace := { v with phase := .emit } } := rfl
  -- the cycle, from where the first file is dealt with
  have hcompile : compile s = (do
      let emitted ← liftM (emitProgram force atlasChanged overrides (front ++ file :: behind))
      let emitted ← supply emitted
      countCycle
      finish stale emitted : Step Session CycleReport)
        { s₃ with toWorkspace := { v with phase := .emit } } := by
    rw [compile_eq, bind_of_ok hselect]
    simp only [hempty, Bool.false_eq_true, if_false]
    unfold build
    rw [bind_of_ok hload, bind_of_ok hget, herrors, emitAll_eq]
    simp only [Bool.false_eq_true, if_false, bind_assoc]
    rw [bind_of_ok hprepare, bind_of_ok hrefreshed, deliverProgram_eq]
    simp only [bind_assoc]
    rw [bind_of_ok henter]
  have hemitted : L.Allows w' (emitProgram force atlasChanged overrides (front ++ file :: behind)
      { v with phase := .emit }) := by
    rw [emitProgram_append, bind_of_ok hfront, emitProgram_cons]
    simp only [bind_assoc]
    rw [bind_of_ok hwritten]
    exact ((obeys_emitProgram hL force atlasChanged overrides behind).bind fun rest =>
      obeys_pure _) w'
  have hrest : ∀ emitted, Obeys L.beneath (do
      let emitted ← supply emitted
      countCycle
      finish stale emitted : Step Session CycleReport) := fun emitted =>
    Obeys.bind (fun t => (obeys_supply hL (fun _ => trivial) emitted t).beneath) fun emitted =>
      obeys_countCycle.bind fun _ => obeys_finish hL.enter stale emitted
  rw [hcompile]
  refine Law.Allows.final (L := L.beneath) (s := { s₃ with toWorkspace := w' }) ?_
  exact (allows_lifted hemitted).bind_from fun emitted t _ ht => (hrest emitted t).after ht

/-- Where a file is written its program has been loaded, and from there on there was only delivering. -/
theorem Writes.exists_loaded (hwalk : Walking L) (hL : Delivering L fun _ => True) (hplace : Placing L)
    (hdropped : ∀ w keep, L.moves w
      { w with project := { w.project with emitted := w.project.emitted.filter keep } })
    (h : Writes s file w w') :
    ∃ force mains stale program s₁ u, select s = .ok (force, mains, stale) s₁ ∧
      loadProgram mains s₁ = .ok program u ∧ file ∈ program ∧ L.moves u.toWorkspace w := by
  obtain @⟨force, mains, stale, program, front, behind, done, s₁, s₂, s₃, v, overrides, atlasChanged, hselect,
    -, hload, -, hprepare, hrefresh, rfl, hfront, -⟩ := h
  unfold loadChecked at hload
  obtain ⟨program, u, hloaded, hload⟩ := (bind_ok_iff _ _ _ _ _).mp hload
  obtain ⟨_, u₁, hdrop, hload⟩ := (bind_ok_iff _ _ _ _ _).mp hload
  obtain ⟨_, u₂, hcheck, hload⟩ := (bind_ok_iff _ _ _ _ _).mp hload
  obtain ⟨rfl, rfl⟩ := (pure_ok_iff _ _ _ _).mp hload
  refine ⟨force, mains, stale, _, s₁, u, hselect, hloaded, by simp, ?_⟩
  have hdropped := (obeys_dropModules_beneath hdropped _).ok hdrop
  have hchecked := ((obeys_checkProgram (L := L) _).ok hcheck).1
  have hprepared := ((obeys_prepare hL.toWriting hplace _).ok hprepare).1
  have hrefreshed := (obeys_refreshProgram hwalk _).ok hrefresh
  have hemitted := (obeys_emitProgram hL _ _ _ _).ok hfront
  exact L.trans hdropped (L.trans hchecked (L.trans hprepared (L.trans hrefreshed
    (L.trans (hL.enter v .emit) hemitted))))

end Session

end Bundler

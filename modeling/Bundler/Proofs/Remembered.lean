/-
What a session still delivers was mentioned once.

The scripts and assets that were noted are not forgotten from one cycle to the next, nor are the
modules that scripts were copied to. What drops them is a cycle that builds everything anew. So what a
cycle delivers need not be mentioned by the program that it has loaded. It was mentioned by that
program or by one that was loaded since everything was last built anew, and the accounts of those
cycles say by which file (`Session.Remembered.noted`). Where a cycle builds everything anew, or is the
first, there is one account only, and everything that is delivered is mentioned now. The links of a
page are looked for in every cycle, but among all assets that were noted, so they last as long.
-/
import Bundler.Proofs.Artifacts
import Bundler.Proofs.Links

set_option autoImplicit false

namespace Bundler

open Workspace Step

/-! ## Accounts of cycles -/

/-- An asset is mentioned in the course of cycles, the last one first: the program, the page head or a
style sheet of the last one refers to it, where style sheets that were mentioned before count. -/
def Mentioned : List Account → String → Prop
  | [], _ => False
  | a :: past, name => a.RefersTo (Mentioned past) name

/-- A script is imported by a program in the course of cycles. -/
def Imported (accounts : List Account) (js : String) : Prop := ∃ a ∈ accounts, a.Imports js

/-- What a project has noted was mentioned in the course of cycles. -/
structure Project.Noted (accounts : List Account) (p : Project) : Prop where
  depJs : ∀ js ∈ p.depJs.keys, Imported accounts js
  depAssets : ∀ name ∈ p.depAssets.keys, Mentioned accounts name
  copied : ∀ id, p.Copies id → p.Taken id

namespace Project

variable {accounts : List Account} {p p' : Project} {J A C M : String → Prop}

/-- Nothing was noted yet. -/
theorem Noted.of_empty (hjs : p.depJs = .empty) (hassets : p.depAssets = .empty)
    (hemitted : p.emitted = .empty) : p.Noted accounts := by
  refine ⟨fun js h => ?_, fun name h => ?_, fun id h => ?_⟩
  · rw [hjs] at h
    exact absurd h List.not_mem_nil
  · rw [hassets] at h
    exact absurd h List.not_mem_nil
  · obtain ⟨m, hm, -⟩ := h
    rw [hemitted] at hm
    exact absurd hm List.not_mem_nil

/-- A change that notes nothing. -/
theorem Noted.of_adds (h : p.Noted accounts)
    (hadds : Project.Adds (fun _ => False) (fun _ => False) C (fun _ => False) p p') :
    p'.Noted accounts where
  depJs js hjs := h.depJs js ((hadds.depJs js hjs).elim id False.elim)
  depAssets name hname := h.depAssets name ((hadds.depAssets name hname).elim id False.elim)
  copied id hid := (h.copied id ((hadds.copied id hid).resolve_right False.elim)).mono hadds.keptJs

end Project

namespace Session

/-! ## Early ends -/

/-- The law of steps that leave the settings alone and end early by a fault only. -/
private def faulting : Law Workspace where
  moves w w' := w'.project.config = w.project.config ∧ w'.project.dir = w.project.dir
  fails _ e := ∃ f, e = .fault f
  refl _ := ⟨rfl, rfl⟩
  trans h h' := ⟨h'.1.trans h.1, h'.2.trans h.2⟩
  back _ h := h
  fault _ f := ⟨f, rfl⟩

private theorem looking_faulting : Looking faulting where
  config h := h.1
  dir h := h.2
  enter _ _ := ⟨rfl, rfl⟩
  get _ _ := ⟨rfl, rfl⟩
  look _ _ := ⟨rfl, rfl⟩
  text _ _ := ⟨rfl, rfl⟩
  buffer _ _ := ⟨rfl, rfl⟩
  quiet _ _ hq := ⟨hq.config, hq.dir⟩

private theorem loading_faulting : Bundler.Loading faulting fun _ => True where
  toLooking := looking_faulting
  script _ _ _ _ _ _ _ _ _ _ := ⟨rfl, rfl⟩
  refs _ _ _ _ _ _ := allows_refreshReferences looking_faulting fun _ _ _ _ _ _ _ _ h => h

private theorem walking_faulting : Walking faulting where
  get _ _ := ⟨rfl, rfl⟩
  look _ _ := ⟨rfl, rfl⟩
  mark _ _ _ := ⟨rfl, rfl⟩
  unmark _ := ⟨rfl, rfl⟩

/-- Selecting what is stale ends early by a fault only. -/
theorem select_error {s t : Session} {e : Failure} (h : select s = .error e t) :
    ∃ f, e = .fault f := by
  have hrest : Obeys faulting.session (do
      let mains := (← get).project.mains
      let stale ← staleMains s.isForced mains
      return (s.isForced, mains, stale) : Step Session (Bool × List String × List String)) :=
    obeys_get.bind fun t => (obeys_liftWorkspace (obeys_staleMains walking_faulting _ _)).bind
      fun _ => obeys_pure _
  unfold select at h
  rw [bind_of_ok (prelude_eq s)] at h
  exact (hrest.early h).2

/-- Loading and checking a program ends early by a fault only. -/
theorem loadChecked_error {mains : List String} {s t : Session} {e : Failure}
    (h : loadChecked mains s = .error e t) : ∃ f, e = .fault f := by
  have hdrop : ∀ program, Obeys faulting (dropModules program) := fun program =>
    (obeys_lift _).bind fun _ => obeys_modify fun _ => ⟨rfl, rfl⟩
  have hall : Obeys faulting.session (loadChecked mains) :=
    (obeys_loadProgram loading_faulting mains).bind fun program => (obeys_liftWorkspace (hdrop program)).bind fun _ =>
      (obeys_checkProgram program).bind fun _ => obeys_pure _
  exact (hall.early h).2

/-- What a cycle does with the program that it has loaded. -/
def deliverLoaded (force : Bool) (stale program : List String) : Step Session CycleReport := do
  if (← get).messages.hasErrors then return ← finish stale []
  let emitted ← emitAll force program
  countCycle
  finish stale emitted

/-- How a cycle ends: by a fault, idly, or with what it does with the program that it has loaded. -/
theorem compile_cases (s : Session) :
    (∃ f t, compile s = .error (.fault f) t) ∨
    (∃ force mains s₁, select s = .ok (force, mains, []) s₁ ∧ compile s = finish [] [] s₁) ∨
    ∃ force mains stale program s₁ s₂, select s = .ok (force, mains, stale) s₁ ∧ stale ≠ [] ∧
      loadChecked mains s₁ = .ok program s₂ ∧ compile s = deliverLoaded force stale program s₂ := by
  rw [compile_eq]
  cases hselect : select s with
  | error e t =>
    obtain ⟨f, rfl⟩ := select_error hselect
    exact .inl ⟨f, t, bind_of_error hselect⟩
  | ok answer s₁ =>
    obtain ⟨force, mains, stale⟩ := answer
    rw [bind_of_ok hselect]
    cases stale with
    | nil => exact .inr (.inl ⟨force, mains, s₁, rfl, rfl⟩)
    | cons m ms =>
      simp only [List.isEmpty_cons, Bool.false_eq_true, if_false]
      cases hload : loadChecked mains s₁ with
      | error e t =>
        obtain ⟨f, rfl⟩ := loadChecked_error hload
        exact .inl ⟨f, t, bind_of_error hload⟩
      | ok program s₂ =>
        exact .inr (.inr ⟨force, mains, m :: ms, program, s₁, s₂, rfl, List.cons_ne_nil m ms, hload,
          bind_of_ok hload⟩)

/-! ## Stages -/

variable {accounts past : List Account} {s t : Session} {A C M : String → Prop}

/-- The accounts that a cycle carries on. -/
def carried (s : Session) (past : List Account) : List Account := if s.isForced then [] else past

private theorem adds_beginCycle (p : Project) :
    Project.Adds (fun _ => False) (fun _ => False) (fun _ => False) (fun _ => False) p
      p.beginCycle := by
  have hcleared : Project.Adds (fun _ => False) (fun _ => False) (fun _ => False) (fun _ => False) p
      { p with assetValues := .empty, cssToLink := [] } :=
    ⟨fun _ h => h, fun _ h => h, fun _ h => .inl h, fun _ h => .inl h,
      fun _ h => absurd h List.not_mem_nil, fun _ h => .inl h, fun _ => rfl⟩
  refine hcleared.trans ?_
  unfold Project.beginCycle
  simp only
  split
  · exact .of_eq rfl rfl rfl rfl
  · exact .of_eq rfl rfl rfl rfl

/-- Where a cycle has begun, what it carries on was mentioned. -/
theorem noted_begun (h : s.project.Noted past) : s.begun.project.Noted (s.carried past) := by
  unfold begun carried
  cases s.isForced with
  | true =>
    have hcleared : s.project.clearMaps.Noted [] := .of_empty rfl rfl rfl
    exact hcleared.of_adds (adds_beginCycle _)
  | false => exact h.of_adds (adds_beginCycle _)

/-- Selecting what is stale notes nothing. -/
theorem select_adds {force : Bool} {mains stale : List String} (hdest : s.destination = none)
    (h : select s = .ok (force, mains, stale) t) :
    anyBuild.Moves s.begun.toWorkspace t.toWorkspace ∧
      Project.Adds (fun _ => False) (fun _ => False) (fun _ => False) (fun _ => False)
        s.begun.project t.project := by
  obtain ⟨-, -, w, hw, rfl⟩ := select_ok_iff.mp h
  exact ⟨Frame.moves_of_obeys (obeys_staleMains Frame.walking_builds _ _)
    ((begun_destination s).trans hdest) hw, (obeys_staleMains walking_adding _ _).ok hw⟩

/-- Loading and checking notes scripts that the program imports. -/
theorem loadChecked_adds {mains program : List String} (hdest : s.destination = none)
    (h : loadChecked mains s = .ok program t) :
    anyBuild.Moves s.toWorkspace t.toWorkspace ∧
      (∀ file ∈ program, ∃ refs, t.toWorkspace.references? file = some refs) ∧
      Project.Adds (Account.mk program t.toWorkspace).Imports A C M s.project t.project := by
  unfold loadChecked at h
  obtain ⟨program', s₁, hload, h⟩ := (bind_ok_iff _ _ _ _ _).mp h
  obtain ⟨u, s₂, hdrop, h⟩ := (bind_ok_iff _ _ _ _ _).mp h
  obtain ⟨u', s₃, hcheck, h⟩ := (bind_ok_iff _ _ _ _ _).mp h
  obtain ⟨rfl, rfl⟩ := (pure_ok_iff _ _ _ _).mp h
  obtain ⟨hm₁, hknown, hadds⟩ := loadProgram_adds (A := A) (C := C) (M := M) hdest hload
  have hdrops : Obeys anyBuild.law (dropModules program') := (obeys_lift _).bind fun _ =>
    obeys_modify fun w => Frame.moves_project anyBuild w trivial rfl rfl
  have hm₂ : anyBuild.Moves s₁.toWorkspace s₂.toWorkspace :=
    Frame.moves_of_law ((obeys_liftWorkspace hdrops).ok hdrop).1 hm₁.destination
  have hm₃ : anyBuild.Moves s₂.toWorkspace s₃.toWorkspace :=
    Frame.moves_of_law ((obeys_checkProgram program').ok hcheck).1 hm₂.destination
  -- dropping modules copies none
  have hdropped : Obeys (Workspace.adding (fun _ => False) A C M) (dropModules program') := by
    refine (obeys_lift _).bind fun ids => obeys_modify fun w => ?_
    refine ⟨fun _ h => h, fun _ h => h, fun _ h => .inl h, fun _ h => .inl h, fun _ h => .inl h,
      fun id hid => .inl ?_, fun _ => rfl⟩
    obtain ⟨m, hm, hcopied⟩ := hid
    exact ⟨m, (List.mem_filter.mp hm).1, hcopied⟩
  have hadds₂ : Project.Adds (fun _ => False) A C M s₁.project s₂.project :=
    ((obeys_liftWorkspace hdropped).ok hdrop).1
  have hadds₃ : Project.Adds (fun _ => False) A C M s₂.project s₃.project :=
    ((obeys_checkProgram (L := Workspace.adding (fun _ => False) A C M) program').ok hcheck).1
  have hmoves := hm₂.trans hm₃
  refine ⟨hm₁.trans hmoves, fun file hfile =>
    (hknown file hfile).imp fun _ hrefs => hmoves.references? hrefs, ?_⟩
  refine Project.Adds.trans (hadds.mono_scripts fun js ⟨file, hfile, htakes⟩ =>
    ⟨file, hfile, hmoves.takes htakes⟩) ?_
  exact (hadds₂.trans hadds₃).mono_scripts fun _ h => h.elim

/-- What a cycle does with its program notes assets that the program, the page head or a style sheet
refers to. -/
theorem allows_deliverLoaded {program : List String} (hC : ∀ css, C css) (force : Bool)
    (stale : List String) (hdest : s.destination = none)
    (hknown : ∀ file ∈ program, ∃ refs, s.toWorkspace.references? file = some refs) :
    (mentioning program C).beneath.Allows s (deliverLoaded force stale program s) := by
  have hfinish : ∀ stale emitted, Obeys (mentioning program C).beneath (finish stale emitted) :=
    fun stale emitted s => by
      rw [finish_eq]
      exact ⟨Frame.looking_builds.enter s.toWorkspace .done, fun _ => .of_eq rfl rfl rfl rfl⟩
  have hcount : Obeys (mentioning program C).beneath countCycle := by
    intro s
    rw [countCycle_eq]
    unfold counted
    split
    · exact (mentioning program C).refl s.toWorkspace
    · exact (mentioning program C).refl s.toWorkspace
  unfold deliverLoaded
  refine Law.Allows.bind (obeys_get s) fun v t hget => ?_
  obtain ⟨rfl, rfl⟩ := (get_ok_iff _ _ _).mp hget
  split
  · exact hfinish stale [] s
  · exact Law.Allows.bind (allows_emitAll hC force hdest hknown) fun emitted t _ =>
      (hcount.bind fun _ => hfinish stale emitted) t

/-! ## Cycles -/

/-- The accounts up to and with a cycle from a session. -/
def accountsAfter (s : Session) (past : List Account) : List Account :=
  match s.loads? with
  | none => s.carried past
  | some program => ⟨program, (Step.final (compile s)).toWorkspace⟩ :: s.carried past

/-- What was noted where a program was loaded and delivered was mentioned by it, or before. -/
private theorem noted_of_loaded {program : List String} {s₁ s₂ : Session}
    (h : s₁.project.Noted past)
    (hload : Project.Adds (Account.mk program s₂.toWorkspace).Imports (fun _ => False) C
      (fun _ => False) s₁.project s₂.project)
    (hmoves : anyBuild.Moves s₂.toWorkspace t.toWorkspace)
    (hdeliver : Project.Adds (fun _ => False)
      ((Account.mk program t.toWorkspace).RefersTo (· ∈ s₂.project.depAssets.keys)) C
      t.project.Taken s₂.project t.project) :
    t.project.Noted (⟨program, t.toWorkspace⟩ :: past) where
  depJs js hjs := by
    have hjs₂ := (hdeliver.depJs js hjs).resolve_right not_false
    rcases hload.depJs js hjs₂ with hold | ⟨file, hfile, htakes⟩
    · obtain ⟨a, ha, himports⟩ := h.depJs js hold
      exact ⟨a, List.mem_cons_of_mem _ ha, himports⟩
    · exact ⟨_, List.mem_cons_self, file, hfile, hmoves.takes htakes⟩
  depAssets name hname := by
    have hold : ∀ n ∈ s₂.project.depAssets.keys, Mentioned past n := fun n hn =>
      h.depAssets n ((hload.depAssets n hn).resolve_right not_false)
    rcases hdeliver.depAssets name hname with hknown | hnew
    · exact .known (hold name hknown)
    · exact hnew.mono hold
  copied id hid := by
    rcases hdeliver.copied id hid with hold | hnew
    · have htaken := h.copied id ((hload.copied id hold).resolve_right not_false)
      exact (htaken.mono hload.keptJs).mono hdeliver.keptJs
    · exact hnew

/-- After a cycle that met no fault, what was noted was mentioned. -/
theorem noted_compile (hdest : s.destination = none) (h : s.project.Noted past)
    (hends : ∀ f t, compile s ≠ .error (.fault f) t) :
    (Step.final (compile s)).destination = none ∧
      (Step.final (compile s)).project.Noted (s.accountsAfter past) := by
  rcases compile_cases s with ⟨f, t, hfault⟩ | ⟨force, mains, s₁, hselect, hidle⟩ |
    ⟨force, mains, stale, program, s₁, s₂, hselect, hstale, hload, hrest⟩
  · exact absurd hfault (hends f t)
  · obtain ⟨hm₁, hadds₁⟩ := select_adds hdest hselect
    have hfinal : Step.final (compile s) = s₁.done := by rw [hidle, finish_eq]; rfl
    have haccounts : s.accountsAfter past = s.carried past := by
      unfold accountsAfter
      rw [loads?_of_idle hselect]
    rw [hfinal, haccounts]
    exact ⟨hm₁.destination, (noted_begun h).of_adds hadds₁⟩
  · obtain ⟨hm₁, hadds₁⟩ := select_adds hdest hselect
    obtain ⟨hm₂, hknown, hadds₂⟩ := loadChecked_adds (A := fun _ => False) (C := fun _ => True)
      (M := fun _ => False) hm₁.destination hload
    have hdeliver := (allows_deliverLoaded (C := fun _ => True) (fun _ => trivial) force stale
      hm₂.destination hknown).final
    rw [← hrest] at hdeliver
    have hmoves := Frame.moves_of_law hdeliver.1 hm₂.destination
    have haccounts : s.accountsAfter past
        = ⟨program, (Step.final (compile s)).toWorkspace⟩ :: s.carried past := by
      unfold accountsAfter
      rw [loads?_of_stale hselect hstale hload]
    rw [haccounts]
    exact ⟨hmoves.destination, noted_of_loaded ((noted_begun h).of_adds hadds₁) hadds₂ hmoves
      (hdeliver.2 hm₂.destination)⟩

/-- The sessions that there can be, with the accounts of the cycles since everything was last built
anew: the disk changes, the project is given another configuration, the probes are cleared, everything
may be asked to be built anew, and cycles run that meet no fault, which return or end early. -/
inductive Remembered : List Account → Session → Prop
  | start {disk : Disk} {project : Project} (hjs : project.depJs = .empty)
      (hassets : project.depAssets = .empty) (hemitted : project.emitted = .empty) :
      Remembered [] (start disk project)
  | change {past : List Account} {s : Session} (disk : Disk) (h : Remembered past s) :
      Remembered past { s with disk }
  | configure {past : List Account} {s : Session} (config : Config) (h : Remembered past s) :
      Remembered past { s with project := { s.project with config } }
  | clear {past : List Account} {s : Session} (h : Remembered past s) : Remembered past s.clearProbes
  | force {past : List Account} {s : Session} (h : Remembered past s) : Remembered past s.forceNext
  | cycle {past : List Account} {s : Session} (h : Remembered past s)
      (hends : ∀ f t, compile s ≠ .error (.fault f) t) :
      Remembered (s.accountsAfter past) (Step.final (compile s))

theorem Remembered.noted (h : Remembered past s) :
    s.destination = none ∧ s.project.Noted past := by
  induction h with
  | start hjs hassets hemitted => exact ⟨rfl, .of_empty hjs hassets hemitted⟩
  | change _ _ ih => exact ih
  | configure _ _ ih => exact ⟨ih.1, ih.2.depJs, ih.2.depAssets, ih.2.copied⟩
  | clear _ ih => exact ih
  | force _ ih => exact ih
  | cycle _ hends ih => exact noted_compile ih.1 ih.2 hends

end Session

end Bundler

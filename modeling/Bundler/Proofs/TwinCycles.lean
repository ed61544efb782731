/-
The cycles of twins.

A cycle that builds everything anew and the first cycle of a new session go through the same stages,
and from twins on each stage is in lockstep. The first session takes all entry files for stale because
it is to build anew, the other one because it has written nothing: a walk from a file that was not
written ends with that file (`Past.lockstep_selectStale`). Both load the same program, find the same
errors in it, and write the same (`Past.lockstep_proceed`).

Most stages keep what the next one asks for. What a single run keeps by itself is read off the laws
that its steps obey: that imports have entries, that nothing was written before the program is, and
that a program lists no file twice.
-/
import Bundler.Proofs.Grounds
import Bundler.Proofs.TwinDelivering

set_option autoImplicit false

namespace Bundler

open Workspace Step Coupling

/-! ## A walk from a file that was not written -/

/-- What a walk does to the entry of a file that was not written. -/
private def Entry.passed (disk : Disk) (e : Entry) : Entry :=
  { e.looked disk with freshness := .unresolvable }

private theorem Entry.key_passed (disk : Disk) (e : Entry) : (e.passed disk).key = e.key :=
  (Read.looked ⟨disk, .default, ""⟩ e).key

namespace Cache

variable {disk : Disk} {dir : String} {c : Cache} {id : Nat}

private theorem modify_modify (c : Cache) (id : Nat) (f g : Entry → Entry) :
    (c.modify id f).modify id g = c.modify id (g ∘ f) := by
  unfold modify
  simp only [List.modify_modify_eq]

/-- A file that was not written is stale. The walk ends with it, so nothing is done but to look at the
file and to mark it. -/
private theorem isStale_unwritten (disk : Disk) (dir : String) (hid : id < c.entries.length)
    (hout : (c.entry id).outputTime = .unset) :
    (c.isStale disk dir false false id).1 = true ∧
      ((c.isStale disk dir false false id).2 = c ∨
        (c.isStale disk dir false false id).2 = c.modify id (Entry.passed disk)) := by
  have hlooked : ((c.entry id).looked disk).outputTime = .unset := by
    rw [(Entry.Read.looked ⟨disk, .default, ""⟩ _).outputTime, hout]
  have hwalk : (c.freshness disk dir false id).2 = c ∨
      (c.freshness disk dir false id).2 = c.modify id (Entry.passed disk) := by
    unfold freshness freshnessWithin
    by_cases hknown : (c.entry id).freshness = .unset
    · right
      simp only [hknown, bne_self_eq_false, Bool.false_eq_true, if_false, probe_eq]
      rw [entry_modify_self _ hid]
      cases ((c.entry id).looked disk).current.time? with
      | none => exact modify_modify _ _ _ _
      | some time =>
        -- it is marked with its own time before it is seen that it has no stamp
        have hunset : (((c.modify id (Entry.looked disk)).settle id (.inProgress time)).2.entry
            id).outputTime = .unset := by
          unfold settle
          rw [entry_modify_self _ (by rw [length_modify]; exact hid), entry_modify_self _ hid]
          exact hlooked
        simp only [hunset, Stamp.isSet, Bool.not_false, Bool.and_self, if_true]
        unfold settle
        rw [modify_modify, modify_modify]
        rfl
    · left
      have hne : ((c.entry id).freshness != .unset) = true := by simpa using hknown
      simp only [hne, if_true]
  have hold : ∀ d : Cache, (d.entry id).outputTime = .unset →
      (d.entry id).isOutputCurrent = false := by
    intro d hunset
    unfold Entry.isOutputCurrent
    rw [hunset]
    cases (d.entry id).freshness.time? <;> rfl
  refine ⟨?_, hwalk⟩
  unfold isStale
  simp only [Bool.false_eq_true, if_false]
  rw [hold, Bool.not_false]
  rcases hwalk with hsame | hpassed
  · rw [hsame]
    exact hout
  · rw [hpassed, entry_modify_self _ hid]
    exact hlooked

end Cache

/-! ## The entry files -/

namespace Workspace

variable {past : Past} {w w' : Workspace} {name : String} {i i' : Nat}

/-- A walk may pass a file of the second workspace alone. -/
private theorem Twins.passed (h : Twins past w w')
    (hi' : w'.cache.find? w'.project.dir name = some i') :
    Twins past w (w'.changed i' (Entry.passed w'.disk)) where
  left := h.left
  right :=
    { destination := h.right.destination
      dated := h.right.dated
      distinct := by
        have hadvances : Cache.Advances w'.project.dir (fun _ _ => True) w'.cache
            (w'.cache.modify i' (Entry.passed w'.disk)) :=
          Cache.Advances.modify (fun _ => trivial) (Entry.key_passed w'.disk) fun _ => trivial
        exact hadvances.distinct h.right.distinct
      entries := fun j hj => by
        change j < (w'.cache.modify i' (Entry.passed w'.disk)).entries.length at hj
        rw [Cache.length_modify] at hj
        change Entry.Reliable past.names w'.surroundings
          ((w'.cache.modify i' (Entry.passed w'.disk)).entry j)
        rw [Cache.entry_modify _ hj]
        split
        · have hlook : Entry.Working past.names w'.surroundings (w'.cache.entry j)
              ((w'.cache.entry j).looked w'.disk) := Entry.Reading.working (.look _)
          exact (hlook.reliable h.right.dated (h.right.entries j hj)).marked h.right.dated
            fun t ht => absurd ht (by simp [Freshness.time?])
        · exact h.right.entries j hj }
  disk := h.disk
  phase := h.phase
  project := h.project
  cache key := by
    have hmatched := h.cache key
    change Entry.Matched w.disk _ (w.cache.at? key)
      ((w'.cache.modify i' (Entry.passed w'.disk)).at? key)
    rw [Cache.at?_modify (Entry.key_passed w'.disk) hi']
    split
    · rename_i hkey
      rw [hkey, Cache.at?_of_find? hi'] at hmatched
      rw [hkey]
      cases hat : w.cache.at? (Cache.keyOf w'.project.dir name) with
      | none =>
        rw [hat] at hmatched
        cases hmatched
      | some e =>
        rw [hat] at hmatched
        cases hmatched with
        | both htwin =>
          have hread := Entry.Read.looked w'.surroundings (w'.cache.entry i')
          have hlooked := htwin.of_reading (Entry.Read.refl w.surroundings e) hread
          exact .both (hlooked.congr (Entry.Grows.refl e) (Entry.Grows.of_stamps _ _ _) rfl rfl rfl
            rfl rfl rfl hlooked.due)
    · exact hmatched

end Workspace

namespace Session

/-- The entry files that are stale, where the marks of earlier passes are cleared. -/
def selectStale (force : Bool) (mains : List String) : Step Workspace (List String) :=
  mains.filterM fun main => onCache fun disk dir c =>
    let (id, c) := c.get dir main
    c.isStale disk dir false force id

theorem staleMains_eq (force : Bool) (mains : List String) : staleMains force mains = (do
    onCache fun _ _ c => ((), c.clearFreshness)
    selectStale force mains) := rfl

theorem obeys_selectStale {L : Law Workspace} (hL : Walking L) (force : Bool) (mains : List String) :
    Obeys L (selectStale force mains) := by
  refine obeys_filterM (fun main => obeys_onCache fun w => ?_) mains
  cases force with
  | true => exact hL.get w main
  | false => exact L.trans (hL.get w main) (moves_freshness hL false _ _)

/-- What a cycle does once the marks of earlier passes are cleared. -/
def proceed (force : Bool) (mains : List String) : Step Session CycleReport := do
  let stale ← selectStale force mains
  if stale.isEmpty then finish [] [] else build force stale mains

/-- A session without the marks of earlier passes. -/
def unmarked (s : Session) : Session := { s with cache := s.cache.clearFreshness }

theorem compile_eq_proceed (s : Session) :
    compile s = proceed s.isForced s.begun.project.mains s.begun.unmarked := by
  rw [compile_of_begun, staleMains_eq]
  rfl

end Session

namespace Past

open Session

variable {past : Past}

private theorem obeys_isStale (force : Bool) (main : String) :
    Obeys past.coupling.law (onCache fun disk dir c =>
      (c.get dir main).2.isStale disk dir false force (c.get dir main).1) := by
  refine obeys_of_grows (obeys_onCache fun w => ?_)
  cases force with
  | true => exact Frame.walking_grows.get w main
  | false =>
    exact Frame.grows.law.trans (Frame.walking_grows.get w main)
      (moves_freshness Frame.walking_grows false _ _)

/-- One takes the file for stale without a look at it, the other one sees that it was not written. -/
private theorem lockstep_isStale (main : String) : Lockstep past.coupling
    (fun _ w' => w'.Unwritten)
    (onCache fun disk dir c => (c.get dir main).2.isStale disk dir false true (c.get dir main).1)
    (onCache fun disk dir c => (c.get dir main).2.isStale disk dir false false (c.get dir main).1)
    fun _ w' stale stale' => stale = true ∧ stale' = true ∧ w'.Unwritten where
  left := obeys_isStale true main
  right := obeys_isStale false main
  run w w' hw hunwritten hfine := by
    have hid : (w'.got main).cache.find? w'.project.dir main
        = some (w'.cache.get w'.project.dir main).1 := Cache.find?_get _ _ _
    have hwalk : Frame.grows.law.moves (w'.got main) { w' with cache :=
        ((w'.got main).cache.isStale w'.disk w'.project.dir false false
          (w'.cache.get w'.project.dir main).1).2 } :=
      moves_freshness Frame.walking_grows false _ (w'.got main)
    have hgot := hw.got (Fine.back hwalk hfine).spelt
    have hget : Frame.unstamped.Moves w' (w'.got main) :=
      Frame.moves_of_law (Frame.walking_unstamped.get w' main) hw.right.destination
    have hstill : Unwritten { w' with cache :=
        ((w'.got main).cache.isStale w'.disk w'.project.dir false false
          (w'.cache.get w'.project.dir main).1).2 } :=
      (hunwritten.of_moves hget).of_moves (Frame.moves_of_law
        (moves_freshness Frame.walking_unstamped false _ (w'.got main)) hget.destination)
    obtain ⟨hstale, hpass⟩ := Cache.isStale_unwritten w'.disk w'.project.dir
      (Cache.find?_some hid).1 (hunwritten.of_moves hget _ (Cache.find?_some hid).1)
    refine .ok ?_ ⟨rfl, hstale, hstill⟩
    change Twins past (w.got main) { w' with cache :=
      ((w'.got main).cache.isStale w'.disk w'.project.dir false false
        (w'.cache.get w'.project.dir main).1).2 }
    rcases hpass with hsame | hpassed
    · rw [hsame]
      exact hgot
    · rw [hpassed]
      exact hgot.passed hid

/-- All entry files are stale, in the one because everything is to be built anew, in the other one
because nothing was written. -/
theorem lockstep_selectStale (mains : List String) : Lockstep past.coupling
    (fun _ w' => w'.Unwritten) (selectStale true mains) (selectStale false mains) same := by
  have hall : ∀ (ms acc : List String), Lockstep past.coupling (fun _ w' => w'.Unwritten)
      (ms.filterAuxM (fun main => onCache fun disk dir c =>
        (c.get dir main).2.isStale disk dir false true (c.get dir main).1) acc)
      (ms.filterAuxM (fun main => onCache fun disk dir c =>
        (c.get dir main).2.isStale disk dir false false (c.get dir main).1) acc) same := by
    intro ms
    induction ms with
    | nil => exact fun acc => Lockstep.of_pure _ _ fun _ _ _ _ => rfl
    | cons m ms ih =>
      intro acc
      rw [List.filterAuxM, List.filterAuxM]
      refine (lockstep_isStale m).bind fun stale stale' => ?_
      refine Lockstep.of_eq (ih _).left (ih _).right fun w w' _ h =>
        ⟨_, _, _, h.2.2, ?_, ?_, ih (m :: acc)⟩
      · rw [h.1]
        rfl
      · rw [h.2.1]
        rfl
  refine ((hall mains []).conseq (fun _ _ _ h => h) fun _ _ _ _ _ h => ⟨h, trivial⟩).bind_same
    fun out => Lockstep.of_pure _ _ fun _ _ _ _ => rfl

end Past

/-! ## What a run does by itself -/

namespace Session

variable {s t : Session} {mains program : List String}

private theorem obeys_loadChecked_sourced (mains : List String) :
    Obeys Sourced.law.beneath (loadChecked mains) :=
  obeys_loadChecked (Sourced.overall mains).loading (Sourced.overall mains).dropped

private theorem obeys_loadChecked_unstamped (mains : List String) :
    Obeys Frame.unstamped.law.beneath (loadChecked mains) :=
  obeys_loadChecked
    (fun s => (obeys_loadProgram (Frame.loading_unstamped fun _ => True) mains s).beneath)
    fun w _ => Frame.moves_project Frame.unstamped w trivial rfl rfl

/-- A program lists no file twice. -/
private theorem nodup_of_loadChecked (hs : Ready s.toWorkspace)
    (h : loadChecked mains s = .ok program t) : program.Nodup := by
  unfold loadChecked at h
  obtain ⟨program', s₁, hload, h⟩ := (bind_ok_iff _ _ _ _ _).mp h
  obtain ⟨u, s₂, -, h⟩ := (bind_ok_iff _ _ _ _ _).mp h
  obtain ⟨u', s₃, -, h⟩ := (bind_ok_iff _ _ _ _ _).mp h
  obtain ⟨rfl, -⟩ := (pure_ok_iff _ _ _ _).mp h
  obtain ⟨-, -, -, hnodup, -⟩ := loadProgram_ok hs hload
  exact hnodup.of_map

end Session

/-! ## The stages -/

namespace Past

open Session

variable {past : Past} {mains program : List String}

/-- What both have when a program is loaded. -/
structure Primed (past : Past) (program : List String) (s s' : Session) : Prop where
  listed : past.Listed program s s'
  sourced : s.toWorkspace.Sourced
  sourced' : s'.toWorkspace.Sourced
  unwritten : s'.toWorkspace.Unwritten
  nodup : program.Nodup

/-- Both load the same program, and find the same errors in it. -/
theorem lockstep_loadChecked (hmains : ∀ main ∈ mains, past.names main) : Lockstep past.sessions
    (fun s s' => Ready s.toWorkspace ∧ Ready s'.toWorkspace ∧ s'.toWorkspace.Unwritten)
    (loadChecked mains) (loadChecked mains)
    fun t t' program program' => program = program' ∧ past.Primed program t t' := by
  have hload : Lockstep past.sessions
      (fun s s' => Ready s.toWorkspace ∧ Ready s'.toWorkspace) (loadChecked mains)
      (loadChecked mains)
      fun t t' program program' => program = program' ∧ past.Listed program t t' := by
    unfold loadChecked
    refine (lockstep_loadProgram hmains).bind_same fun program => ?_
    refine ((steady_lift (steady_dropModules program)).keeping stable_listed).bind_same fun _ => ?_
    refine ((Lockstep.frame stable_listed (lockstep_checkProgram program)).of_pre
      fun _ _ _ h => ⟨h, h⟩).bind_same fun _ => Lockstep.of_pure _ _ fun _ _ _ h => ⟨rfl, h⟩
  refine (hload.also (P := fun s s' =>
    Ready s.toWorkspace ∧ Ready s'.toWorkspace ∧ s'.toWorkspace.Unwritten)
    (Q := fun t t' program _ => t.toWorkspace.Sourced ∧ t'.toWorkspace.Sourced ∧
      t'.toWorkspace.Unwritten ∧ program.Nodup)
    fun s s' t t' program program' ⟨hs, hs', hunwritten⟩ hrun hrun' => ?_).conseq
      (fun _ _ _ h => ⟨⟨h.1, h.2.1⟩, h⟩)
      fun _ _ _ _ _ ⟨⟨hsame, hlisted⟩, hsourced, hsourced', hunwritten, hnodup⟩ =>
        ⟨hsame, hlisted, hsourced, hsourced', hunwritten, hnodup⟩
  exact ⟨((obeys_loadChecked_sourced mains).ok hrun).2.2.2 hs.destination hs.recorded.sourced,
    ((obeys_loadChecked_sourced mains).ok hrun').2.2.2 hs'.destination hs'.recorded.sourced,
    hunwritten.of_moves (Frame.moves_of_law ((obeys_loadChecked_unstamped mains).ok hrun')
      hs'.destination), nodup_of_loadChecked hs hrun⟩

/-- Both prepare the same, and what they had they still have. -/
private theorem lockstep_prepare_primed (program : List String) : Lockstep past.sessions
    (fun s s' => past.Primed program s s' ∧ s'.toWorkspace.Overridable past.config past.cache)
    (prepare program) (prepare program) fun t t' a a' => a = a' ∧ past.Primed program t t' := by
  refine ((lockstep_prepare program).also
    (P := fun s s' => past.sessions.rel s s' ∧ past.Primed program s s')
    (Q := fun t t' _ _ => t.toWorkspace.Sourced ∧ t'.toWorkspace.Sourced ∧
      t'.toWorkspace.Unwritten ∧ program.Nodup)
    fun s s' t t' a a' ⟨hs, hprimed⟩ hrun hrun' => ?_).conseq
      (fun _ _ hs h => ⟨⟨h.1.listed, h.2⟩, hs, h.1⟩)
      fun _ _ _ _ _ ⟨⟨hsame, hlisted⟩, hsourced, hsourced', hunwritten, hnodup⟩ =>
        ⟨hsame, hlisted, hsourced, hsourced', hunwritten, hnodup⟩
  have hobeys := obeys_prepare Sourced.delivering.toWriting Sourced.placing program
  exact ⟨(hobeys.ok hrun).1.2.2.2 hs.1.left.destination hprimed.sourced,
    (hobeys.ok hrun').1.2.2.2 hs.1.right.destination hprimed.sourced',
    hprimed.unwritten.of_moves (Frame.moves_of_law
      ((obeys_prepare Frame.writing_unstamped Frame.placing_unstamped program).ok hrun').1 hs.1.right.destination),
    hprimed.nodup⟩

/-- Both write the same. -/
theorem lockstep_emitAll (program : List String) : Lockstep past.sessions
    (fun s s' => past.Primed program s s' ∧ s'.toWorkspace.Overridable past.config past.cache)
    (emitAll true program) (emitAll false program) same := by
  rw [emitAll_eq, emitAll_eq]
  refine (lockstep_prepare_primed program).bind_same fun prepared => ?_
  have hrefresh : Lockstep past.sessions (past.Primed program)
      (liftM (refreshProgram program) : Step Session Unit)
      (liftM (refreshProgram program) : Step Session Unit)
      fun t t' u u' =>
        u = u' ∧ past.Listed program t t' ∧ t'.toWorkspace.Unwritten ∧ program.Nodup := by
    refine ((Lockstep.frame (@stable_listed past program)
      (lockstep_lift (@lockstep_refreshProgram past program))).also
      (P := fun s s' => past.sessions.rel s s' ∧ past.Primed program s s')
      (Q := fun _ t' _ _ => t'.toWorkspace.Unwritten ∧ program.Nodup)
      fun s s' t t' u u' ⟨hs, hprimed⟩ _ hrun' => ?_).conseq
        (fun _ _ hs h => ⟨⟨⟨h.listed, h.sourced, h.sourced'⟩, h.listed⟩, hs, h⟩)
        fun _ _ _ _ _ ⟨⟨hsame, hlisted⟩, hrest⟩ => ⟨hsame, hlisted, hrest⟩
    have hobeys := obeys_liftWorkspace (obeys_refreshProgram Frame.walking_unstamped program)
    exact ⟨hprimed.unwritten.of_moves
      (Frame.moves_of_law (hobeys.ok hrun').1 hs.1.right.destination), hprimed.nodup⟩
  exact hrefresh.bind_same fun _ => lockstep_deliverProgram program prepared.1 prepared.2

theorem steady_countCycle : Steady past.sessions countCycle := by
  have heq : countCycle = (modify counted : Step Session Unit) := funext countCycle_eq
  have hworkspace : ∀ s : Session, s.counted.toWorkspace = s.toWorkspace := by
    intro s
    unfold counted
    split <;> rfl
  have hmessages : ∀ s : Session, s.counted.messages = s.messages := by
    intro s
    unfold counted
    split <;> rfl
  rw [heq]
  refine Steady.of_modify (fun s => ?_) fun s s' hs _ => ?_
  · change Frame.grows.law.moves s.toWorkspace s.counted.toWorkspace
    rw [hworkspace]
    exact Frame.grows.law.refl _
  · change Twins past s.counted.toWorkspace s'.counted.toWorkspace ∧
      s'.counted.messages = s.counted.messages
    rw [hworkspace, hworkspace, hmessages, hmessages]
    exact hs

theorem steady_finish (stale emitted : List String) :
    Steady past.sessions (finish stale emitted) := by
  have hreport : ∀ messages : Messages, Steady past.sessions
      (pure ⟨stale, emitted, messages.errors, messages.warnings⟩ : Step Session CycleReport) :=
    fun _ => Steady.of_pure _
  exact (steady_lift (steady_enter .done)).bind fun _ =>
    Steady.of_get (C := past.sessions) (fun s : Session => s.messages) (fun _ _ hs => hs.2.symm)
      hreport

/-- Modules with values for their constants are defined in files that the second cycle reads, if it
comes to write. -/
def Written (past : Past) (mains : List String) (s' : Session) : Prop :=
  ∀ program t', loadChecked mains s' = .ok program t' → t'.messages.hasErrors = false →
    t'.toWorkspace.Overridable past.config past.cache

/-- Both do the same with what they have selected. -/
theorem lockstep_build (hmains : ∀ main ∈ mains, past.names main) (stale : List String) :
    Lockstep past.sessions
      (fun s s' => (Ready s.toWorkspace ∧ Ready s'.toWorkspace ∧ s'.toWorkspace.Unwritten) ∧
        past.Written mains s')
      (build true stale mains) (build false stale mains) same := by
  have hload : Lockstep past.sessions
      (fun s s' => (Ready s.toWorkspace ∧ Ready s'.toWorkspace ∧ s'.toWorkspace.Unwritten) ∧
        past.Written mains s')
      (loadChecked mains) (loadChecked mains)
      fun t t' program program' => program = program' ∧ past.Primed program t t' ∧
        (t'.messages.hasErrors = false → t'.toWorkspace.Overridable past.config past.cache) :=
    ((lockstep_loadChecked hmains).also (P := fun _ s' => past.Written mains s')
      (Q := fun _ t' _ _ => t'.messages.hasErrors = false →
        t'.toWorkspace.Overridable past.config past.cache)
      fun s s' t t' program program' hwritten _ hrun' => hwritten program' t' hrun').conseq
        (fun _ _ _ h => h) fun _ _ _ _ _ ⟨⟨hsame, hprimed⟩, hq⟩ => ⟨hsame, hprimed, hq⟩
  have hgo : ∀ (program : List String) (errors : Bool), Lockstep past.sessions
      (fun t t' => (past.Primed program t t' ∧
        (t'.messages.hasErrors = false → t'.toWorkspace.Overridable past.config past.cache)) ∧
        t.messages.hasErrors = errors ∧ t'.messages.hasErrors = errors)
      (if errors then finish stale []
        else do
          let emitted ← emitAll true program
          countCycle
          finish stale emitted)
      (if errors then finish stale []
        else do
          let emitted ← emitAll false program
          countCycle
          finish stale emitted) same := by
    intro program errors
    cases errors with
    | true => exact Lockstep.of_pre (steady_finish stale []) fun _ _ _ _ => trivial
    | false =>
      have hemit : Lockstep past.sessions
          (fun s s' => past.Primed program s s' ∧ s'.toWorkspace.Overridable past.config past.cache)
          (emitAll true program) (emitAll false program) fun _ _ out out' => out = out' ∧ True :=
        (lockstep_emitAll program).conseq (fun _ _ _ h => h) fun _ _ _ _ _ h => ⟨h, trivial⟩
      exact (hemit.of_pre fun _ _ _ ⟨⟨hprimed, hover⟩, _, herrors⟩ =>
        ⟨hprimed, hover herrors⟩).bind_same fun emitted =>
          steady_countCycle.bind fun _ => steady_finish stale emitted
  unfold build
  exact hload.bind_same fun program =>
    Lockstep.of_get (C := past.sessions) (fun s : Session => s.messages.hasErrors)
      (fun s s' hs _ => by rw [hs.2]) (hgo program)

/-- Both go from the entry files to the end. -/
theorem lockstep_proceed (hmains : ∀ main ∈ mains, past.names main) : Lockstep past.sessions
    (fun s s' => (Ready s.toWorkspace ∧ Ready s'.toWorkspace ∧ s'.toWorkspace.Unwritten) ∧
      ∀ stale t', (liftM (selectStale false mains) : Step Session (List String)) s' = .ok stale t' →
        stale ≠ [] → past.Written mains t')
    (proceed true mains) (proceed false mains) same := by
  have hselect : Lockstep past.sessions
      (fun s s' => (Ready s.toWorkspace ∧ Ready s'.toWorkspace ∧ s'.toWorkspace.Unwritten) ∧
        ∀ stale t', (liftM (selectStale false mains) : Step Session (List String)) s'
          = .ok stale t' → stale ≠ [] → past.Written mains t')
      (liftM (selectStale true mains) : Step Session (List String))
      (liftM (selectStale false mains) : Step Session (List String))
      fun t t' stale stale' => stale = stale' ∧
        (Ready t.toWorkspace ∧ Ready t'.toWorkspace ∧ t'.toWorkspace.Unwritten) ∧
        (stale ≠ [] → past.Written mains t') := by
    refine ((lockstep_lift (@lockstep_selectStale past mains)).also
      (P := fun s s' => (Ready s.toWorkspace ∧ Ready s'.toWorkspace ∧ s'.toWorkspace.Unwritten) ∧
        ∀ stale t', (liftM (selectStale false mains) : Step Session (List String)) s'
          = .ok stale t' → stale ≠ [] → past.Written mains t')
      (Q := fun t t' _ stale' => (Ready t.toWorkspace ∧ Ready t'.toWorkspace ∧
        t'.toWorkspace.Unwritten) ∧ (stale' ≠ [] → past.Written mains t'))
      fun s s' t t' stale stale' ⟨⟨hs, hs', hunwritten⟩, hwritten⟩ hrun hrun' => ?_).conseq
        (fun _ _ _ h => ⟨h.1.2.2, h⟩) fun _ _ _ _ _ ⟨hsame, hstate, hwritten⟩ =>
          ⟨hsame, hstate, fun hne => hwritten (hsame ▸ hne)⟩
    have hmarks : ∀ force, Obeys Frame.marks.law.session
        (liftM (selectStale force mains) : Step Session (List String)) :=
      fun force => obeys_liftWorkspace (obeys_selectStale Frame.walking_marks force mains)
    have hkept := obeys_liftWorkspace (obeys_selectStale Frame.walking_unstamped false mains)
    exact ⟨⟨hs.of_marks (Frame.moves_of_law ((hmarks true).ok hrun).1 hs.destination),
      hs'.of_marks (Frame.moves_of_law ((hmarks false).ok hrun').1 hs'.destination),
      hunwritten.of_moves (Frame.moves_of_law (hkept.ok hrun').1 hs'.destination)⟩,
      hwritten stale' t' hrun'⟩
  refine hselect.bind_same fun stale => ?_
  cases stale with
  | nil => exact Lockstep.of_pre (steady_finish [] []) fun _ _ _ _ => trivial
  | cons main stale =>
    exact (lockstep_build hmains (main :: stale)).of_pre fun _ _ _ h => ⟨h.1, h.2 (by simp)⟩

end Past

end Bundler

/-
Laws that hold of a whole cycle.

A cycle first forgets what a new build must not take over, if it is forced, and what belongs to one
cycle (`Session.begun`). From there on it passes over entry files, loads, checks, delivers. A law
that holds of these stages holds of the cycle from that point to its end, whether it returns or ends
early, and whether or not the disk was changed since the probes were cleared
(`Session.allows_compile`). It says nothing about what a session keeps beside its workspace.

The frame of everything that a build can do to an entry, where files are loaded under the names `N`
(`Frame.builds`), is such a law but for the loading, which has to know the names. So a cycle takes
every entry through a chain of the changes that are listed there, and a fact about an entry that
each of them keeps is kept by every cycle.
-/
import Bundler.Proofs.Cycles

set_option autoImplicit false

namespace Bundler

open Workspace Step

/-- A law of workspaces as a law of sessions that may do anything to what a session has beside its
workspace, and may end early in any way. -/
def Step.Law.beneath (L : Law Workspace) : Law Session where
  moves s t := L.moves s.toWorkspace t.toWorkspace
  fails _ _ := True
  refl s := L.refl s.toWorkspace
  trans h h' := L.trans h h'
  back _ _ := trivial
  fault _ _ := trivial

/-- The laws of all that a cycle is made of, where the entry files are `mains`. -/
structure Overall (L : Law Workspace) (mains : List String) : Prop where
  loading : ∀ s, L.beneath.Allows s (Session.loadProgram mains s)
  walking : Walking L
  delivering : Delivering L fun _ => True
  placing : Placing L
  dropped : ∀ w keep, L.moves w
    { w with project := { w.project with emitted := w.project.emitted.filter keep } }

variable {L : Law Workspace}

theorem Step.Law.Allows.beneath {α : Type} {s : Session} {r : EStateM.Result Failure Session α}
    (h : L.session.Allows s r) : L.beneath.Allows s r := h.weaken (fun hm => hm.1) fun _ _ => trivial

/-! ## A cycle to its end -/

namespace Session

/-- What a cycle does from where it has begun. -/
theorem compile_of_begun (s : Session) : compile s = (do
    let stale ← staleMains s.isForced s.begun.project.mains
    if stale.isEmpty then finish [] []
    else build s.isForced stale s.begun.project.mains : Step Session CycleReport) s.begun := by
  rw [compile_eq]
  unfold select
  simp only [bind_assoc, pure_bind]
  rw [bind_of_ok (prelude_eq s)]
  have hget : (get : Step Session Session) s.begun = .ok s.begun s.begun := rfl
  rw [bind_of_ok hget]

theorem obeys_dropModules_beneath (hdropped : ∀ w keep, L.moves w
      { w with project := { w.project with emitted := w.project.emitted.filter keep } })
    (program : List String) : Obeys L.beneath (dropModules program) := fun s =>
  (obeys_liftWorkspace ((obeys_lift _).bind fun _ => obeys_modify fun w => hdropped w _) s).beneath

/-- Checking does nothing to a workspace. -/
theorem obeys_loadChecked {mains : List String}
    (hload : ∀ s, L.beneath.Allows s (loadProgram mains s))
    (hdropped : ∀ w keep, L.moves w
      { w with project := { w.project with emitted := w.project.emitted.filter keep } }) :
    Obeys L.beneath (loadChecked mains) := by
  unfold loadChecked
  exact Obeys.bind hload fun program => (obeys_dropModules_beneath hdropped program).bind fun _ =>
    Obeys.bind (fun s => (obeys_checkProgram program s).beneath) fun _ => obeys_pure _

/-- Counting a cycle does nothing to a workspace. -/
theorem obeys_countCycle : Obeys L.beneath countCycle := by
  intro s
  rw [countCycle_eq]
  change L.moves s.toWorkspace s.counted.toWorkspace
  unfold counted
  split
  · exact L.refl _
  · exact L.refl _

theorem obeys_finish (henter : ∀ w phase, L.moves w { w with phase }) (stale emitted : List String) :
    Obeys L.beneath (finish stale emitted) := fun s => henter s.toWorkspace .done

/-- A law of the stages of a cycle up to its output, and of its output, is a law of the cycle from where
it has begun. -/
theorem allows_compile_of_emitAll {s : Session} (hwalking : Walking L)
    (henter : ∀ w phase, L.moves w { w with phase })
    (hload : ∀ t, L.beneath.Allows t (loadProgram s.begun.project.mains t))
    (hdropped : ∀ w keep, L.moves w
      { w with project := { w.project with emitted := w.project.emitted.filter keep } })
    (hemit : ∀ force program t, s.loads? = some program → L.moves s.begun.toWorkspace t.toWorkspace →
      L.beneath.Allows t (emitAll force program t)) :
    L.beneath.Allows s.begun (compile s) := by
  have hfinish := obeys_finish henter
  have hselect : L.beneath.Allows s.begun (select s) := by
    have hstale : ∀ force mains, Obeys L.beneath (liftM (staleMains force mains) : Step Session _) :=
      fun force mains t => (obeys_liftWorkspace (obeys_staleMains hwalking force mains) t).beneath
    unfold select
    rw [bind_of_ok (prelude_eq s)]
    exact (obeys_get.bind fun t => (hstale _ _).bind fun _ => obeys_pure _) s.begun
  rw [compile_eq]
  refine hselect.bind_from fun answer t hanswer ht => ?_
  obtain ⟨force, mains, stale⟩ := answer
  obtain rfl := (select_ok_iff.mp hanswer).2.1
  simp only
  split
  · exact (hfinish [] [] t).after ht
  · rename_i hstale
    unfold build
    refine ((obeys_loadChecked hload hdropped t).after ht).bind_from fun program u hprogram hu => ?_
    have hloads := loads?_of_stale hanswer (by simpa using hstale) hprogram
    refine Law.Allows.after hu ?_
    refine Law.Allows.bind (obeys_get u) fun v u' hget => ?_
    obtain ⟨rfl, rfl⟩ := (get_ok_iff _ _ _).mp hget
    split
    · exact hfinish stale [] u
    · exact (hemit force program u hloads hu).bind fun emitted v _ =>
        (obeys_countCycle.bind fun _ => hfinish stale emitted) v

/-- A law of all that a cycle is made of is a law of the cycle from where it has begun. -/
theorem allows_compile {s : Session} (hL : Overall L s.begun.project.mains) :
    L.beneath.Allows s.begun (compile s) := by
  refine allows_compile_of_emitAll hL.walking hL.delivering.enter hL.loading hL.dropped
    fun force program t _ _ => ?_
  rw [emitAll_eq]
  refine Law.Allows.bind (obeys_prepare hL.delivering.toWriting hL.placing program t).beneath
    fun prepared t _ => Law.Allows.bind
      (obeys_liftWorkspace (obeys_refreshProgram hL.walking program) t).beneath fun _ t _ => ?_
  exact (obeys_deliverProgram hL.delivering (fun _ => trivial) force program _ _ t).beneath

end Session

/-! ## Everything that a build can do to an entry -/

/-- What one step of a build does to an entry, where files are loaded under the names `N`. -/
inductive Entry.Building (N : String → Prop) (s : Surroundings) : Entry → Entry → Prop where
  | loading {e e' : Entry} (h : Loading N s e e') : Building N s e e'
  | delivering {e e' : Entry} (h : Delivering (fun _ => True) s e e') : Building N s e e'
  | mark (e : Entry) (f : Freshness) : Building N s e { e with freshness := f }

namespace Frame

variable {N : String → Prop}

/-- The frame of builds that load files under the names `N`. -/
def builds (N : String → Prop) : Frame :=
  chains (Entry.Building N) (fun _ _ => True) (fun _ => trivial) fun _ _ => trivial

theorem looking_builds : Looking (builds N).law :=
  looking (builds N) (fun _ e => .single (.loading (.reading (.look e))))
    (fun _ e => .single (.loading (.reading (.text e))))
    (fun _ e => .single (.loading (.reading (.buffer e)))) fun _ _ _ => trivial

theorem loading_builds : Bundler.Loading (builds N).law N :=
  loading looking_builds (fun _ _ _ _ _ h => .single (.loading (.script h)))
    fun _ _ _ _ _ _ h => .single (.loading (.references h))

theorem walking_builds : Walking (builds N).law :=
  walking looking_builds fun _ e f => .single (.mark e f)

theorem delivering_builds : Bundler.Delivering (builds N).law fun _ => True :=
  delivering
    (taking looking_builds
      (fun _ _ hK htext hneed => .single (.delivering (.taking (.took hK htext hneed))))
      (fun _ _ hneed => .single (.delivering (.taking (.copied hneed))))
      (fun _ _ _ => trivial) fun _ _ _ => trivial)
    fun _ e => .single (.delivering (.stamp e))

theorem placing_builds : Placing (builds N).law := placing fun _ _ => trivial

end Frame

end Bundler

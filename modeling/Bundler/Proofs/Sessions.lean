/-
What holds of every session.

A session starts with an empty cache, and from then on files change on the disk, everything may be
asked to be built anew, and cycles run, which return or end early (`Session.Reached`). What a
session holds is consistent all along (`Workspace.Consistent`): no two entries have one key, what an
entry says about its file is true of the file at the time that it names, references were gathered of
imports that were found, and no time is later than the clock.

A cycle looks at every file once, and while it runs the disk stays as it is. So within a cycle, where
the probes were cleared before, what was seen of a file is what there is (`Workspace.Current`). The
stages of a cycle keep both, whether they end early or not, each by the frame that it moves in:
freshness passes, loading, taking over, delivering.
-/
import Bundler.Proofs.Cycles
import Bundler.Proofs.Loading

set_option autoImplicit false

namespace Bundler

open Workspace Step

/-- What a workspace holds is consistent with itself and with the disk. -/
structure Workspace.Consistent (w : Workspace) : Prop where
  destination : w.destination = none
  dated : w.disk.Dated
  distinct : w.cache.KeysDistinct
  named : w.cache.Named w.project.dir
  recorded : w.Recorded
  fits : ∀ i, i < w.cache.entries.length →
    (w.cache.entry i).Fits (Session.Loadable w.project.mains) w.surroundings
  stamped : ∀ i, i < w.cache.entries.length → ∀ t, (w.cache.entry i).outputTime = .at t →
    t ≤ w.disk.clock

/-- A consistent workspace that has not missed a change of the disk. -/
structure Workspace.Current (w : Workspace) : Prop extends Workspace.Consistent w where
  seen : w.cache.Seen w.disk

namespace Workspace

variable {w w' : Workspace} {K : String → Prop}

theorem Current.ready (h : w.Current) : Session.Ready w :=
  ⟨h.destination, h.recorded, h.seen, h.named, h.distinct⟩

theorem Current.walkable (h : w.Current) : w.cache.Walkable w.disk w.project.dir :=
  ⟨h.distinct, h.recorded.known, h.seen⟩

/-! ## Stages -/

/-- A frame keeps a workspace current if its chains keep what is said about an entry. -/
private theorem Current.of_chains {R : Surroundings → Entry → Entry → Prop}
    {P : Project → Project → Prop} {hrefl : ∀ p, P p p}
    {htrans : ∀ {p q r}, P p q → P q r → P p r} (h : w.Current)
    (hm : (Frame.chains R P hrefl htrans).Moves w w') (hrecorded : w'.Recorded)
    (hname : ∀ e e', Relation.ReflTransGen (R w.surroundings) e e' →
      e'.fullName = e.fullName ∧ e'.key = e.key)
    {Q : Entry → Prop}
    (hstep : ∀ e e', R w.surroundings e e' →
      (e.Seen w.disk ∧ e.Fits (Session.Loadable w.project.mains) w.surroundings ∧
        (∀ t, e.outputTime = .at t → t ≤ w.disk.clock) ∧ Q e) →
      e'.Seen w.disk ∧ e'.Fits (Session.Loadable w.project.mains) w.surroundings ∧
        (∀ t, e'.outputTime = .at t → t ≤ w.disk.clock) ∧ Q e')
    (hblank : ∀ name key, Q (.blank name key))
    (hQ : ∀ i, i < w.cache.entries.length → Q (w.cache.entry i)) :
    w'.Current ∧ ∀ i, i < w'.cache.entries.length → Q (w'.cache.entry i) := by
  have hall := hm.cache.keeps hstep
    (fun _ => ⟨.inl rfl, Entry.Fits.blank _ _ _ _, by simp [Entry.blank], hblank _ _⟩)
    (fun i hi => ⟨h.seen i hi, h.fits i hi, h.stamped i hi, hQ i hi⟩)
  have hmains : w'.project.mains = w.project.mains := by
    unfold Project.mains
    rw [hm.config]
  refine ⟨⟨⟨hm.destination, ?_, hm.cache.distinct h.distinct, ?_, hrecorded, fun i hi => ?_,
    fun i hi => ?_⟩, fun i hi => ?_⟩, fun i hi => (hall i hi).2.2.2⟩
  · rw [hm.disk]
    exact h.dated
  · rw [hm.dir]
    exact hm.cache.named hname h.named
  · rw [hm.surroundings, hmains]
    exact (hall i hi).2.1
  · rw [hm.disk]
    exact (hall i hi).2.2.1
  · rw [hm.disk]
    exact (hall i hi).1

/-- Freshness passes keep a workspace current. -/
theorem Current.of_marks (h : w.Current) (hm : Frame.marks.Moves w w') : w'.Current := by
  have hrecorded : w'.Recorded := h.recorded.of_advances hm.cache
    (fun e e' hchain => by
      obtain ⟨hlasts, -⟩ := Entry.lasts_of_marking hchain
      exact ⟨hlasts.references, hlasts.infoTime⟩) hm.dir hm.project.depJs
  refine (h.of_chains (Q := fun _ => True) hm hrecorded (fun e e' hchain => ?_)
    (fun e e' hone ⟨hseen, hfits, htime, _⟩ => ?_) (fun _ _ => trivial) fun _ _ => trivial).1
  · obtain ⟨hlasts, -⟩ := Entry.lasts_of_marking hchain
    exact ⟨hlasts.fullName, hlasts.key⟩
  · refine ⟨hone.lasts.seen hseen, hone.fits (hseen.sighted h.dated) hfits, ?_, trivial⟩
    rw [(Entry.lasts_of_marking (.single hone)).2]
    exact htime

/-- Loading keeps a workspace current. -/
theorem Current.of_loads (h : w.Current)
    (hm : (Frame.loads (Session.Loadable w.project.mains)).Moves w w') (hrecorded : w'.Recorded) :
    w'.Current := by
  refine (h.of_chains (Q := fun _ => True) hm hrecorded (fun e e' hchain => ?_)
    (fun e e' hone ⟨hseen, hfits, htime, _⟩ => ?_) (fun _ _ => trivial) fun _ _ => trivial).1
  · have hloads := Entry.loads_of_chain hchain
    exact ⟨hloads.fullName, hloads.key⟩
  · refine ⟨hone.loads.seen hseen, hone.fits (hseen.sighted h.dated) hfits, ?_, trivial⟩
    rw [hone.loads.outputTime]
    exact htime

private theorem time_of_taking {s : Surroundings} {N : String → Prop} {e e' : Entry}
    (hone : Entry.Taking K s e e') (hd : s.disk.Dated) (hseen : e.Seen s.disk) (hfits : e.Fits N s)
    (htime : ∀ t, e.outputTime = .at t → t ≤ s.disk.clock) :
    ∀ t, e'.outputTime = .at t → t ≤ s.disk.clock := by
  cases hone with
  | reading hread =>
    rw [hread.read.outputTime]
    exact htime
  | took _ _ _ => exact hfits.textTime
  | copied _ => exact fun t ht => hseen.le_clock hd ht

/-- What follows the writing of a program keeps a workspace current. -/
theorem Current.of_takes (h : w.Current) (hm : (Frame.takes K).Moves w w') : w'.Current := by
  have hrecorded : w'.Recorded := h.recorded.of_advances hm.cache
    (fun e e' hchain => by
      have hlasts := Entry.lasts_of_taking hchain
      exact ⟨hlasts.references, hlasts.infoTime⟩) hm.dir hm.project.depJs
  refine (h.of_chains (Q := fun _ => True) hm hrecorded (fun e e' hchain => ?_)
    (fun e e' hone ⟨hseen, hfits, htime, _⟩ => ?_) (fun _ _ => trivial) fun _ _ => trivial).1
  · have hlasts := Entry.lasts_of_taking hchain
    exact ⟨hlasts.fullName, hlasts.key⟩
  · exact ⟨hone.lasts.seen hseen, hone.fits (hseen.sighted h.dated) hfits,
      time_of_taking hone h.dated hseen hfits htime, trivial⟩

/-- Delivering keeps a workspace current where no mark is later than the clock. -/
theorem Current.of_delivers (h : w.Current)
    (hmarks : ∀ i, i < w.cache.entries.length → ∀ t,
      (w.cache.entry i).freshness.time? = some t → t ≤ w.disk.clock)
    (hm : (Frame.delivers K).Moves w w') :
    w'.Current ∧ ∀ i, i < w'.cache.entries.length → ∀ t,
      (w'.cache.entry i).freshness.time? = some t → t ≤ w'.disk.clock := by
  have hrecorded : w'.Recorded := h.recorded.of_advances hm.cache
    (fun e e' hchain => by
      obtain ⟨hlasts, -⟩ := Entry.lasts_of_delivering hchain
      exact ⟨hlasts.references, hlasts.infoTime⟩) hm.dir hm.project.depJs
  rw [hm.disk]
  refine h.of_chains (Q := fun e => ∀ t, e.freshness.time? = some t → t ≤ w.disk.clock) hm hrecorded
    (fun e e' hchain => ?_) (fun e e' hone ⟨hseen, hfits, htime, hmark⟩ => ?_)
    (fun _ _ => by simp [Entry.blank, Freshness.time?]) hmarks
  · obtain ⟨hlasts, -⟩ := Entry.lasts_of_delivering hchain
    exact ⟨hlasts.fullName, hlasts.key⟩
  · refine ⟨hone.lasts.seen hseen, hone.fits (hseen.sighted h.dated) hfits, ?_, ?_⟩
    · cases hone with
      | taking hone => exact time_of_taking hone h.dated hseen hfits htime
      | stamp =>
        unfold Entry.stampOutput
        cases hfresh : e.freshness.time? with
        | some v =>
          intro t ht
          rw [← Stamp.at.inj ht]
          exact hmark v hfresh
        | none => exact fun t ht => hseen.le_clock h.dated ht
    · rw [(Entry.lasts_of_delivering (.single hone)).2]
      exact hmark

/-! ## Between the stages -/

/-- Of the project only the settings and the noted scripts matter. -/
theorem Consistent.of_project (h : w.Consistent) (hdisk : w'.disk = w.disk)
    (hcache : w'.cache = w.cache) (hdest : w'.destination = w.destination)
    (hconfig : w'.project.config = w.project.config) (hdir : w'.project.dir = w.project.dir)
    (hdepJs : ∀ k ∈ w.project.depJs.keys, k ∈ w'.project.depJs.keys) : w'.Consistent := by
  have hsurr : w'.surroundings = w.surroundings := by
    unfold surroundings
    rw [hdisk, hconfig, hdir]
  have hmains : w'.project.mains = w.project.mains := by
    unfold Project.mains
    rw [hconfig]
  have hrecorded : w'.Recorded := h.recorded.of_advances
    (Cache.Advances.of_entries_eq (P := fun e e' => e' = e) (fun _ => rfl) (by rw [hcache]))
    (fun e e' heq => by rw [heq]; exact ⟨rfl, rfl⟩) hdir hdepJs
  refine ⟨hdest.trans h.destination, ?_, ?_, ?_, hrecorded, ?_, ?_⟩
  · rw [hdisk]
    exact h.dated
  · rw [hcache]
    exact h.distinct
  · rw [hcache, hdir]
    exact h.named
  · rw [hcache, hmains, hsurr]
    exact h.fits
  · rw [hcache, hdisk]
    exact h.stamped

theorem Current.of_project (h : w.Current) (hdisk : w'.disk = w.disk) (hcache : w'.cache = w.cache)
    (hdest : w'.destination = w.destination) (hconfig : w'.project.config = w.project.config)
    (hdir : w'.project.dir = w.project.dir)
    (hdepJs : ∀ k ∈ w.project.depJs.keys, k ∈ w'.project.depJs.keys) : w'.Current :=
  ⟨h.toConsistent.of_project hdisk hcache hdest hconfig hdir hdepJs,
    by rw [hcache, hdisk]; exact h.seen⟩

/-- Forgetting something of all entries keeps what is left consistent. -/
private theorem Consistent.forget {f : Entry → Entry} (h : w.Consistent)
    (hname : ∀ e, (f e).fullName = e.fullName) (hkey : ∀ e, (f e).key = e.key)
    (hrefs : ∀ e, (f e).references = e.references)
    (hinfo : ∀ e, (f e).infoTime.isSet = true → e.infoTime.isSet = true)
    (hout : ∀ e t, (f e).outputTime = .at t → e.outputTime = .at t)
    (hfits : ∀ N s e, e.Fits N s → (f e).Fits N s) :
    { w with cache := w.cache.mapEntries f }.Consistent := by
  have hlen : (w.cache.mapEntries f).entries.length = w.cache.entries.length :=
    Cache.length_mapEntries f
  have hentry : ∀ i, i < w.cache.entries.length →
      (w.cache.mapEntries f).entry i = f (w.cache.entry i) :=
    fun i hi => Cache.entry_mapEntries f hi
  have hfind : ∀ name, (w.cache.mapEntries f).find? w.project.dir name
      = w.cache.find? w.project.dir name := by
    intro name
    rw [Cache.find?_eq_keys, Cache.keys_mapEntries hkey, ← Cache.find?_eq_keys]
  refine ⟨h.destination, h.dated, fun i j hi hj heq => ?_, fun i hi => ?_, ⟨?_, ?_, ?_⟩,
    fun i hi => ?_, fun i hi t ht => ?_⟩
  · rw [hlen] at hi hj
    rw [hentry i hi, hentry j hj, hkey, hkey] at heq
    exact h.distinct i j hi hj heq
  · rw [hlen] at hi
    rw [hentry i hi, hname, hkey]
    exact h.named i hi
  · intro i hi refs hr
    rw [hlen] at hi
    rw [hentry i hi, hrefs] at hr
    exact h.recorded.named i hi refs hr
  · intro i hi refs hr name hn
    rw [hlen] at hi
    rw [hentry i hi, hrefs] at hr
    rw [hfind]
    exact h.recorded.known i hi refs hr name hn
  · intro i hi refs hr hset
    rw [hlen] at hi
    rw [hentry i hi] at hset hr
    rw [hrefs] at hr
    exact h.recorded.taken i hi refs hr (hinfo _ hset)
  · rw [hlen] at hi
    rw [hentry i hi]
    exact hfits _ _ _ (h.fits i hi)
  · rw [hlen] at hi
    rw [hentry i hi] at ht
    exact h.stamped i hi t (hout _ t ht)

/-- Where the probes are cleared, no change of the disk is missed. -/
theorem Consistent.clearProbes (h : w.Consistent) :
    { w with cache := w.cache.clearProbes }.Current := by
  refine ⟨h.forget (fun _ => rfl) (fun _ => rfl) (fun _ => rfl) (fun _ hset => hset)
    (fun _ _ ht => ht) fun _ _ _ hf => hf.congr rfl rfl rfl rfl rfl rfl rfl rfl rfl, fun i hi => ?_⟩
  rw [Cache.length_clearProbes] at hi
  rw [Cache.entry_clearProbes hi]
  exact .inl rfl

theorem Current.forceRebuild (h : w.Current) :
    { w with cache := w.cache.forceRebuild }.Current := by
  refine ⟨h.toConsistent.forget (fun _ => rfl) (fun _ => rfl) (fun _ => rfl)
    (fun _ hset => absurd hset (by simp [Stamp.isSet])) (fun _ _ ht => absurd ht (by simp))
    fun _ _ _ hf => ⟨hf.textTime, hf.sourceTime, fun _ ht => absurd ht (by simp), hf.text, hf.script,
      fun _ _ ht => absurd ht (by simp)⟩, fun i hi => ?_⟩
  rw [Cache.length_forceRebuild] at hi
  rw [Cache.entry_forceRebuild hi]
  exact h.seen i hi

/-- Changes of the disk keep a workspace consistent; what was seen may have become wrong. -/
theorem Consistent.of_changes (h : w.Consistent) {disk : Disk} (hd : w.disk.Changes disk) :
    { w with disk }.Consistent where
  destination := h.destination
  dated := hd.dated h.dated
  distinct := h.distinct
  named := h.named
  recorded := ⟨h.recorded.named, h.recorded.known, h.recorded.taken⟩
  fits i hi := (h.fits i hi).of_changes hd
  stamped i hi t ht := Nat.le_trans (h.stamped i hi t ht) hd.clock

end Workspace

namespace Session

variable {s t : Session}

/-- What holds of a session between its steps. -/
structure Sound (s : Session) : Prop where
  workspace : s.toWorkspace.Consistent
  counted : s.messages.Counted

/-- What holds of a session within a cycle. -/
structure Running (s : Session) : Prop where
  workspace : s.toWorkspace.Current
  counted : s.messages.Counted

theorem Running.sound (h : s.Running) : s.Sound := ⟨h.workspace.toConsistent, h.counted⟩

theorem Sound.clearProbes (h : s.Sound) : s.clearProbes.Running :=
  ⟨h.workspace.clearProbes, h.counted⟩

/-- A cycle has begun. -/
theorem Running.begun (h : s.Running) : s.begun.Running := by
  have hbegin : ∀ t : Session, t.Running →
      { t with phase := .entrySelection, project := t.project.beginCycle }.Running := by
    intro t ht
    have hquiet := Project.quiet_beginCycle t.project
    exact ⟨ht.workspace.of_project rfl rfl rfl hquiet.config hquiet.dir hquiet.depJs, ht.counted⟩
  apply hbegin
  cases s.isForced with
  | true =>
    refine ⟨?_, Messages.counted_empty⟩
    have hcache := h.workspace.forceRebuild
    refine ⟨⟨hcache.destination, hcache.dated, hcache.distinct, hcache.named,
      ⟨hcache.recorded.named, hcache.recorded.known, fun i hi refs _ hset => ?_⟩, hcache.fits,
      hcache.stamped⟩, hcache.seen⟩
    -- all references were forgotten, so no script has to be noted
    have hunset : (s.cache.forceRebuild.entry i).infoTime = .unset := by
      rw [Cache.entry_forceRebuild (by rw [← Cache.length_forceRebuild]; exact hi)]
    change (s.cache.forceRebuild.entry i).infoTime.isSet = true at hset
    rw [hunset] at hset
    exact absurd hset (by simp [Stamp.isSet])
  | false => exact ⟨h.workspace.of_project rfl rfl rfl rfl rfl fun _ hk => hk, h.counted⟩

/-! ## A whole cycle -/

/-- The law that sessions within a cycle stay so. -/
def runningLaw : Law Session := Law.keeping Running

/-- A stage that obeys the law of a frame keeps a session running if the frame does. -/
private theorem running_of_law {α : Type} {L : Law Workspace} {r : EStateM.Result Failure Session α}
    (hr : L.session.Allows s r) (hL : ∀ w, L.moves s.toWorkspace w → w.Current) :
    runningLaw.Allows s r := by
  cases r with
  | ok a t => exact fun hs => ⟨hL _ hr.1, hr.2.counted hs.counted⟩
  | error e t => exact ⟨fun hs => ⟨hL _ hr.1.1, hr.1.2.counted hs.counted⟩, trivial⟩

theorem running_staleMains (hs : s.Running) (force : Bool) (mains : List String) :
    runningLaw.Allows s ((liftM (staleMains force mains) : Step Session (List String)) s) :=
  running_of_law (obeys_liftWorkspace (obeys_staleMains Frame.walking_marks force mains) s)
    fun _ hm => hs.workspace.of_marks (Frame.moves_of_law hm hs.workspace.destination)

theorem running_loadProgram (hs : s.Running) :
    runningLaw.Allows s (loadProgram s.project.mains s) :=
  running_of_law (loadProgram_law s.project.mains hs.workspace.ready) fun _ hm =>
    hs.workspace.of_loads (Frame.moves_of_law hm.1 hs.workspace.destination)
      (hm.2.2.2.2 hs.workspace.destination hs.workspace.recorded)

theorem obeys_dropModules {K : String → Prop} (program : List String) :
    Obeys (Frame.takes K).law (dropModules program) :=
  (obeys_lift _).bind fun _ => obeys_modify fun w =>
    Frame.moves_project (Frame.takes K) w ⟨rfl, rfl, rfl, rfl, fun _ => rfl, fun _ h => h⟩ rfl rfl

theorem running_dropModules (hs : s.Running) (program : List String) :
    runningLaw.Allows s ((liftM (dropModules program) : Step Session Unit) s) :=
  running_of_law (obeys_liftWorkspace (obeys_dropModules (K := fun _ => True) program) s)
    fun _ hm => hs.workspace.of_takes (Frame.moves_of_law hm hs.workspace.destination)

theorem running_checkProgram (hs : s.Running) (program : List String) :
    runningLaw.Allows s (checkProgram program s) :=
  running_of_law (obeys_checkProgram (L := Frame.marks.law) program s) fun _ hm =>
    hs.workspace.of_marks (Frame.moves_of_law hm hs.workspace.destination)

theorem running_prepare (hs : s.Running) (program : List String) :
    runningLaw.Allows s (prepare program s) :=
  running_of_law
    (obeys_prepare (Frame.taking_takes (K := fun _ => True)).toWriting Frame.placing_takes program s) fun _ hm =>
    hs.workspace.of_takes (Frame.moves_of_law hm hs.workspace.destination)

/-- Loading and checking keeps a session running, and if it returns, the files of the program have
entries. -/
theorem running_loadChecked (hs : s.Running) :
    runningLaw.Allows s (loadChecked s.project.mains s) := by
  have hload := running_loadProgram hs
  unfold loadChecked
  refine hload.bind fun program t ht => ?_
  rw [ht] at hload
  have hdrop := running_dropModules (hload hs) program
  refine hdrop.bind fun u t' ht' => ?_
  rw [ht'] at hdrop
  exact (running_checkProgram (hdrop (hload hs)) program).bind fun _ _ _ => obeys_pure _ _

/-- Delivering keeps a session running where the files of the program have entries. -/
theorem running_emitAll (hs : s.Running) (force : Bool) {program : List String}
    (hknown : ∀ file ∈ program, ∃ i, s.cache.find? s.project.dir file = some i) :
    runningLaw.Allows s (emitAll force program s) := by
  have hprepare := running_prepare hs program
  rw [emitAll_eq]
  refine hprepare.bind fun prepared t ht => ?_
  rw [ht] at hprepare
  have hrun := hprepare hs
  have hmoves : (Frame.takes fun _ => True).Moves s.toWorkspace t.toWorkspace :=
    Frame.moves_of_law ((obeys_prepare Frame.taking_takes.toWriting Frame.placing_takes program).ok ht).1
      hs.workspace.destination
  obtain ⟨c, hrefresh, hmarked, -⟩ := refreshProgram_ok hrun.workspace.walkable
    fun file (hfile : file ∈ program) => by
      obtain ⟨i, hi⟩ := hknown file hfile
      exact ⟨i, by rw [hmoves.dir]; exact hmoves.cache.find? hi⟩
  have hlift : (liftM (refreshProgram program) : Step Session Unit) t
      = .ok () { t with cache := c } := (liftWorkspace_ok_iff _ _ _ _).mpr ⟨_, hrefresh, rfl⟩
  have hrun' : { t with cache := c }.Running :=
    ⟨hrun.workspace.of_marks (Frame.moves_of_obeys (obeys_refreshProgram Frame.walking_marks program)
      hrun.workspace.destination hrefresh), hrun.counted⟩
  refine Law.Allows.bind (by rw [hlift]; exact fun _ => hrun') fun u t' ht' => ?_
  rw [hlift] at ht'
  cases ht'
  refine running_of_law (obeys_deliverProgram Frame.delivering_delivers (fun _ => trivial) force
    program prepared.1 prepared.2 _) fun w hm => ?_
  exact (hrun'.workspace.of_delivers (fun i _ v hv => hmarked.le_clock hrun.workspace.dated hv)
    (Frame.moves_of_law hm hrun'.workspace.destination)).1

/-- The files of a program that was loaded have entries. -/
theorem known_of_loadChecked (hs : s.Running) {program : List String}
    (h : loadChecked s.project.mains s = .ok program t) :
    ∀ file ∈ program, ∃ i, t.cache.find? t.project.dir file = some i := by
  unfold loadChecked at h
  obtain ⟨program', s₁, hload, h⟩ := (bind_ok_iff _ _ _ _ _).mp h
  obtain ⟨u, s₂, hdrop, h⟩ := (bind_ok_iff _ _ _ _ _).mp h
  obtain ⟨u', s₃, hcheck, h⟩ := (bind_ok_iff _ _ _ _ _).mp h
  obtain ⟨rfl, rfl⟩ := (pure_ok_iff _ _ _ _).mp h
  have hrun₁ : s₁.Running := by
    have hrun := running_loadProgram hs
    rw [hload] at hrun
    exact hrun hs
  obtain ⟨-, -, -, -, -, hloaded, -⟩ := loadProgram_ok hs.workspace.ready hload
  have hmoves₂ := Frame.moves_of_law ((obeys_liftWorkspace
    (obeys_dropModules (K := fun _ => True) program')).ok hdrop).1 hrun₁.workspace.destination
  have hmoves₃ := Frame.moves_of_law
    ((obeys_checkProgram (L := Frame.marks.law) program').ok hcheck).1 hmoves₂.destination
  intro file hfile
  obtain ⟨deps, i, refs, hi, -⟩ := hloaded file hfile
  refine ⟨i, ?_⟩
  rw [hmoves₃.dir, hmoves₂.dir]
  exact hmoves₃.cache.find? (hmoves₂.cache.find? hi)

/-- A cycle keeps a session running, whether it returns or ends early. -/
theorem running_compile (hs : s.Running) : runningLaw.Allows s (compile s) := by
  have hdone : ∀ stale emitted, Obeys runningLaw (finish stale emitted) := fun stale emitted t ht =>
    ⟨ht.workspace.of_project rfl rfl rfl rfl rfl fun _ hk => hk, ht.counted⟩
  have hcount : Obeys runningLaw countCycle := by
    intro t
    rw [countCycle_eq]
    intro ht
    unfold counted
    split
    · exact ht
    · exact ⟨ht.workspace, ht.counted⟩
  have hselect : runningLaw.Allows s (select s) := by
    unfold select
    refine Law.Allows.bind (by rw [prelude_eq]; exact fun h => h.begun) fun force t ht => ?_
    rw [prelude_eq] at ht
    cases ht
    refine Law.Allows.bind (obeys_get _) fun t t' hget => ?_
    obtain ⟨rfl, rfl⟩ := (get_ok_iff _ _ _).mp hget
    exact (running_staleMains hs.begun _ _).bind fun _ _ _ => obeys_pure _ _
  rw [compile_eq]
  refine hselect.bind fun ⟨force, mains, stale⟩ t ht => ?_
  rw [ht] at hselect
  have hrun := hselect hs
  obtain ⟨-, hmains, w, hw, htw⟩ := select_ok_iff.mp ht
  have hmains' : mains = t.project.mains := by
    have hmoves := Frame.moves_of_obeys (obeys_staleMains Frame.walking_marks s.isForced _)
      hs.begun.workspace.destination hw
    rw [hmains, ← htw]
    unfold Project.mains
    rw [hmoves.config]
  simp only
  split
  · exact hdone [] [] t
  · unfold build
    rw [hmains']
    have hload := running_loadChecked hrun
    refine hload.bind fun program t₁ ht₁ => ?_
    rw [ht₁] at hload
    refine Law.Allows.bind (obeys_get _) fun t₂ t₂' hget => ?_
    obtain ⟨rfl, rfl⟩ := (get_ok_iff _ _ _).mp hget
    split
    · exact hdone _ _ _
    · exact (running_emitAll (hload hrun) force (known_of_loadChecked hrun ht₁)).bind
        fun _ t₃ _ => (hcount.bind fun _ => hdone _ _) t₃

/-! ## Sessions that are reached -/

/-- The sessions that a project can come to: files change, everything may be asked to be built anew,
and cycles run, each after the probes were cleared, which return or end early. -/
inductive Reached (project : Project) : Session → Prop where
  | start {disk : Disk} (h : disk.Dated) : Reached project (start disk project)
  | change {s : Session} {disk : Disk} (h : Reached project s) (hd : s.disk.Changes disk) :
      Reached project { s with disk }
  | force {s : Session} (h : Reached project s) : Reached project s.forceNext
  | returned {s s' : Session} {r : CycleReport} (h : Reached project s)
      (hrun : cycle s = .ok r s') : Reached project s'
  | ended {s s' : Session} {e : Failure} (h : Reached project s)
      (hrun : cycle s = .error e s') : Reached project s'

theorem sound_start {disk : Disk} (h : disk.Dated) (project : Project) :
    (start disk project).Sound := by
  have hnone : ∀ i, ¬ i < (Cache.empty).entries.length := fun i => Nat.not_lt_zero i
  exact ⟨⟨rfl, h, fun i _ hi => absurd hi (hnone i), fun i hi => absurd hi (hnone i),
    ⟨fun i hi => absurd hi (hnone i), fun i hi => absurd hi (hnone i),
      fun i hi => absurd hi (hnone i)⟩, fun i hi => absurd hi (hnone i),
    fun i hi => absurd hi (hnone i)⟩, Messages.counted_empty⟩

/-- Every session that is reached is sound. -/
theorem Reached.sound {project : Project} (h : Reached project s) : s.Sound := by
  induction h with
  | start hd => exact sound_start hd project
  | change _ hd ih => exact ⟨ih.workspace.of_changes hd, ih.counted⟩
  | force _ ih => exact ⟨ih.workspace, ih.counted⟩
  | returned _ hrun ih =>
    have hrunning := running_compile ih.clearProbes
    rw [← cycle_eq, hrun] at hrunning
    exact (hrunning ih.clearProbes).sound
  | ended _ hrun ih =>
    have hrunning := running_compile ih.clearProbes
    rw [← cycle_eq, hrun] at hrunning
    exact (hrunning.1 ih.clearProbes).sound

end Session

end Bundler

/-
What a cycle leaves that builds.

Loading and checking lists a program, and drops the modules of other files
(`Session.loadChecked_ok`). Where it leaves no error the program is complete. Then it is written: the
stages of that, with the states in between, are listed once (`Session.Emission`), and what is said
about a cycle that builds is said from there.

The files that a program leads to are those of the program and the scripts that are taken over
(`Session.supplied_of_reaches`). In the end the first are delivered and the second copied. The marks
of the pass are the newest times where no circle is reached, so the stamp of such a file covers
everything that it leads to (`Session.Emission.covered`).
-/
import Bundler.Proofs.Graph
import Bundler.Proofs.Takeover

set_option autoImplicit false

namespace Bundler

open Workspace Step

theorem Messages.mem_addAll_of_mem {m : Messages} {d : Diagnostic} (h : d ∈ m.toList) :
    ∀ ds : List Diagnostic, d ∈ (m.addAll ds).toList := by
  intro ds
  unfold Messages.addAll
  induction ds generalizing m with
  | nil => exact h
  | cons d' ds ih => exact ih (Messages.mem_add.mpr (.inl h))

/-- What was loaded is a matter of the cache and the directory. -/
theorem Workspace.HasLoaded.congr {w w' : Workspace} {file : String} {deps : List String}
    (h : w.HasLoaded file deps) (hcache : w'.cache = w.cache)
    (hdir : w'.project.dir = w.project.dir) : w'.HasLoaded file deps := by
  unfold Workspace.HasLoaded
  rw [hcache, hdir]
  exact h

namespace Session

variable {s s' t : Session} {w w' : Workspace} {mains program emitted : List String}
  {force atlasChanged : Bool} {overrides : FileOverrides}

/-- A program stays one where loaded files stay loaded. -/
theorem IsProgram.of_loaded (h : IsProgram mains w program)
    (hw : ∀ file deps, w.HasLoaded file deps → w'.HasLoaded file deps) :
    IsProgram mains w' program where
  listed := h.listed
  loadable := h.loadable
  mentioned file hfile := (h.mentioned file hfile).imp_right fun ⟨other, deps, hl, hmem⟩ =>
    ⟨other, deps, hw other deps hl, hmem⟩
  loaded file hfile := by
    obtain ⟨deps, hl, hdeps⟩ := h.loaded file hfile
    exact ⟨deps, hw file deps hl, hdeps⟩
  mains := h.mains

/-! ## Loading and checking -/

/-- Loading and checking: the program that was loaded, and the modules of its files. -/
theorem loadChecked_ok (hs : s.Running) (h : loadChecked s.project.mains s = .ok program t) :
    ∃ s₁ ids, loadProgram s.project.mains s = .ok program s₁ ∧ s₁.Running ∧
      (program.mapM Path.moduleId : Except Fault (List String)) = .ok ids ∧
      t.toWorkspace = { s₁.toWorkspace with project := { s₁.project with
        emitted := s₁.project.emitted.filter fun id m => m.copied || ids.contains id } } ∧
      s.Keeps t ∧ ∀ d ∈ s₁.messages.toList, d ∈ t.messages.toList := by
  unfold loadChecked at h
  obtain ⟨program', s₁, hload, h⟩ := (bind_ok_iff _ _ _ _ _).mp h
  obtain ⟨u, s₂, hdrop, h⟩ := (bind_ok_iff _ _ _ _ _).mp h
  obtain ⟨u', s₃, hcheck, h⟩ := (bind_ok_iff _ _ _ _ _).mp h
  obtain ⟨rfl, rfl⟩ := (pure_ok_iff _ _ _ _).mp h
  have hrun : s₁.Running := by
    have hrun := running_loadProgram hs
    rw [hload] at hrun
    exact hrun hs
  have hkeeps₁ := ((loadProgram_ok hs.workspace.ready hload).2).1
  have hkeeps₃ := ((obeys_checkProgram (L := Frame.marks.law) program').ok hcheck).2
  obtain ⟨w₂, hw₂, rfl⟩ := (liftWorkspace_ok_iff _ _ _ _).mp hdrop
  unfold dropModules at hw₂
  obtain ⟨ids, w₃, hlift, hw₂⟩ := (bind_ok_iff _ _ _ _ _).mp hw₂
  obtain ⟨hids, rfl⟩ := (lift_ok_iff _ _ _ _).mp hlift
  have hw₂' := (modify_ok_iff _ _ _ _).mp hw₂
  unfold checkProgram at hcheck
  obtain ⟨s₄, s₄', hget, hcheck⟩ := (bind_ok_iff _ _ _ _ _).mp hcheck
  obtain ⟨rfl, rfl⟩ := (get_ok_iff _ _ _).mp hget
  obtain ⟨u₅, s₅, hone, htwo⟩ := (bind_ok_iff _ _ _ _ _).mp hcheck
  have hs₅ := (modify_ok_iff _ _ _ _).mp hone
  have hs₃ := (modify_ok_iff _ _ _ _).mp htwo
  refine ⟨s₁, ids, hload, hrun, hids, ?_, hkeeps₁.trans (Keeps.trans ?_ hkeeps₃), fun d hd => ?_⟩
  · rw [← hs₃, ← hs₅]
    exact hw₂'.symm
  · exact ⟨rfl, rfl, rfl, fun h => h⟩
  · rw [← hs₃, ← hs₅]
    exact Messages.mem_addAll_of_mem (Messages.mem_addAll_of_mem hd _) _

/-- Where no error is left, what was loaded is a program. -/
theorem isProgram_of_loadChecked (hs : s.Running)
    (h : loadChecked s.project.mains s = .ok program t) (herrors : t.messages.hasErrors = false) :
    t.Running ∧ IsProgram s.project.mains t.toWorkspace program := by
  have hrun : t.Running := by
    have hlaw := running_loadChecked hs
    rw [h] at hlaw
    exact hlaw hs
  obtain ⟨s₁, ids, hload, -, -, hw, -, hmessages⟩ := loadChecked_ok hs h
  refine ⟨hrun, ?_⟩
  obtain ⟨-, -, -, -, -, -, ⟨file, hmissing⟩ | hprogram⟩ := loadProgram_ok hs.workspace.ready hload
  · have hhas := hrun.counted.hasErrors (hmessages _ hmissing) rfl
    rw [herrors] at hhas
    exact absurd hhas (by simp)
  · refine hprogram.of_loaded fun file deps hl => hl.congr ?_ ?_
    · rw [hw]
    · rw [hw]

/-! ## Writing a program -/

/-- The stages in which a program is written: what is prepared, the pass over the program, the
writing of its files, and what follows it. -/
structure Emission (force : Bool) (program : List String) (s : Session) (emitted : List String)
    (s' : Session) (overrides : FileOverrides) (atlasChanged : Bool) (t : Session) (c : Cache)
    (v : Workspace) : Prop where
  prepared : prepare program s = .ok (overrides, atlasChanged) t
  writes : Frame.writes.Moves s.toWorkspace t.toWorkspace
  marked : Cache.Marked t.disk t.project.dir true t.cache.clearFreshness c
  set : ∀ file ∈ program, ∀ i, t.cache.find? t.project.dir file = some i → c.mark i ≠ .unset
  marks : Frame.marks.Moves t.toWorkspace { t.toWorkspace with cache := c }
  deliverable : { t.toWorkspace with cache := c, phase := .emit }.Deliverable
  emits : emitProgram force atlasChanged overrides program
    { t.toWorkspace with cache := c, phase := .emit } = .ok emitted v
  takes : (Frame.takes fun key => ∃ source ∈ v.project.depJs.keys,
    key = Cache.keyOf v.project.dir source).Moves v s'.toWorkspace
  copied : ∀ source ∈ v.project.depJs.keys, s'.CanRead source → s'.HasCopied source
  modules : ∀ id, (v.project.config.bundle ≠ .none →
      ∀ source ∈ v.project.depJs.keys, Path.moduleId source ≠ .ok id) →
    s'.project.emitted.get? id = v.project.emitted.get? id
  keeps : t.Keeps s' ∧ s'.messages = t.messages

/-- What was loaded stays so while a program is prepared and passed over. -/
theorem Emission.hasLoaded {c : Cache} {v : Workspace}
    (h : Emission force program s emitted s' overrides atlasChanged t c v) {file : String}
    {deps : List String} (hl : s.HasLoaded file deps) :
    { t.toWorkspace with cache := c, phase := .emit }.HasLoaded file deps := by
  have ht : t.HasLoaded file deps :=
    hl.of_advances h.writes.cache h.writes.dir fun _ _ hread => Entry.Read.lasts hread
  have hc : { t.toWorkspace with cache := c }.HasLoaded file deps :=
    ht.of_advances h.marks.cache h.marks.dir fun _ _ hchain => (Entry.lasts_of_marking hchain).1
  exact hc.congr rfl rfl

theorem emitAll_ok (hs : s.Running) (hloaded : ∀ file ∈ program, ∃ deps, s.HasLoaded file deps)
    (h : emitAll force program s = .ok emitted s') :
    ∃ overrides atlasChanged t c v,
      Emission force program s emitted s' overrides atlasChanged t c v := by
  rw [emitAll_eq] at h
  obtain ⟨⟨overrides, atlasChanged⟩, t, hprepare, h⟩ := (bind_ok_iff _ _ _ _ _).mp h
  obtain ⟨u, t', hrefresh, h⟩ := (bind_ok_iff _ _ _ _ _).mp h
  have hrun : t.Running := by
    have hlaw := running_prepare hs program
    rw [hprepare] at hlaw
    exact hlaw hs
  have hwrites : Frame.writes.Moves s.toWorkspace t.toWorkspace :=
    Frame.moves_of_law ((obeys_prepare Frame.writing_writes Frame.placing_writes program).ok hprepare).1
      hs.workspace.destination
  have hloaded' : ∀ file ∈ program, ∃ deps, t.HasLoaded file deps := by
    intro file hfile
    obtain ⟨deps, hl⟩ := hloaded file hfile
    exact ⟨deps, hl.of_advances hwrites.cache hwrites.dir fun _ _ hread => Entry.Read.lasts hread⟩
  obtain ⟨c, hpass, hmarked, hset⟩ := refreshProgram_ok hrun.workspace.walkable
    fun file (hfile : file ∈ program) => by
      obtain ⟨deps, i, refs, hi, -⟩ := hloaded' file hfile
      exact ⟨i, hi⟩
  have hmarks := Frame.moves_of_obeys (obeys_refreshProgram Frame.walking_marks program)
    hrun.workspace.destination hpass
  have hcurrent := hrun.workspace.of_marks hmarks
  obtain ⟨w', hw', rfl⟩ := (liftWorkspace_ok_iff _ _ _ _).mp hrefresh
  rw [hpass] at hw'
  cases hw'
  have hdeliverable := hrun.workspace.deliverable hmarked hcurrent
  obtain ⟨v, w, hemit, rfl, htakes, hcopied, hmodules⟩ := deliverProgram_ok
    (s := { t with toWorkspace := { t.toWorkspace with cache := c } }) hdeliverable
    (fun file hfile => by
      obtain ⟨deps, hl⟩ := hloaded' file hfile
      exact ⟨deps, hl.of_advances hmarks.cache hmarks.dir
        fun _ _ hchain => (Entry.lasts_of_marking hchain).1⟩) h
  exact ⟨overrides, atlasChanged, t, c, v, hprepare, hwrites, hmarked, hset, hmarks,
    ⟨hdeliverable.toCurrent.of_project rfl rfl rfl rfl rfl fun _ hk => hk, hdeliverable.marks⟩,
    hemit, htakes, hcopied, hmodules, ⟨rfl, rfl, rfl, fun h => h⟩, rfl⟩

/-! ## What a program leads to -/

/-- No two names that are mentioned are one to loading and two to the cache. -/
def Spelled (mains : List String) (w : Workspace) : Prop :=
  ∀ a b, w.Mentions mains a → w.Mentions mains b → Text.lower a = Text.lower b →
    Cache.keyOf w.project.dir a = Cache.keyOf w.project.dir b

/-- The entry of a program file, or of a script that is taken over. -/
def Supplied (program : List String) (w : Workspace) (i : Nat) : Prop :=
  (∃ file ∈ program, w.cache.find? w.project.dir file = some i) ∨
    ∃ source ∈ w.project.depJs.keys, Path.IsScriptName source ∧
      w.cache.find? w.project.dir source = some i

/-- A mentioned name that loading takes for one of the program has its entry. -/
theorem find?_of_listed (hprogram : IsProgram mains w program) (hspelled : Spelled mains w)
    {name : String} {i : Nat} (hname : w.Mentions mains name)
    (hlisted : Text.lower name ∈ program.map Text.lower)
    (hfind : w.cache.find? w.project.dir name = some i) :
    ∃ file ∈ program, w.cache.find? w.project.dir file = some i := by
  obtain ⟨file, hfile, hlower⟩ := List.mem_map.mp hlisted
  refine ⟨file, hfile, ?_⟩
  rw [Cache.find?_congr (hspelled file name (hprogram.mentioned file hfile) hname hlower)]
  exact hfind

/-- A script with imports of its own is an entry file, and so one of the program. -/
private theorem listed_of_script (hw : w.Current) (hprogram : IsProgram w.project.mains w program)
    (hspelled : Spelled w.project.mains w) {source name : String} {i : Nat}
    (hscript : Path.IsScriptName source) (hfind : w.cache.find? w.project.dir source = some i)
    (hname : name ∈ (w.cache.entry i).imports w.disk) :
    ∃ file ∈ program, w.cache.find? w.project.dir file = some i := by
  obtain ⟨hi, hkey⟩ := Cache.find?_some hfind
  obtain ⟨t, refs, hmod, hinfo, hrefs, -⟩ := Entry.mem_imports_iff.mp hname
  obtain ⟨-, file, script, deps, p, hfile, hkey', -⟩ := (hw.fits i hi).info t refs hinfo hrefs hmod
  have hdir : w.surroundings.dir = w.project.dir := rfl
  rw [hdir] at hkey'
  rcases hfile with hmain | hsource
  · refine find?_of_listed hprogram hspelled (.inl hmain) (hprogram.mains file hmain) ?_
    exact Cache.find?_eq_some hw.distinct hi hkey'
  · exact absurd (hkey'.symm.trans hkey) (Path.keyOf_ne_of_isSourceName hsource hscript)

/-- What a file of a program leads to is the program and the scripts that are taken over. -/
theorem supplied_of_reaches (hw : w.Current) (hprogram : IsProgram w.project.mains w program)
    (hspelled : Spelled w.project.mains w) {file : String} {i j : Nat} (hfile : file ∈ program)
    (hi : w.cache.find? w.project.dir file = some i)
    (hij : w.cache.Reaches w.disk w.project.dir i j) : Supplied program w j := by
  induction hij with
  | refl => exact .inl ⟨file, hfile, hi⟩
  | @tail j k hij hjk ih =>
    obtain ⟨hj, name, hname, hfind⟩ := hjk
    -- what has an import is listed: a script that is taken over and imports something is, too
    obtain ⟨f, hf, hfj⟩ : ∃ f ∈ program, w.cache.find? w.project.dir f = some j := by
      rcases ih with hlisted | ⟨source, -, hscript, hsource⟩
      · exact hlisted
      · exact listed_of_script hw hprogram hspelled hscript hsource hname
    obtain ⟨deps, hl, hdeps⟩ := hprogram.loaded f hf
    obtain ⟨refs, hrefs, hmem⟩ := Cache.mem_files_of_mem_imports hname
    obtain ⟨j', refs', hj', hloaded, hrefs', hfiles⟩ := id hl
    rw [hfj] at hj'
    obtain rfl := Option.some.inj hj'
    rw [hrefs] at hrefs'
    obtain rfl := Option.some.inj hrefs'
    rw [hfiles] at hmem
    rcases hw.recorded.named j hj refs hrefs name (by rw [hfiles]; exact hmem) with hsource | hscript
    · exact .inl (find?_of_listed hprogram hspelled (.inr ⟨f, deps, hl, hmem⟩)
        (hdeps name hmem (Path.isJs_of_isSourceName hsource)) hfind)
    · refine .inr ⟨name, ?_, hscript, hfind⟩
      obtain ⟨-, hinfo, -⟩ := Entry.isInfoCurrent_iff.mp hloaded.info
      refine hw.recorded.taken j hj refs hrefs ?_ name (by rw [hfiles]; exact hmem) hscript
      rw [hinfo]
      exact hloaded.isSet

/-! ## What a written program leaves -/

section

variable {c : Cache} {v : Workspace}

/-- The keys of the scripts that are taken over. -/
def TakenKeys (w : Workspace) (key : String) : Prop :=
  ∃ source ∈ w.project.depJs.keys, key = Cache.keyOf w.project.dir source

/-- Once a program is written, its files are delivered. -/
theorem Emission.delivered (h : Emission force program s emitted s' overrides atlasChanged t c v)
    (hprogram : IsProgram mains s.toWorkspace program) :
    (Frame.delivers fun _ => False).Moves { t.toWorkspace with cache := c, phase := .emit } v ∧
      v.Deliverable ∧ IsProgram mains v program ∧
      ∀ file ∈ program, ∀ i, v.cache.find? v.project.dir file = some i →
        (v.cache.entry i).Delivered := by
  have hl : ∀ file ∈ program, ∃ deps,
      { t.toWorkspace with cache := c, phase := .emit }.HasLoaded file deps := by
    intro file hfile
    obtain ⟨deps, hl, -⟩ := hprogram.loaded file hfile
    exact ⟨deps, h.hasLoaded hl⟩
  obtain ⟨hm, hdelivered, -⟩ := emitProgram_ok (K := fun _ => False) h.deliverable hl h.emits
  refine ⟨hm, h.deliverable.of_delivers hm,
    hprogram.of_loaded fun file deps hl => (h.hasLoaded hl).of_delivers hm,
    fun file hfile i hi => ?_⟩
  obtain ⟨deps, j, refs, hj, -⟩ := hl file hfile
  have hsame := hm.cache.find? hj
  rw [← hm.dir, hi] at hsame
  rw [Option.some.inj hsame]
  exact hdelivered file hfile j hj

/-- What was loaded for a program stays so when scripts are taken over. -/
theorem Emission.hasLoaded_end
    (h : Emission force program s emitted s' overrides atlasChanged t c v) {file : String}
    {deps : List String} (hl : v.HasLoaded file deps) : s'.HasLoaded file deps :=
  hl.of_advances h.takes.cache h.takes.dir fun _ _ hchain => Entry.lasts_of_taking hchain

theorem Emission.current (h : Emission force program s emitted s' overrides atlasChanged t c v)
    (hprogram : IsProgram mains s.toWorkspace program) : s'.toWorkspace.Current :=
  (h.delivered hprogram).2.1.toCurrent.of_takes h.takes

/-- What a program leads to was copied in the end, if the scripts can be read. -/
private theorem Emission.copied_of_supplied
    (h : Emission force program s emitted s' overrides atlasChanged t c v)
    (hprogram : IsProgram mains s.toWorkspace program)
    (hread : ∀ source ∈ s'.project.depJs.keys, s'.CanRead source) {i : Nat}
    (hi : Supplied program v i) : (s'.cache.entry i).Copied := by
  rcases hi with ⟨file, hfile, hfind⟩ | ⟨source, hsource, -, hfind⟩
  · obtain ⟨-, -, -, hdelivered⟩ := h.delivered hprogram
    exact ((hdelivered file hfile i hfind).copied.of_takes
      (h.takes.cache.old i (Cache.find?_some hfind).1)).1
  · obtain ⟨j, hj, hcopied⟩ :=
      h.copied source hsource (hread source (h.takes.project.depJs source hsource))
    rw [h.takes.dir, h.takes.cache.find? hfind] at hj
    rw [Option.some.inj hj]
    exact hcopied

/-- Imports stay as they are from the pass over the program to the end. -/
private theorem Emission.agree
    (h : Emission force program s emitted s' overrides atlasChanged t c v)
    (hprogram : IsProgram mains s.toWorkspace program) (hs : t.toWorkspace.Current) (i : Nat) :
    Cache.Agree t.project.dir t.disk t.disk t.cache.clearFreshness v.cache i ∧
      Cache.Agree t.project.dir t.disk t.disk v.cache s'.cache i := by
  obtain ⟨hm, hv, -⟩ := h.delivered hprogram
  have hdir : v.project.dir = t.project.dir := hm.dir
  have hb := hs.walkable.clearFreshness
  refine ⟨⟨hb.known, fun name k hk => ?_, ?_, fun j hj _ => ?_⟩, ?_⟩
  · have hc := h.marked.base.find? hb.distinct hk
    exact Cache.Advances.find? hm.cache hc
  · rw [← h.marked.base.length]
    exact hm.cache.longer
  · rw [← (h.marked.base.walked j hj).imports]
    have hlasts := (Entry.lasts_of_delivering
      (hm.cache.old j (by rw [← h.marked.base.length] at hj; exact hj))).1
    exact Entry.imports_congr (congrArg _ hlasts.fullName) hlasts.infoTime hlasts.references
  · have hknown := hv.recorded.known
    rw [hdir] at hknown
    have htakes := h.takes.cache
    rw [hdir] at htakes
    refine Cache.Agree.of_advances hknown htakes fun _ _ hchain => ?_
    have hlasts := Entry.lasts_of_taking hchain
    exact ⟨hlasts.fullName, hlasts.infoTime, hlasts.references⟩

/-- The entry of a program file in the end was there before the pass. -/
private theorem Emission.found (h : Emission force program s emitted s' overrides atlasChanged t c v)
    (ht : t.toWorkspace.Current) (hprogram : IsProgram mains s.toWorkspace program) {file : String}
    {i : Nat} (hfile : file ∈ program) (hi : s'.cache.find? s'.project.dir file = some i) :
    v.cache.find? v.project.dir file = some i ∧
      t.cache.clearFreshness.find? t.project.dir file = some i := by
  obtain ⟨hm, -⟩ := h.delivered hprogram
  have hdir : v.project.dir = t.project.dir := hm.dir
  obtain ⟨deps, hl, -⟩ := hprogram.loaded file hfile
  obtain ⟨j, refs, hj, -⟩ := hl.of_advances h.writes.cache h.writes.dir
    fun _ _ hread => Entry.Read.lasts hread
  have hjb : t.cache.clearFreshness.find? t.project.dir file = some j := by
    rw [Cache.find?_clearFreshness]
    exact hj
  have hjv : v.cache.find? v.project.dir file = some j := by
    rw [hdir]
    exact Cache.Advances.find? hm.cache
      (h.marked.base.find? ht.walkable.clearFreshness.distinct hjb)
  have hsame := h.takes.cache.find? hjv
  rw [← h.takes.dir, hi] at hsame
  obtain rfl := Option.some.inj hsame
  exact ⟨hjv, hjb⟩

/-- What a program file leads to by the records before the pass was copied in the end, and its file has
one time all along. -/
private theorem Emission.copied_of_reaches
    (h : Emission force program s emitted s' overrides atlasChanged t c v)
    (ht : t.toWorkspace.Current) (hprogram : IsProgram s'.project.mains s.toWorkspace program)
    (hspelled : Spelled s'.project.mains s'.toWorkspace)
    (hread : ∀ source ∈ s'.project.depJs.keys, s'.CanRead source) {file : String} {i j : Nat}
    (hfile : file ∈ program) (hi : s'.cache.find? s'.project.dir file = some i)
    (hij : t.cache.clearFreshness.Reaches t.disk t.project.dir i j) :
    (s'.cache.entry j).Copied ∧ ∃ u, t.cache.clearFreshness.timeOf t.disk j = some u ∧
      s'.cache.timeOf t.disk j = some u := by
  obtain ⟨hm, hv, hprogramv, -⟩ := h.delivered hprogram
  obtain ⟨hiv, hib⟩ := h.found ht hprogram hfile hi
  have hlt := (Cache.find?_some hib).1
  have hdir : v.project.dir = t.project.dir := hm.dir
  have hdisk' : s'.disk = t.disk := h.takes.disk.trans hm.disk
  have hmains : s'.project.mains = v.project.mains := by
    unfold Project.mains
    rw [h.takes.config]
  have hjv := ((h.agree hprogram ht i).1.reaches_iff hlt).mpr hij
  have hsupplied : Supplied program v j := by
    refine supplied_of_reaches hv.toCurrent (by rw [← hmains]; exact hprogramv) ?_ hfile hiv
      (by rw [hdir, show v.disk = t.disk from hm.disk]; exact hjv)
    rw [← hmains]
    intro a b ha hb hlower
    have hmention : ∀ name, v.Mentions s'.project.mains name →
        s'.Mentions s'.project.mains name := fun name hn =>
      hn.imp_right fun ⟨f, deps, hl, hmem⟩ => ⟨f, deps, h.hasLoaded_end hl, hmem⟩
    rw [← h.takes.dir]
    exact hspelled a b (hmention a ha) (hmention b hb) hlower
  have hcopied := h.copied_of_supplied hprogram hread hsupplied
  refine ⟨hcopied, ?_⟩
  -- it was seen when it was copied, and what is seen is what there is
  obtain ⟨u, T, hcur, -⟩ := hcopied
  have hjlt := hij.lt_length hlt
  have hjltv := hjv.lt_length (Cache.find?_some hiv).1
  have hseen := (h.current hprogram).seen j
    (Nat.lt_of_lt_of_le hjltv h.takes.cache.longer)
  rw [hdisk'] at hseen
  have hmod : s'.cache.timeOf t.disk j = some u := by
    rcases hseen with hunset | hstamp
    · rw [hunset] at hcur
      exact absurd hcur (by simp)
    · rw [hstamp] at hcur
      exact Disk.stamp_eq_at.mp hcur
  refine ⟨u, ?_, hmod⟩
  have hname : (s'.cache.entry j).fullName = (t.cache.clearFreshness.entry j).fullName := by
    rw [(Entry.lasts_of_taking (h.takes.cache.old j hjltv)).fullName,
      (Entry.lasts_of_delivering (hm.cache.old j
        (by rw [← h.marked.base.length] at hjlt; exact hjlt))).1.fullName]
    exact (h.marked.base.walked j hjlt).fullName
  unfold Cache.timeOf at hmod ⊢
  rw [← hname]
  exact hmod

/-- The stamp of a program file covers what it leads to, where no circle is reached, the scripts can
be read, and the file itself is not taken over for a bundle. The mark of the pass is the newest time
of all that the file leads to, and the stamp is not older than the mark. -/
theorem Emission.covered (h : Emission force program s emitted s' overrides atlasChanged t c v)
    (ht : t.toWorkspace.Current) (hprogram : IsProgram s'.project.mains s.toWorkspace program)
    (hspelled : Spelled s'.project.mains s'.toWorkspace)
    (hread : ∀ source ∈ s'.project.depJs.keys, s'.CanRead source) {file : String} {i : Nat}
    (hfile : file ∈ program) (hi : s'.cache.find? s'.project.dir file = some i)
    (hcirc : s'.cache.Uncircled s'.disk s'.project.dir i)
    (hown : s'.project.config.bundle = .none ∨ ∀ source ∈ s'.project.depJs.keys,
      Cache.keyOf s'.project.dir source ≠ Cache.keyOf s'.project.dir file) :
    s'.cache.Covered s'.disk s'.project.dir i := by
  obtain ⟨hm, -, -, hdelivered⟩ := h.delivered hprogram
  have hdir' : s'.project.dir = t.project.dir := h.takes.dir.trans hm.dir
  have hdisk' : s'.disk = t.disk := h.takes.disk.trans hm.disk
  obtain ⟨hiv, hib⟩ := h.found ht hprogram hfile hi
  have hlt := (Cache.find?_some hib).1
  have hltv := (Cache.find?_some hiv).1
  obtain ⟨hagree, hagree'⟩ := h.agree hprogram ht i
  rw [hdir', hdisk'] at hcirc ⊢
  have hcircb : t.cache.clearFreshness.Uncircled t.disk t.project.dir i :=
    hagree.uncircled hlt (hagree'.uncircled hltv hcirc)
  have hcopied := fun j => h.copied_of_reaches (j := j) ht hprogram hspelled hread hfile hi
  -- the mark of the pass is the newest time
  obtain ⟨m, hmark⟩ : ∃ m, c.mark i = .at m := by
    refine h.marked.at_of_unbroken (h.set file hfile i ?_) fun j hij hbroken => ?_
    · rw [← Cache.find?_clearFreshness]
      exact hib
    · obtain ⟨-, u, hu, -⟩ := hcopied j hij
      rcases hbroken with hmissing | ⟨hfalse, -⟩
      · rw [hu] at hmissing
        exact absurd hmissing (by simp)
      · exact absurd hfalse (by simp)
  obtain ⟨-, hnewest⟩ := h.marked.isNewest hcircb hmark
  -- the stamp is not older than the mark
  obtain ⟨u, T, hcur, hout, hle, hmarks⟩ := hdelivered file hfile i hiv
  have hfresh : (v.cache.entry i).freshness = c.mark i :=
    (Entry.lasts_of_delivering (hm.cache.old i
      (by rw [← h.marked.base.length] at hlt; exact hlt))).2
  have hmT : m ≤ T := hmarks m (by rw [hfresh, hmark]; rfl)
  have hkept := (Entry.Copied.of_takes ⟨u, T, hcur, hout, hle⟩ (h.takes.cache.old i hltv)).2
  refine ⟨T, ?_, fun j hij => ?_⟩
  · rw [hkept, hout]
    rcases hown with hnone | hother
    · right
      change v.project.config.bundle = .none
      rw [← h.takes.config]
      exact hnone
    · left
      rintro ⟨source, hsource, hkey⟩
      refine hother source (h.takes.project.depJs source hsource) ?_
      rw [h.takes.dir, ← hkey, (Cache.find?_some hiv).2]
  · have hijb := (hagree.reaches_iff hlt).mp ((hagree'.reaches_iff hltv).mp hij)
    obtain ⟨⟨w, T', hcur', hout', -⟩, u', hu, hu'⟩ := hcopied j hijb
    obtain ⟨u'', hu'', hle''⟩ := hnewest j hijb
    rw [hu] at hu''
    refine ⟨⟨u', hu', ?_⟩, ?_⟩
    · rw [Option.some.inj hu'']
      exact Nat.le_trans hle'' hmT
    · rw [hout']
      rfl

end

end Session

end Bundler

/-
What is built again when a file is touched.

A cycle that wrote a program leaves it settled (`Session.Settled`): its files are covered by their
stamps, no circle of imports is reached, and names that are mentioned are one to loading exactly if they
are one to the cache. When a file is touched then, a cycle that ends without errors finds those entry
files stale that lead to it, and it writes those files of the program that lead to it, and no others
(`Session.Settled.rebuilds`).

Both passes of that cycle go over caches in which the touched file is newer than every stamp, the first
before anything was loaded again and the second after that (`Cache.Renewed`). Loading leaves records of
files as they are alone, so the imports are the same but for those of the touched file, and these are
the same again in the end.
-/
import Mathlib.Data.List.Nodup
import Bundler.Proofs.Built
import Bundler.Proofs.Descent
import Bundler.Proofs.Renewal

set_option autoImplicit false

namespace Bundler

open Workspace Step

/-! ## Touching a file -/

namespace Disk

variable {d : Disk} {path other : String} {t : Nat}

theorem modified?_touch_self (h : d.modified? path = some t) :
    (d.touch path).modified? path = some (d.clock + 1) := by
  unfold modified? at h
  obtain ⟨file, hfile, -⟩ := Option.map_eq_some_iff.mp h
  unfold touch
  simp only [hfile, modified?, OrderedMap.get?_insert, if_true, Option.map_some]

theorem modified?_touch_ne (hne : DiskPath.ofString path ≠ DiskPath.ofString other) :
    (d.touch path).modified? other = d.modified? other := by
  unfold touch
  simp only
  split
  · simp only [modified?, OrderedMap.get?_insert, if_neg hne]
  · rfl

end Disk

theorem Entry.Lasts.loads {N : String → Prop} {s : Surroundings} {e e' : Entry} (h : Lasts s e e')
    (hout : e'.outputTime = e.outputTime) : Loads N s e e' :=
  ⟨h.fullName, h.key, hout, h.seen, h.set, h.text,
    fun _ => ⟨h.script, h.sourceTime, h.diagnostics⟩, fun _ _ _ _ _ => ⟨h.infoTime, h.references⟩,
    fun _ => ⟨h.infoTime, h.references⟩⟩

theorem Entry.Lasts.imports {s : Surroundings} {disk : Disk} {e e' : Entry} (h : Lasts s e e') :
    e'.imports disk = e.imports disk :=
  imports_congr (congrArg _ h.fullName) h.infoTime h.references

/-- The frame of what happens before a program is written: it is more than loading, but does no more to
entries. -/
def Frame.keeping (N : String → Prop) : Frame where
  entry := Entry.Loads N
  project _ _ := True
  refl := Entry.Loads.refl N
  trans _ _ _ _ h h' := h.trans h'
  project_refl _ := trivial
  project_trans _ _ := trivial

theorem Frame.Moves.keeping {F : Frame} {N : String → Prop} {w w' : Workspace} (h : F.Moves w w')
    (hF : ∀ s e e', F.entry s e e' → Entry.Loads N s e e') : (Frame.keeping N).Moves w w' :=
  ⟨h.config, h.dir, h.destination, h.disk, trivial, h.cache.mono (hF _)⟩

namespace Session

/-- A session in which the file of an entry was touched. -/
def touched (s : Session) (k : Nat) : Session :=
  { s with disk := s.disk.touch (s.cache.entry k).fullName }

/-- The file of a name leads to an entry. -/
def LeadsOn (s : Session) (k : Nat) (name : String) : Prop :=
  ∃ i, s.cache.find? s.project.dir name = some i ∧ s.cache.Reaches s.disk s.project.dir i k

/-- A session with a program that was written, and nothing left to do. -/
structure Settled (program : List String) (s : Session) : Prop where
  running : s.Running
  calm : s.isForced = false
  listed : IsProgram s.project.mains s.toWorkspace program
  spelled : Spelled s.project.mains s.toWorkspace
  apart : ∀ a b, s.Mentions s.project.mains a → s.Mentions s.project.mains b →
    Cache.keyOf s.project.dir a = Cache.keyOf s.project.dir b → Text.lower a = Text.lower b
  uncircled : ∀ file ∈ program, ∀ i, s.cache.find? s.project.dir file = some i →
    s.cache.Uncircled s.disk s.project.dir i
  covered : ∀ file ∈ program, ∀ i, s.cache.find? s.project.dir file = some i →
    s.cache.Covered s.disk s.project.dir i

/-- Loading and checking does to entries what loading does, and each file of the program is led to. -/
theorem keeping_loadChecked {s t : Session} {program : List String} (hs : s.Running)
    (h : loadChecked s.project.mains s = .ok program t) :
    (Frame.keeping (Loadable s.project.mains)).Moves s.toWorkspace t.toWorkspace ∧
      ∀ file ∈ program, t.toWorkspace.LeadsTo s.project.mains file := by
  obtain ⟨s₁, ids, hload, hrun₁, -, hw, -, -⟩ := loadChecked_ok hs h
  have hadvanced := (loadProgram_ok hs.workspace.ready hload).1
  have hlast : (Frame.keeping (Loadable s.project.mains)).Moves s₁.toWorkspace t.toWorkspace := by
    rw [hw]
    exact ⟨rfl, rfl, hrun₁.workspace.destination, rfl, trivial,
      Cache.Advances.refl (Entry.Loads.refl _ _) _⟩
  refine ⟨(hadvanced.moves.keeping fun _ _ _ hchain => Entry.loads_of_chain hchain).trans hlast,
    fun file hfile => ?_⟩
  exact (loadProgram_leads hs.workspace.ready hload file hfile).of_advances hlast.surroundings
    hlast.cache hrun₁.workspace.seen

/-- What is selected is found by a pass of a running session. -/
theorem running_select {s t : Session} {force : Bool} {mains stale : List String} (hs : s.Running)
    (h : select s = .ok (force, mains, stale) t) :
    t.Running ∧ force = s.isForced ∧ mains = t.project.mains ∧
      Frame.marks.Moves s.begun.toWorkspace t.toWorkspace ∧
      t.force = s.begun.force ∧ t.configText = s.begun.configText := by
  obtain ⟨hforce, hmains, w, hstale, rfl⟩ := select_ok_iff.mp h
  have hmarks := Frame.moves_of_obeys (obeys_staleMains Frame.walking_marks _ _)
    hs.begun.workspace.destination hstale
  refine ⟨⟨hs.begun.workspace.of_marks hmarks, hs.begun.counted⟩, hforce, ?_, hmarks, rfl, rfl⟩
  rw [hmains]
  unfold Project.mains
  rw [hmarks.config]

theorem Emission.running {s s' t : Session} {c : Cache} {v : Workspace} {program emitted : List String}
    {force atlasChanged : Bool} {overrides : FileOverrides}
    (h : Emission force program s emitted s' overrides atlasChanged t c v) (hs : s.Running) :
    t.Running := by
  have hlaw := running_prepare hs program
  rw [h.prepared] at hlaw
  exact hlaw hs

/-- Imports stay as they are while a prepared program is written. -/
theorem Emission.imports {s s' t : Session} {c : Cache} {v : Workspace}
    {mains program emitted : List String} {force atlasChanged : Bool} {overrides : FileOverrides}
    (h : Emission force program s emitted s' overrides atlasChanged t c v)
    (hprogram : IsProgram mains s.toWorkspace program) {i : Nat} (hi : i < t.cache.entries.length) :
    (s'.cache.entry i).imports s'.disk = (t.cache.entry i).imports t.disk := by
  obtain ⟨hdelivers, -⟩ := h.delivered hprogram
  have hc : i < c.entries.length := Nat.lt_of_lt_of_le hi h.marks.cache.longer
  have hv : i < v.cache.entries.length := Nat.lt_of_lt_of_le hc hdelivers.cache.longer
  have hdisk : s'.disk = t.disk := h.takes.disk.trans hdelivers.disk
  rw [hdisk, (Entry.lasts_of_taking (h.takes.cache.old i hv)).imports,
    (Entry.lasts_of_delivering (hdelivers.cache.old i hc)).1.imports]
  exact (Entry.lasts_of_marking (h.marks.cache.old i hi)).1.imports

/-- Without sprites to merge there is no atlas that could change. -/
theorem atlasChanged_of_prepare {s t : Session} {program : List String} {overrides : FileOverrides}
    {atlasChanged : Bool} (hmerge : s.project.config.spriteMerge = false)
    (h : prepare program s = .ok (overrides, atlasChanged) t) : atlasChanged = false := by
  have hL : Looking Frame.reading.law := Frame.looking_reading
  unfold prepare at h
  obtain ⟨o, s₁, hfirst, h⟩ := (bind_ok_iff _ _ _ _ _).mp h
  obtain ⟨u, s₂, hatlas, h⟩ := (bind_ok_iff _ _ _ _ _).mp h
  obtain ⟨u', s₃, hcollect, h⟩ := (bind_ok_iff _ _ _ _ _).mp h
  obtain ⟨changed, s₄, hbuild, h⟩ := (bind_ok_iff _ _ _ _ _).mp h
  obtain ⟨u'', s₅, -, h⟩ := (bind_ok_iff _ _ _ _ _).mp h
  obtain ⟨hanswer, -⟩ := (pure_ok_iff _ _ _ _).mp h
  have hconfig₁ := ((obeys_liftWorkspace (obeys_prepareOverrides hL program)).ok hfirst).1.1
  obtain ⟨w₂, hw₂, rfl⟩ := (liftWorkspace_ok_iff _ _ _ _).mp hatlas
  have hconfig₂ : w₂.project.config = s₁.project.config := by
    rw [← (modify_ok_iff _ _ _ _).mp hw₂]
    dsimp only
    split <;> rfl
  have hconfig₃ := ((obeys_collectProgram hL program).ok hcollect).1.1
  have hnone : s₃.project.config.spriteMerge = false := by
    rw [hconfig₃]
    change w₂.project.config.spriteMerge = false
    rw [hconfig₂, hconfig₁]
    exact hmerge
  -- no step before it has changed the configuration, so the atlas is not built
  obtain ⟨w₄, hw₄, rfl⟩ := (liftWorkspace_ok_iff _ _ _ _).mp hbuild
  unfold buildAtlas at hw₄
  obtain ⟨v, v', hget, hw₄⟩ := (bind_ok_iff _ _ _ _ _).mp hw₄
  obtain ⟨rfl, rfl⟩ := (get_ok_iff _ _ _).mp hget
  simp only [hnone, Bool.not_false, Bool.true_or, if_true] at hw₄
  obtain ⟨rfl, -⟩ := (pure_ok_iff _ _ _ _).mp hw₄
  exact (congrArg Prod.snd hanswer).symm

namespace Settled

variable {s : Session} {program : List String} {i j k : Nat} {file name : String}

theorem known (h : s.Settled program) (hfile : file ∈ program) :
    ∃ i, s.cache.find? s.project.dir file = some i := by
  obtain ⟨deps, ⟨i, refs, hi, -⟩, -⟩ := h.listed.loaded file hfile
  exact ⟨i, hi⟩

/-- The entry of an entry file is that of a file of the program. -/
theorem main_listed (h : s.Settled program) (hmain : name ∈ s.project.mains) :
    ∃ file ∈ program, ∃ i, s.cache.find? s.project.dir name = some i ∧
      s.cache.find? s.project.dir file = some i := by
  obtain ⟨file, hfile, hlower⟩ := List.mem_map.mp (h.listed.mains name hmain)
  obtain ⟨i, hi⟩ := h.known hfile
  refine ⟨file, hfile, i, ?_, hi⟩
  rw [Cache.find?_congr (h.spelled name file (.inl hmain) (h.listed.mentioned file hfile) hlower.symm)]
  exact hi

/-- What the program leads to is of the program, or is never loaded. -/
theorem reached (h : s.Settled program) (hfile : file ∈ program)
    (hi : s.cache.find? s.project.dir file = some i)
    (hij : s.cache.Reaches s.disk s.project.dir i j) :
    (∃ f ∈ program, s.cache.find? s.project.dir f = some j) ∨
      ∀ name, Loadable s.project.mains name → Cache.keyOf s.project.dir name ≠ (s.cache.entry j).key := by
  rcases supplied_of_reaches h.running.workspace h.listed h.spelled hfile hi hij with
    hlisted | ⟨source, -, hscript, hfind⟩
  · exact .inl hlisted
  · by_cases hmain : ∃ main ∈ s.project.mains,
        Cache.keyOf s.project.dir main = (s.cache.entry j).key
    · obtain ⟨main, hmem, hkey⟩ := hmain
      obtain ⟨f, hf, l, hl, hfl⟩ := h.main_listed hmem
      have hsame : l = j := h.running.workspace.distinct l j (Cache.find?_some hl).1
        (Cache.find?_some hfind).1 ((Cache.find?_some hl).2.trans hkey)
      exact .inl ⟨f, hf, hsame ▸ hfl⟩
    · refine .inr fun name hname hkey => ?_
      rcases hname with hname | hname
      · exact hmain ⟨name, hname, hkey⟩
      · exact Path.keyOf_ne_of_isSourceName hname hscript (hkey.trans (Cache.find?_some hfind).2)

/-- What is imported by something that the program leads to is a name that is mentioned. -/
theorem mentions_of_imports (h : s.Settled program) (hfile : file ∈ program)
    (hi : s.cache.find? s.project.dir file = some i)
    (hij : s.cache.Reaches s.disk s.project.dir i j)
    (hname : name ∈ (s.cache.entry j).imports s.disk) : s.Mentions s.project.mains name := by
  have hj := hij.lt_length (Cache.find?_some hi).1
  rcases h.reached hfile hi hij with ⟨f, hf, hfj⟩ | hnever
  · obtain ⟨deps, hl, -⟩ := h.listed.loaded f hf
    obtain ⟨j', refs, hj', hloaded, hrefs, hdeps⟩ := id hl
    rw [hfj] at hj'
    obtain rfl := Option.some.inj hj'
    rw [hloaded.imports (h.running.workspace.seen j hj) hrefs, hdeps] at hname
    exact .inr ⟨f, deps, hl, hname⟩
  · -- what is never loaded has no record
    obtain ⟨t, refs, hmod, hinfo, hrefs, -⟩ := Entry.mem_imports_iff.mp hname
    obtain ⟨-, name', script, deps, p, hname', hkey, -⟩ :=
      (h.running.workspace.fits j hj).info t refs hinfo hrefs hmod
    exact absurd hkey.symm (hnever name' hname')

/-! ## The caches of the two passes -/

section

variable {c : Cache} {t : Nat}

/-- Once something was loaded, the touched file is newer than all stamps, and apart from that the
imports of all that the program leads to are as they were. -/
theorem renewed (h : s.Settled program) (hk : k < s.cache.entries.length)
    (hthere : s.cache.timeOf s.disk k = some t)
    (hcache : Cache.Advances s.project.dir
      (Entry.Loads (Loadable s.project.mains) (s.touched k).surroundings) s.cache.clearProbes c)
    (hfewer : ∀ name ∈ (c.entry k).imports (s.touched k).disk,
      name ∈ (s.cache.entry k).imports s.disk)
    (hfile : file ∈ program) (hi : s.cache.find? s.project.dir file = some i) :
    Cache.Renewed s.project.dir s.disk (s.touched k).disk s.cache c.clearFreshness k i := by
  have hw := h.running.workspace
  have hlen : s.cache.entries.length ≤ c.entries.length := by
    have hlonger := hcache.longer
    rwa [Cache.length_clearProbes] at hlonger
  have hold : ∀ j, j < s.cache.entries.length →
      Entry.Loads (Loadable s.project.mains) (s.touched k).surroundings
        { s.cache.entry j with current := .unset } (c.entry j) := by
    intro j hj
    rw [← Cache.entry_clearProbes hj]
    exact hcache.old j (by rw [Cache.length_clearProbes]; exact hj)
  have hentry : ∀ j, j < s.cache.entries.length →
      c.clearFreshness.entry j = { c.entry j with freshness := .unset } := fun j hj =>
    Cache.entry_clearFreshness (Nat.lt_of_lt_of_le hj hlen)
  have hname : ∀ j, j < s.cache.entries.length →
      (c.entry j).fullName = (s.cache.entry j).fullName := fun j hj => (hold j hj).fullName
  have hmod : ∀ j, j < s.cache.entries.length → j ≠ k →
      (s.touched k).disk.modified? (s.cache.entry j).fullName
        = s.disk.modified? (s.cache.entry j).fullName := fun j hj hjk =>
    Disk.modified?_touch_ne fun heq =>
      hjk (hw.named.ofString_injective hw.distinct hk hj heq).symm
  refine ⟨hw.recorded.known, fun name j hfind => ?_, by simpa using hlen, fun j hij hjk => ?_,
    fun name hmem => ?_, fun j hj hjk => ?_, ⟨s.disk.clock + 1, ?_, fun j hj T hT => ?_⟩,
    fun j hj => ?_⟩
  · rw [Cache.find?_clearFreshness]
    exact hcache.find? (by rw [Cache.find?_clearProbes]; exact hfind)
  · have hj := hij.lt_length (Cache.find?_some hi).1
    -- the record of a loaded file is of the file as it is, any other one is never made anew
    obtain ⟨hinfo, hrefs⟩ : (c.entry j).infoTime = (s.cache.entry j).infoTime ∧
        (c.entry j).references = (s.cache.entry j).references := by
      rcases h.reached hfile hi hij with ⟨f, hf, hfj⟩ | hnever
      · obtain ⟨deps, hl, -⟩ := h.listed.loaded f hf
        obtain ⟨script, refs, t, hloaded, -, hrefs, -, hcur, hmod'⟩ :=
          entry_of_hasLoaded hw hfj hl
        obtain ⟨-, hinfo, -⟩ := Entry.isInfoCurrent_iff.mp hloaded.info
        exact (hold j hj).info (.inl rfl) t ((hmod j hj hjk).trans hmod') (hinfo.trans hcur)
          (by rw [hrefs]; rfl)
      · exact (hold j hj).other hnever
    rw [hentry j hj]
    exact Entry.imports_congr (by rw [hname j hj]; exact hmod j hj hjk) hinfo hrefs
  · rw [hentry k hk] at hmem
    exact hfewer name hmem
  · unfold Cache.timeOf
    rw [hentry j hj]
    exact (congrArg _ (hname j hj)).trans (hmod j hj hjk)
  · unfold Cache.timeOf
    rw [hentry k hk]
    exact (congrArg _ (hname k hk)).trans (Disk.modified?_touch_self hthere)
  · exact Nat.lt_succ_of_le (hw.stamped j hj T hT)
  · rw [hentry j hj]
    exact (hold j hj).outputTime

/-- What is led to when something was loaded is mentioned, and reached by the program. -/
theorem mentions_of_leadsTo (h : s.Settled program) {w : Workspace}
    (hdir : w.project.dir = s.project.dir)
    (hrenewed : ∀ file ∈ program, ∀ i, s.cache.find? s.project.dir file = some i →
      Cache.Renewed s.project.dir s.disk w.disk s.cache w.cache k i)
    (hled : w.LeadsTo s.project.mains name) : s.Mentions s.project.mains name ∧
      ∃ file ∈ program, ∃ i j, s.cache.find? s.project.dir file = some i ∧
        s.cache.find? s.project.dir name = some j ∧
        s.cache.Reaches s.disk s.project.dir i j := by
  induction hled with
  | main hmain =>
    obtain ⟨file, hfile, i, hi, hfi⟩ := h.main_listed hmain
    exact ⟨.inl hmain, file, hfile, i, i, hfi, hi, .refl⟩
  | @down other name l _ hfind hname ih =>
    obtain ⟨-, file, hfile, i, j, hi, hj, hij⟩ := ih
    have hr := hrenewed file hfile i hi
    rw [hdir, hr.found other j hj] at hfind
    obtain rfl := Option.some.inj hfind
    have hlt := hij.lt_length (Cache.find?_some hi).1
    -- an import that is found now was there before, also in the file that was touched
    have hold : name ∈ (s.cache.entry j).imports s.disk := by
      by_cases hjk : j = k
      · rw [hjk] at hname ⊢
        exact hr.fewer name hname
      · rw [← hr.imports j hij hjk]
        exact hname
    obtain ⟨refs, hrefs, hmem⟩ := Cache.mem_files_of_mem_imports hold
    obtain ⟨m, hm⟩ := h.running.workspace.recorded.known j hlt refs hrefs name hmem
    exact ⟨h.mentions_of_imports hfile hi hij hold, file, hfile, i, m, hi, hm,
      hij.tail ⟨hlt, name, hold, hm⟩⟩

end

/-! ## The cycle after the touch -/

theorem running_touched (h : s.Settled program) : (s.touched k).clearProbes.Running :=
  Sound.clearProbes ⟨h.running.workspace.toConsistent.of_changes (Disk.changes_touch _ _),
    h.running.counted⟩

theorem leadsOn_iff (hfind : s.cache.find? s.project.dir name = some i) :
    s.LeadsOn k name ↔ s.cache.Reaches s.disk s.project.dir i k := by
  constructor
  · rintro ⟨j, hj, hjk⟩
    rw [hfind] at hj
    rw [Option.some.inj hj]
    exact hjk
  · exact fun hik => ⟨i, hfind, hik⟩

open scoped Classical in
/-- A pass finds those names of files of the program out of date that lead to the touched file. -/
theorem outdated_eq (h : s.Settled program) {disk : Disk} {b c : Cache} {ignore : Bool}
    (hrenewed : Cache.Renewed s.project.dir s.disk disk s.cache b k i) (hfile : file ∈ program)
    (hfi : s.cache.find? s.project.dir file = some i)
    (hname : s.cache.find? s.project.dir name = some i)
    (hmarked : Cache.Marked disk s.project.dir ignore b c) (hset : c.mark i ≠ .unset) :
    (!(c.entry i).isOutputCurrent) = decide (s.LeadsOn k name) := by
  have hcurrent := hrenewed.isOutputCurrent_iff (Cache.find?_some hfi).1 (h.covered file hfile i hfi)
    (h.uncircled file hfile i hfi) hmarked hset
  by_cases hik : s.cache.Reaches s.disk s.project.dir i k
  · have hstale : (c.entry i).isOutputCurrent = false := by
      by_contra hne
      exact hcurrent.mp (by simpa using hne) hik
    simp [hstale, leadsOn_iff hname, hik]
  · simp [hcurrent.mpr hik, leadsOn_iff hname, hik]

open scoped Classical in
/-- The cycle finds those entry files stale that lead to the touched file. -/
theorem selects (h : s.Settled program) (hk : k < s.cache.entries.length) {t : Nat}
    (hthere : s.cache.timeOf s.disk k = some t) {force : Bool} {mains stale : List String}
    {s₁ : Session} (hselect : select (s.touched k).clearProbes = .ok (force, mains, stale) s₁) :
    force = false ∧ mains = s.project.mains ∧
      stale = s.project.mains.filter (fun main => s.LeadsOn k main) ∧ s₁.Running ∧
      (Frame.keeping (Loadable s.project.mains)).Moves (s.touched k).clearProbes.begun.toWorkspace
        s₁.toWorkspace := by
  let u : Session := (s.touched k).clearProbes
  have hcalm : u.isForced = false := h.calm
  have hrun : u.begun.Running := h.running_touched.begun
  have hmains : u.begun.project.mains = s.project.mains := begun_mains u
  have hcache : u.begun.cache = s.cache.clearProbes := begun_cache_of_not_forced hcalm
  have hdir : u.begun.project.dir = s.project.dir := begun_dir u
  have hdisk : u.begun.disk = (s.touched k).disk := begun_disk u
  obtain ⟨hrun₁, -, -, hmarks, -, -⟩ := running_select h.running_touched hselect
  obtain ⟨hforce, hmains', w, hstale, -⟩ := select_ok_iff.mp hselect
  refine ⟨hforce.trans hcalm, hmains'.trans hmains, ?_, hrun₁, hmarks.keeping fun _ _ _ hchain =>
    (Entry.lasts_of_marking hchain).1.loads (Entry.lasts_of_marking hchain).2⟩
  obtain ⟨c, hpass, hmarked, hset⟩ := staleMains_ok hrun.workspace.walkable
    fun main (hmain : main ∈ s.project.mains) => by
      obtain ⟨-, -, i, hi, -⟩ := h.main_listed hmain
      exact ⟨i, by rw [hcache, hdir, Cache.find?_clearProbes]; exact hi⟩
  have hanswer : stale
      = s.project.mains.filter fun main => !isCurrent u.begun.project.dir c main := by
    have hstale' : staleMains false s.project.mains u.begun.toWorkspace = .ok stale w := by
      rw [← hcalm, ← hmains]
      exact hstale
    rw [hpass] at hstale'
    cases hstale'
    rfl
  rw [hanswer]
  refine List.filter_congr fun main hmain => ?_
  obtain ⟨file, hfile, i, hi, hfi⟩ := h.main_listed hmain
  have hi' : u.begun.cache.find? u.begun.project.dir main = some i := by
    rw [hcache, hdir, Cache.find?_clearProbes]
    exact hi
  -- what is recorded of the touched file is of an earlier time
  have hfewer : ∀ name ∈ (s.cache.clearProbes.entry k).imports (s.touched k).disk,
      name ∈ (s.cache.entry k).imports s.disk := by
    intro name hname
    obtain ⟨t', refs, hmod, hinfo, -⟩ := Entry.mem_imports_iff.mp hname
    rw [Cache.entry_clearProbes hk] at hmod hinfo
    have hlate : (s.touched k).disk.modified? (s.cache.entry k).fullName = some (s.disk.clock + 1) :=
      Disk.modified?_touch_self hthere
    have hearly := (h.running.workspace.fits k hk).infoTime t' hinfo
    have hsame := Option.some.inj (hlate.symm.trans hmod)
    change t' ≤ s.disk.clock at hearly
    omega
  have hrenewed := h.renewed hk hthere (Cache.Advances.refl (Entry.Loads.refl _ _) _) hfewer hfile hfi
  rw [hcache, hdir, hdisk] at hmarked
  have hfound : c.find? u.begun.project.dir main = some i := by
    rw [hdir]
    refine hmarked.base.find? ?_ (by rw [Cache.find?_clearFreshness, Cache.find?_clearProbes]; exact hi)
    have hwalk := hrun.workspace.walkable.clearFreshness.distinct
    rwa [hcache] at hwalk
  unfold isCurrent
  rw [hfound, Option.any_some]
  exact h.outdated_eq hrenewed hfile hfi hi hmarked (hset main hmain i hi')

/-- Where the cycle has done no more than load, entries have become what loading makes of them. -/
theorem advances_of_moves (h : s.Settled program) {w : Workspace}
    (hmoves : (Frame.keeping (Loadable s.project.mains)).Moves
      (s.touched k).clearProbes.begun.toWorkspace w) :
    w.project.dir = s.project.dir ∧ w.disk = (s.touched k).disk ∧
      Cache.Advances s.project.dir
        (Entry.Loads (Loadable s.project.mains) (s.touched k).surroundings) s.cache.clearProbes
        w.cache := by
  let u : Session := (s.touched k).clearProbes
  have hsame : u.begun.surroundings = (s.touched k).surroundings := by
    unfold Workspace.surroundings
    rw [begun_disk, begun_config, begun_dir]
    rfl
  have hcache : u.begun.cache = s.cache.clearProbes := begun_cache_of_not_forced h.calm
  refine ⟨hmoves.dir.trans (begun_dir u), hmoves.disk.trans (begun_disk u), ?_⟩
  have hadvances : Cache.Advances u.begun.project.dir
      (Entry.Loads (Loadable s.project.mains) u.begun.surroundings) u.begun.cache w.cache :=
    hmoves.cache
  rw [hsame, begun_dir, hcache] at hadvances
  exact hadvances

open scoped Classical in
/-- The cycle writes those files of the program that lead to the touched file. -/
theorem writes (h : s.Settled program) (hmerge : s.project.config.spriteMerge = false)
    (hk : k < s.cache.entries.length) {t : Nat} (hthere : s.cache.timeOf s.disk k = some t)
    {s₁ s₂ s₃ : Session} {loaded emitted : List String} (hs₁ : s₁.Running)
    (hmoves : (Frame.keeping (Loadable s.project.mains)).Moves
      (s.touched k).clearProbes.begun.toWorkspace s₁.toWorkspace)
    (hload : loadChecked s.project.mains s₁ = .ok loaded s₂)
    (herrors : s₂.messages.hasErrors = false) (hemit : emitAll false loaded s₂ = .ok emitted s₃)
    (himports : (s₃.cache.entry k).imports s₃.disk = (s.cache.entry k).imports s.disk) :
    emitted = loaded.filter fun file => isWritten file && decide (s.LeadsOn k file) := by
  have hmains : s₁.project.mains = s.project.mains := by
    unfold Project.mains
    rw [hmoves.config, begun_config]
    rfl
  rw [← hmains] at hload
  obtain ⟨hs₂, hprogram⟩ := isProgram_of_loadChecked hs₁ hload herrors
  obtain ⟨hmoves₂, hleads⟩ := keeping_loadChecked hs₁ hload
  rw [hmains] at hprogram hmoves₂ hleads
  obtain ⟨overrides, atlasChanged, p, c, v, hemission⟩ := emitAll_ok hs₂
    (fun file hfile => (hprogram.loaded file hfile).imp fun _ hl => hl.1) hemit
  -- from the touch to the second pass
  have hwrites := hemission.writes.keeping (N := Loadable s.project.mains)
    fun _ _ _ hread => hread.loads _
  obtain ⟨hdir, hdisk, hcache⟩ := h.advances_of_moves ((hmoves.trans hmoves₂).trans hwrites)
  have hlen : s.cache.entries.length ≤ p.cache.entries.length := by
    have hlonger := hcache.longer
    rwa [Cache.length_clearProbes] at hlonger
  have hrenewed : ∀ file ∈ program, ∀ i, s.cache.find? s.project.dir file = some i →
      Cache.Renewed s.project.dir s.disk p.disk s.cache p.cache.clearFreshness k i := by
    intro file hfile i hi
    rw [hdisk]
    refine h.renewed hk hthere hcache (fun name hname => ?_) hfile hi
    rw [← himports, hemission.imports hprogram (Nat.lt_of_lt_of_le hk hlen), hdisk]
    exact hname
  -- each file that was loaded is one of the first program
  have hknown : ∀ file ∈ loaded, s.Mentions s.project.mains file ∧
      ∃ own ∈ program, ∃ i j, s.cache.find? s.project.dir own = some i ∧
        s.cache.find? s.project.dir file = some j ∧
        s.cache.Reaches s.disk s.project.dir i j := fun file hfile =>
    h.mentions_of_leadsTo (w := { p.toWorkspace with cache := p.cache.clearFreshness }) hdir hrenewed
      (((hleads file hfile).of_advances hwrites.surroundings hwrites.cache
        hs₂.workspace.seen).of_advances (N := Loadable s.project.mains) rfl
          (Cache.Advances.mapEntries (fun _ => rfl) fun e => (Entry.Marking.mark e _).lasts.loads rfl)
          (hemission.running hs₂).workspace.seen)
  have hone : (loaded.map (Cache.keyOf s.project.dir)).Nodup :=
    List.Nodup.map_on (fun a ha b hb heq => List.inj_on_of_nodup_map hprogram.listed ha hb
      (h.apart a b (hknown a ha).1 (hknown b hb).1 heq)) (List.Nodup.of_map _ hprogram.listed)
  rw [emitProgram_written hemission.deliverable (fun file hfile => by
    obtain ⟨deps, hl, -⟩ := hprogram.loaded file hfile
    exact ⟨deps, hemission.hasLoaded hl⟩) (by rw [← hdir] at hone; exact hone) hemission.emits]
  refine List.filter_congr fun file hfile => ?_
  obtain ⟨-, own, hown, i, j, hi, hj, hij⟩ := hknown file hfile
  obtain ⟨f, hf, hfj⟩ : ∃ f ∈ program, s.cache.find? s.project.dir f = some j := by
    rcases h.reached hown hi hij with hlisted | hnever
    · exact hlisted
    · exact absurd (Cache.find?_some hj).2.symm (hnever file (hprogram.loadable file hfile))
  have hjp : p.cache.find? p.project.dir file = some j := by
    rw [hdir]
    exact hcache.find? (by rw [Cache.find?_clearProbes]; exact hj)
  have hmarked := hemission.marked
  rw [hdir] at hmarked
  have houtdated := h.outdated_eq (hrenewed f hf j hfj) hf hfj hj hmarked
    (hemission.set file hfile j hjp)
  have hfound : c.find? p.project.dir file = some j := hemission.marks.cache.find? hjp
  have hatlas : atlasChanged = false := atlasChanged_of_prepare
    (by rw [hmoves₂.config, hmoves.config, begun_config]; exact hmerge) hemission.prepared
  unfold isDueIn
  rw [hfound, Option.any_some, hatlas]
  simp [needsEmit, houtdated]

open scoped Classical in
/-- When the file of an entry was touched in a settled session, a cycle that ends without errors finds
those entry files stale that lead to it, and writes those files of the program that lead to it. What the
touched file imports has to be what it imported before, where it is read again. -/
theorem rebuilds (h : s.Settled program) (hmerge : s.project.config.spriteMerge = false)
    (hk : k < s.cache.entries.length) {t : Nat} (hthere : s.cache.timeOf s.disk k = some t)
    {s' : Session} {r : CycleReport} (hrun : cycle (s.touched k) = .ok r s') (herrors : r.errors = 0)
    (himports : r.stale ≠ [] →
      (s'.cache.entry k).imports s'.disk = (s.cache.entry k).imports s.disk) :
    r.stale = s.project.mains.filter (fun main => s.LeadsOn k main) ∧
      r.emitted = ((s.touched k).clearProbes.loads?.getD []).filter fun file =>
        isWritten file && decide (s.LeadsOn k file) := by
  rw [cycle_eq] at hrun
  cases compile_ok_iff.mp hrun with
  | idle hselect =>
    obtain ⟨-, -, hstale, -, -⟩ := h.selects hk hthere hselect
    rw [loads?_of_idle hselect]
    exact ⟨hstale, rfl⟩
  | blocked hselect hne hload hblocked =>
    unfold Messages.hasErrors at hblocked
    exact absurd herrors (Nat.ne_of_gt (by simpa using hblocked))
  | @built force mains stale loaded emitted s₁ s₂ s₃ hselect hne hload hfree hemit =>
    obtain ⟨rfl, rfl, hstale, hs₁, hmoves⟩ := h.selects hk hthere hselect
    rw [loads?_of_stale hselect hne hload]
    refine ⟨hstale, h.writes hmerge hk hthere hs₁ hmoves hload hfree hemit ?_⟩
    rw [← himports hne]
    unfold counted
    split <;> rfl

end Settled

/-! ## The cycle before the touch -/

/-- Whether everything is built anew is a matter of the request and of the configuration. -/
private theorem isForced_congr {s t : Session} (hforce : t.force = s.force)
    (htext : t.configText = s.configText) (hconfig : t.project.config = s.project.config) :
    t.isForced = s.isForced := by
  unfold isForced
  rw [hforce, htext, hconfig]

/-- Where a cycle has begun, nothing is to be built anew in the next one. -/
private theorem begun_calm (s : Session) : s.begun.isForced = false := by
  have hforce : s.begun.force = false := by
    unfold begun
    cases s.isForced <;> rfl
  have htext : s.begun.configText = some s.project.config.toJson := by
    unfold begun
    cases s.isForced <;> rfl
  unfold isForced
  rw [hforce, htext, begun_config]
  simp

/-- A cycle that loads a program and ends without errors leaves the program settled, if it is written
without a bundle, names are one to loading exactly if they are one to the cache, no circle is reached,
and the scripts that are taken over can be read. -/
theorem settled_of_cycle {s s' : Session} {r : CycleReport} {program : List String} (hs : s.Sound)
    (hrun : cycle s = .ok r s') (herrors : r.errors = 0)
    (hloads : s.clearProbes.loads? = some program) (hbundle : s'.project.config.bundle = .none)
    (hspelled : Spelled s'.project.mains s'.toWorkspace)
    (hapart : ∀ a b, s'.Mentions s'.project.mains a → s'.Mentions s'.project.mains b →
      Cache.keyOf s'.project.dir a = Cache.keyOf s'.project.dir b → Text.lower a = Text.lower b)
    (hcirc : ∀ file ∈ program, ∀ i, s'.cache.find? s'.project.dir file = some i →
      s'.cache.Uncircled s'.disk s'.project.dir i)
    (hread : ∀ source ∈ s'.project.depJs.keys, s'.CanRead source) : s'.Settled program := by
  have hrunning : s'.Running := by
    have hlaw := running_compile hs.clearProbes
    rw [← cycle_eq, hrun] at hlaw
    exact hlaw hs.clearProbes
  rw [cycle_eq] at hrun
  cases compile_ok_iff.mp hrun with
  | idle hselect => simp [loads?_of_idle hselect] at hloads
  | blocked hselect hne hload hblocked =>
    unfold Messages.hasErrors at hblocked
    exact absurd herrors (Nat.ne_of_gt (by simpa using hblocked))
  | @built force mains stale loaded emitted s₁ s₂ s₃ hselect hne hload hfree hemit =>
    rw [loads?_of_stale hselect hne hload] at hloads
    cases hloads
    -- what is counted at the end is not looked at, so the end is that of the writing
    have hcounted : s₃.counted = { s₃ with liveReloadIndex := s₃.liveReloadIndex + 1 } := by
      have hnone : ¬ s₃.messages.hasErrors = true := by
        unfold Messages.hasErrors
        simpa using herrors
      unfold counted
      rw [if_neg hnone]
    rw [hcounted] at hrunning hbundle hspelled hapart hcirc hread ⊢
    obtain ⟨hrun₁, -, hmains₁, hmarks, hforce₁, htext₁⟩ := running_select hs.clearProbes hselect
    rw [hmains₁] at hload
    obtain ⟨hrun₂, hprogram⟩ := isProgram_of_loadChecked hrun₁ hload hfree
    obtain ⟨-, -, -, -, -, -, hkeeps₂, -⟩ := loadChecked_ok hrun₁ hload
    obtain ⟨hmoves₂, -⟩ := keeping_loadChecked hrun₁ hload
    obtain ⟨overrides, atlasChanged, p, c, v, hemission⟩ := emitAll_ok hrun₂
      (fun file hfile => (hprogram.loaded file hfile).imp fun _ hl => hl.1) hemit
    obtain ⟨hdelivers, -, hwritten, -⟩ := hemission.delivered hprogram
    -- the configuration and the request are those with which the cycle began
    have hprepared := (obeys_prepare Frame.writing_writes Frame.placing_writes program).ok hemission.prepared
    have hconfig₃ : s₃.project.config = s₁.project.config :=
      ((hemission.takes.config.trans hdelivers.config).trans hemission.writes.config).trans
        hmoves₂.config
    have hkeeps := (hkeeps₂.trans hprepared.2).trans hemission.keeps.1
    have hmains₃ : s₃.project.mains = s₁.project.mains := by
      unfold Project.mains
      rw [hconfig₃]
    refine ⟨hrunning, ?_, ?_, hspelled, hapart, hcirc, fun file hfile i hi => ?_⟩
    · exact (isForced_congr (hkeeps.force.trans hforce₁) (hkeeps.configText.trans htext₁)
        (hconfig₃.trans hmarks.config)).trans (begun_calm _)
    · rw [← hmains₃] at hwritten
      exact hwritten.of_loaded fun f deps hl => (hemission.hasLoaded_end hl).congr rfl rfl
    · rw [← hmains₃] at hprogram
      exact hemission.covered (hemission.running hrun₂).workspace hprogram hspelled hread hfile hi
        (hcirc file hfile i hi) (.inl hbundle)

end Session

end Bundler

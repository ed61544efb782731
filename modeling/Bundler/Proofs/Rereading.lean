/-
What is kept of a file and what would be read of it.

A session keeps texts, bytes and scripts from one cycle to the next, under all the settings that its
project goes through. Two facts about an entry make a text that is kept as good as one that is read:
it is that of the file wherever its time is the time of the file, and it can still be read there.
References are not among these facts. They were gathered under the settings of their cycle, so the
facts are stated of the entry without the time of its references (`Entry.Rereadable`), as it is when
everything is to be built anew.

All that a build does to an entry keeps it rereadable, whatever the settings are, and so do changes of
the disk under which what can be read stays readable. So all entries are rereadable in whatever a
session can come to (`Session.Lived.rereadable`).
-/
import Bundler.Proofs.Watches

set_option autoImplicit false

namespace Bundler

open Workspace Step

namespace Entry

variable {N : String → Prop} {s : Surroundings} {e e' : Entry} {disk : Disk}

/-- An entry without the time of its references. -/
def unrecorded (e : Entry) : Entry := { e with infoTime := .unset }

/-- Bytes with the time of the file can be read there. -/
def Graspable (disk : Disk) (e : Entry) : Prop :=
  ∀ t bytes, e.bufferTime = .at t → e.buffer = some bytes → disk.modified? e.fullName = some t →
    disk.read? e.fullName = some bytes

/-- What is kept of a file, references apart, is what would be read of it, or can be seen to be out
of date. -/
structure Rereadable (N : String → Prop) (s : Surroundings) (e : Entry) : Prop where
  faithful : e.unrecorded.Faithful N s
  legible : e.Legible s.disk
  graspable : e.Graspable s.disk

theorem Rereadable.blank (N : String → Prop) (s : Surroundings) (fullName key : String) :
    (Entry.blank fullName key).Rereadable N s :=
  ⟨Faithful.blank N s fullName key, Legible.blank s.disk fullName key,
    fun _ _ ht => absurd ht (by simp [Entry.blank])⟩

/-! ## Bytes -/

theorem Graspable.congr (h : e.Graspable disk) (hname : e'.fullName = e.fullName)
    (hbuffer : e'.buffer = e.buffer) (htime : e'.bufferTime = e.bufferTime) :
    e'.Graspable disk := by
  unfold Graspable
  rw [hname, hbuffer, htime]
  exact h

private theorem Graspable.withBuffer (h : e.Graspable disk) :
    (e.withBuffer disk).Graspable disk := by
  unfold Entry.withBuffer
  split
  · exact fun _ _ ht => absurd ht (by simp)
  · split
    · exact h
    · split
      · rename_i bytes hread
        intro t b _ hb _
        rw [← Option.some.inj hb]
        exact hread
      · exact fun _ _ ht => absurd ht (by simp)

private theorem Reading.graspable (h : Reading s e e') (he : e.Graspable s.disk) :
    e'.Graspable s.disk := by
  cases h with
  | look =>
    unfold looked
    split
    · exact he
    · exact he.congr rfl rfl rfl
  | text =>
    unfold withText
    split
    · exact he.congr rfl rfl rfl
    · split
      · exact he
      · split
        · exact he.congr rfl rfl rfl
        · exact he.congr rfl rfl rfl
  | buffer => exact he.withBuffer

theorem Building.graspable (h : Building N s e e') (he : e.Graspable s.disk) :
    e'.Graspable s.disk := by
  cases h with
  | loading h =>
    cases h with
    | reading h => exact h.graspable he
    | script h => exact he.congr rfl rfl rfl
    | references h => exact he.congr rfl rfl rfl
  | delivering h =>
    cases h with
    | taking h =>
      cases h with
      | reading h => exact h.graspable he
      | took _ _ _ => exact he.congr rfl rfl rfl
      | copied _ => exact he.congr rfl rfl rfl
    | stamp => exact he.congr rfl rfl rfl
  | mark f => exact he.congr rfl rfl rfl

theorem Graspable.of_changes (h : e.Graspable s.disk) (hfaithful : e.unrecorded.Faithful N s)
    (hd : s.disk.Changes disk) (hread : s.disk.KeepsReadable disk) : e.Graspable disk := by
  intro t bytes ht hbytes hmod
  obtain ⟨hmod', hcontent⟩ := hd.same _ t hmod (hfaithful.bufferTime t ht)
  have hold := h t bytes ht hbytes hmod'
  obtain ⟨bytes', hnow⟩ := Option.isSome_iff_exists.mp
    (hread _ (by rw [hold]; rfl) (hmod.trans hmod'.symm))
  rw [hnow, ← Disk.content?_of_read? hnow, hcontent, Disk.content?_of_read? hold]

/-! ## What a build does -/

private theorem unrecorded_looked (disk : Disk) (e : Entry) :
    (e.looked disk).unrecorded = e.unrecorded.looked disk := by
  unfold looked unrecorded
  simp only
  split <;> rfl

private theorem unrecorded_withText (disk : Disk) (e : Entry) :
    (e.withText disk).unrecorded = e.unrecorded.withText disk := by
  have hname : e.unrecorded.fullName = e.fullName := rfl
  have hfound : e.unrecorded.found = e.found := rfl
  have hcur : e.unrecorded.isTextCurrent = e.isTextCurrent := rfl
  unfold withText
  rw [hfound, hcur]
  split
  · rfl
  · split
    · rfl
    · rw [hname]
      cases disk.read? e.fullName <;> rfl

private theorem unrecorded_withBuffer (disk : Disk) (e : Entry) :
    (e.withBuffer disk).unrecorded = e.unrecorded.withBuffer disk := by
  have hname : e.unrecorded.fullName = e.fullName := rfl
  have hfound : e.unrecorded.found = e.found := rfl
  have hcur : e.unrecorded.isBufferCurrent = e.isBufferCurrent := rfl
  unfold withBuffer
  rw [hfound, hcur]
  split
  · rfl
  · split
    · rfl
    · rw [hname]
      cases disk.read? e.fullName <;> rfl

private theorem Reading.unrecorded (h : Reading s e e') :
    Reading s e.unrecorded e'.unrecorded := by
  cases h with
  | look =>
    rw [unrecorded_looked]
    exact .look _
  | text =>
    rw [unrecorded_withText]
    exact .text _
  | buffer =>
    rw [unrecorded_withBuffer]
    exact .buffer _

/-- References without a time are not looked at. -/
private theorem Faithful.with_references (h : e.unrecorded.Faithful N s)
    (refs : Option References) : ({ e with references := refs }.unrecorded).Faithful N s where
  sighted := ⟨h.sighted.le_clock, h.sighted.made⟩
  fits := ⟨h.fits.textTime, h.fits.sourceTime, fun _ ht => absurd ht (by simp [Entry.unrecorded]),
    h.fits.text, h.fits.script, fun _ _ ht => absurd ht (by simp [Entry.unrecorded])⟩
  bufferTime := h.bufferTime
  buffer := h.buffer

theorem Building.rereadable (h : Building N s e e') (hd : s.disk.Dated)
    (he : e.Rereadable N s) : e'.Rereadable N s := by
  refine ⟨?_, h.legible he.legible, h.graspable he.graspable⟩
  cases h with
  | loading h =>
    cases h with
    | reading h => exact (Building.loading (.reading h.unrecorded)).faithful hd he.faithful
    | @script file sc ds h =>
      have hparsing : Frame.Parsing N s e.unrecorded file sc ds :=
        ⟨h.name, h.key, h.text, h.outdated, h.read⟩
      exact (Building.loading (.script hparsing)).faithful hd he.faithful
    | references h => exact he.faithful.with_references _
  | delivering h =>
    cases h with
    | taking h =>
      cases h with
      | reading h => exact (Building.loading (.reading h.unrecorded)).faithful hd he.faithful
      | took hK htext hneed =>
        exact (Building.delivering (.taking (.took (e := e.unrecorded) hK htext hneed))).faithful hd
          he.faithful
      | copied hneed =>
        exact (Building.delivering (.taking (.copied (e := e.unrecorded) hneed))).faithful hd
          he.faithful
    | stamp => exact (Building.delivering (.stamp e.unrecorded)).faithful hd he.faithful
  | mark f => exact (Building.mark e.unrecorded f).faithful hd he.faithful

/-! ## What happens between cycles -/

theorem Rereadable.of_changes (h : e.Rereadable N s) (hd : s.disk.Changes disk)
    (hread : s.disk.KeepsReadable disk) : e.Rereadable N { s with disk } where
  faithful := h.faithful.of_changes hd
  legible :=
    have hlegible : e.unrecorded.Legible s.disk := h.legible.congr rfl rfl rfl
    (hlegible.of_changes h.faithful.fits hd hread).congr rfl rfl rfl
  graspable := h.graspable.of_changes h.faithful hd hread

/-- The settings do not matter. -/
theorem Rereadable.of_config (h : e.Rereadable N s) (config : Config) :
    e.Rereadable N { s with config } where
  faithful :=
    { sighted := h.faithful.sighted
      fits := ⟨h.faithful.fits.textTime, h.faithful.fits.sourceTime,
        fun _ ht => absurd ht (by simp [Entry.unrecorded]), h.faithful.fits.text,
        h.faithful.fits.script, fun _ _ ht => absurd ht (by simp [Entry.unrecorded])⟩
      bufferTime := h.faithful.bufferTime
      buffer := h.faithful.buffer }
  legible := h.legible
  graspable := h.graspable

theorem Rereadable.unlooked (h : e.Rereadable N s) :
    ({ e with current := .unset } : Entry).Rereadable N s :=
  ⟨h.faithful.unlooked, h.legible.congr rfl rfl rfl, h.graspable.congr rfl rfl rfl⟩

theorem Rereadable.forgotten (h : e.Rereadable N s) :
    ({ e with infoTime := .unset, outputTime := .unset } : Entry).Rereadable N s :=
  ⟨h.faithful.forgotten, h.legible.congr rfl rfl rfl, h.graspable.congr rfl rfl rfl⟩

end Entry

/-! ## Sessions -/

namespace Session

variable {N : String → Prop} {s : Session}

/-- Every entry of a session is rereadable. -/
structure Rereadable (N : String → Prop) (s : Session) : Prop where
  destination : s.destination = none
  dated : s.disk.Dated
  distinct : s.cache.KeysDistinct
  entries : ∀ i, i < s.cache.entries.length → (s.cache.entry i).Rereadable N s.surroundings

/-- The sessions that there can be where files are loaded under the names `N` only: the disk changes,
where what can be read stays readable unless it is changed, the project is given other settings, the
probes are cleared, everything may be asked to be built anew, and cycles run, which return or end
early. -/
inductive Lived (N : String → Prop) : Session → Prop where
  | start {disk : Disk} (project : Project) (h : disk.Dated) : Lived N (start disk project)
  | change {s : Session} {disk : Disk} (h : Lived N s) (hd : s.disk.Changes disk)
      (hread : s.disk.KeepsReadable disk) : Lived N { s with disk }
  | adjust {s : Session} {project : Project} (h : Lived N s)
      (hdir : project.dir = s.project.dir) : Lived N { s with project }
  | clear {s : Session} (h : Lived N s) : Lived N s.clearProbes
  | force {s : Session} (h : Lived N s) : Lived N s.forceNext
  | cycle {s : Session} (h : Lived N s) (hmains : ∀ main ∈ s.project.mains, N main)
      (hnames : ∀ name ∈ (Step.final (compile s)).imports, N name) :
      Lived N (Step.final (compile s))

theorem Rereadable.of_cache {t : Session} {f : Entry → Entry} (h : s.Rereadable N)
    (hf : ∀ e, e.Rereadable N s.surroundings → (f e).Rereadable N s.surroundings)
    (hkey : ∀ e, (f e).key = e.key) (hcache : t.cache = s.cache.mapEntries f)
    (hsurroundings : t.surroundings = s.surroundings) (hdest : t.destination = s.destination) :
    t.Rereadable N := by
  have hdisk : t.disk = s.disk := congrArg Surroundings.disk hsurroundings
  refine ⟨hdest.trans h.destination, hdisk ▸ h.dated, fun i j hi hj heq => ?_, fun i hi => ?_⟩
  · rw [hcache, Cache.length_mapEntries] at hi hj
    rw [hcache, Cache.entry_mapEntries f hi, Cache.entry_mapEntries f hj, hkey, hkey] at heq
    exact h.distinct i j hi hj heq
  · rw [hcache, Cache.length_mapEntries] at hi
    rw [hcache, hsurroundings, Cache.entry_mapEntries f hi]
    exact hf _ (h.entries i hi)

theorem Rereadable.clearProbes (h : s.Rereadable N) : s.clearProbes.Rereadable N :=
  h.of_cache (fun _ => Entry.Rereadable.unlooked) (fun _ => rfl) rfl rfl rfl

theorem Rereadable.begun (h : s.Rereadable N) : s.begun.Rereadable N := by
  rcases begun_cache s with hcache | hcache
  · refine ⟨(begun_destination s).trans h.destination, ?_, ?_, ?_⟩
    · rw [begun_disk]
      exact h.dated
    · rw [hcache]
      exact h.distinct
    · rw [hcache, begun_surroundings]
      exact h.entries
  · exact h.of_cache (fun _ => Entry.Rereadable.forgotten) (fun _ => rfl) hcache
      (begun_surroundings s) (begun_destination s)

theorem Rereadable.of_moves (h : s.Rereadable N) {t : Session}
    (hm : (Frame.builds N).Moves s.toWorkspace t.toWorkspace) : t.Rereadable N where
  destination := hm.destination
  dated := by
    rw [hm.disk]
    exact h.dated
  distinct := hm.cache.distinct h.distinct
  entries := by
    rw [hm.surroundings]
    exact hm.cache.keeps (fun _ _ hone => hone.rereadable h.dated)
      (fun _ => Entry.Rereadable.blank _ _ _ _) h.entries

/-- Whatever a session goes through, what it keeps is what would be read. -/
theorem Lived.rereadable (h : Lived N s) : s.Rereadable N := by
  induction h with
  | start project hd =>
    exact ⟨rfl, hd, fun i _ hi => absurd hi (Nat.not_lt_zero i),
      fun i hi => absurd hi (Nat.not_lt_zero i)⟩
  | change _ hd hread ih =>
    exact ⟨ih.destination, hd.dated ih.dated, ih.distinct,
      fun i hi => (ih.entries i hi).of_changes hd hread⟩
  | @adjust s project _ hdir ih =>
    refine ⟨ih.destination, ih.dated, ih.distinct, fun i hi => ?_⟩
    have hentry := (ih.entries i hi).of_config project.config
    unfold surroundings at hentry ⊢
    simp only [hdir]
    exact hentry
  | clear _ ih => exact ih.clearProbes
  | force _ ih => exact ⟨ih.destination, ih.dated, ih.distinct, ih.entries⟩
  | @cycle s _ hmains hnames ih =>
    refine ih.begun.of_moves (builds_compile ih.begun.destination (fun main hmain => ?_) hnames)
    rw [begun_mains] at hmain
    exact hmains main hmain

end Session

end Bundler

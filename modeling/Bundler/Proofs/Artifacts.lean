/-
What an entry hands out.

An entry hands out a text, bytes, a script or references only where their time is the time that was
seen of the file. Three facts about an entry make sure that they are then those of the file. What
was seen of the file is not newer than the disk, and it is the file's time wherever a piece was made
of the file as it is (`Entry.Sighted`); each piece whose time is the file's time was made of what is
on the disk (`Entry.Fits`); and the same for the bytes. Together they are kept by each single change
that a build makes of an entry, by every change of the disk, by clearing the probes and by
forgetting everything for a new build (`Entry.Faithful`). So they hold in every session that a
project can come to, also where the disk was changed behind a cycle and the probes were not cleared
before the next one, and also where cycles end early (`Session.Ran.faithful`).

Where the disk is as it was when the probes were cleared, what was seen of a file is what there is.
Then all that an entry hands out is current (`Session.Ran.handsOut`).
-/
import Bundler.Proofs.Edits
import Bundler.Proofs.Spelling

set_option autoImplicit false

namespace Bundler

open Workspace Step

namespace Entry

variable {N : String → Prop} {s : Surroundings} {e e' : Entry}

/-! ## Faithful entries -/

/-- What an entry says about its file is true, or can be seen to be out of date. -/
structure Faithful (N : String → Prop) (s : Surroundings) (e : Entry) : Prop where
  sighted : e.Sighted s.disk
  fits : e.Fits N s
  bufferTime : ∀ t, e.bufferTime = .at t → t ≤ s.disk.clock
  buffer : ∀ t bytes, e.bufferTime = .at t → e.buffer = some bytes →
    s.disk.modified? e.fullName = some t → s.disk.content? e.fullName = some bytes

theorem Faithful.blank (N : String → Prop) (s : Surroundings) (fullName key : String) :
    (Entry.blank fullName key).Faithful N s where
  sighted := ⟨fun _ h => absurd h (by simp [Entry.blank]), fun _ _ _ h =>
    absurd h (by simp [Entry.blank, Stamp.isSet])⟩
  fits := Fits.blank N s fullName key
  bufferTime _ h := absurd h (by simp [Entry.blank])
  buffer _ _ h := absurd h (by simp [Entry.blank])

/-- A piece that is made now is made at the time that was seen of the file. -/
private theorem Sighted.of_made {disk : Disk} (h : e.Sighted disk)
    (hname : e'.fullName = e.fullName) (hcur : e'.current = e.current)
    (hmade : ∀ t, e'.MadeAt t → e.MadeAt t ∨ e.current = .at t) : e'.Sighted disk := by
  refine ⟨fun t ht => h.le_clock t (hcur ▸ ht), fun t ht hmod hset => ?_⟩
  rw [hname] at hmod
  rw [hcur] at hset ⊢
  rcases hmade t ht with hold | hnow
  · exact h.made t hold hmod hset
  · exact hnow

private theorem Faithful.of_same_bytes (h : e.Faithful N s) (hname : e'.fullName = e.fullName)
    (hbuffer : e'.buffer = e.buffer) (htime : e'.bufferTime = e.bufferTime)
    (hsighted : e'.Sighted s.disk) (hfits : e'.Fits N s) : e'.Faithful N s where
  sighted := hsighted
  fits := hfits
  bufferTime := by
    rw [htime]
    exact h.bufferTime
  buffer := by
    rw [htime, hbuffer, hname]
    exact h.buffer

private theorem Faithful.looked (h : e.Faithful N s) (hd : s.disk.Dated) :
    (e.looked s.disk).Faithful N s := by
  have hfits := (Reading.look e).fits h.sighted h.fits
  cases hcur : e.current with
  | unset =>
    rw [looked_of_unset hcur] at hfits ⊢
    refine h.of_same_bytes rfl rfl rfl ⟨fun t ht => ?_, fun t _ hmod _ => ?_⟩ hfits
    · exact hd _ _ (Disk.stamp_eq_at.mp ht)
    · exact Disk.stamp_eq_at.mpr hmod
  | missing =>
    rw [looked_of_isSet (by rw [hcur]; rfl)]
    exact h
  | «at» t =>
    rw [looked_of_isSet (by rw [hcur]; rfl)]
    exact h

/-- Reading bytes keeps the bytes, or finds that they cannot be read, or reads what is on the disk. -/
private theorem withBuffer_cases (disk : Disk) (e : Entry) :
    e.withBuffer disk = e ∨ e.withBuffer disk = { e with bufferTime := .missing } ∨
      ∃ bytes, disk.content? e.fullName = some bytes ∧
        e.withBuffer disk = { e with buffer := some bytes, bufferTime := e.current } := by
  unfold Entry.withBuffer
  split
  · exact .inr (.inl rfl)
  · split
    · exact .inl rfl
    · split
      · rename_i bytes hread
        exact .inr (.inr ⟨bytes, Disk.content?_of_read? hread, rfl⟩)
      · exact .inr (.inl rfl)

private theorem Faithful.withText (h : e.Faithful N s) : (e.withText s.disk).Faithful N s := by
  have hfits := (Reading.text e).fits h.sighted h.fits
  rcases withText_cases s.disk e with ⟨-, heq⟩ | ⟨-, -, heq⟩ | ⟨bytes, -, -, heq⟩
  · rw [heq]
    exact h
  · rw [heq] at hfits ⊢
    refine h.of_same_bytes rfl rfl rfl (h.sighted.of_made rfl rfl fun t ht => ?_) hfits
    rcases ht with ht | ht
    · exact absurd ht (by simp)
    · exact .inl (.inr ht)
  · rw [heq] at hfits ⊢
    refine h.of_same_bytes rfl rfl rfl (h.sighted.of_made rfl rfl fun t ht => ?_) hfits
    rcases ht with ht | ht
    · exact .inr ht
    · exact .inl (.inr ht)

private theorem Faithful.withBuffer (h : e.Faithful N s) : (e.withBuffer s.disk).Faithful N s := by
  have hfits := (Reading.buffer e).fits h.sighted h.fits
  rcases withBuffer_cases s.disk e with heq | heq | ⟨bytes, hbytes, heq⟩
  · rw [heq]
    exact h
  · rw [heq] at hfits ⊢
    refine ⟨h.sighted.of_made rfl rfl fun t ht => ?_, hfits, fun _ ht => absurd ht (by simp),
      fun _ _ ht => absurd ht (by simp)⟩
    rcases ht with ht | ht | ht | ht
    · exact .inl (.inl ht)
    · exact .inl (.inr (.inl ht))
    · exact .inl (.inr (.inr (.inl ht)))
    · exact absurd ht (by simp)
  · rw [heq] at hfits ⊢
    refine ⟨h.sighted.of_made rfl rfl fun t ht => ?_, hfits, h.sighted.le_clock,
      fun t b _ hb _ => ?_⟩
    · rcases ht with ht | ht | ht | ht
      · exact .inl (.inl ht)
      · exact .inl (.inr (.inl ht))
      · exact .inl (.inr (.inr (.inl ht)))
      · exact .inr ht
    · rw [← Option.some.inj hb]
      exact hbytes

private theorem Reading.faithful (h : Reading s e e') (hd : s.disk.Dated) (he : e.Faithful N s) :
    e'.Faithful N s := by
  cases h with
  | look => exact he.looked hd
  | text => exact he.withText
  | buffer => exact he.withBuffer

/-- A script takes the time of its text, and references the time that was seen of the file. -/
private theorem Loading.faithful (h : Loading N s e e') (hd : s.disk.Dated)
    (he : e.Faithful N s) : e'.Faithful N s := by
  have hfits := h.fits he.sighted he.fits
  cases h with
  | reading h => exact h.faithful hd he
  | script h =>
    refine he.of_same_bytes rfl rfl rfl (he.sighted.of_made rfl rfl fun t ht => .inl ?_) hfits
    rcases ht with ht | ht | ht
    · exact .inl ht
    · exact .inl ht
    · exact .inr (.inr ht)
  | references h =>
    refine he.of_same_bytes rfl rfl rfl (he.sighted.of_made rfl rfl fun t ht => ?_) hfits
    rcases ht with ht | ht | ht | ht
    · exact .inl (.inl ht)
    · exact .inl (.inr (.inl ht))
    · exact .inr ht
    · exact .inl (.inr (.inr (.inr ht)))

/-- Stamps and marks do not matter for what is kept of a file. -/
theorem Faithful.of_same_pieces (h : e.Faithful N s) (hname : e'.fullName = e.fullName)
    (hkey : e'.key = e.key) (hcur : e'.current = e.current) (htext : e'.text = e.text)
    (htextTime : e'.textTime = e.textTime) (hbuffer : e'.buffer = e.buffer)
    (hbufferTime : e'.bufferTime = e.bufferTime) (hscript : e'.script = e.script)
    (hsourceTime : e'.sourceTime = e.sourceTime) (hds : e'.diagnostics = e.diagnostics)
    (hrefs : e'.references = e.references) (hinfoTime : e'.infoTime = e.infoTime) :
    e'.Faithful N s := by
  refine h.of_same_bytes hname hbuffer hbufferTime (h.sighted.of_made hname hcur fun t ht => ?_)
    (h.fits.congr hname hkey htext htextTime hscript hsourceTime hds hrefs hinfoTime)
  unfold MadeAt at ht ⊢
  rw [htextTime, hsourceTime, hinfoTime, hbufferTime] at ht
  exact .inl ht

private theorem Delivering.faithful {K : String → Prop} (h : Delivering K s e e')
    (hd : s.disk.Dated) (he : e.Faithful N s) : e'.Faithful N s := by
  have hstamped : ∀ t, ({ e with outputTime := t } : Entry).Faithful N s := fun t =>
    he.of_same_pieces rfl rfl rfl rfl rfl rfl rfl rfl rfl rfl rfl rfl
  cases h with
  | taking h =>
    cases h with
    | reading h => exact h.faithful hd he
    | took _ _ _ => exact hstamped _
    | copied _ => exact hstamped _
  | stamp => exact hstamped _

/-- Every change that a build makes of an entry keeps it faithful. -/
theorem Building.faithful (h : Building N s e e') (hd : s.disk.Dated) (he : e.Faithful N s) :
    e'.Faithful N s := by
  cases h with
  | loading h => exact h.faithful hd he
  | delivering h => exact h.faithful hd he
  | mark f => exact he.of_same_pieces rfl rfl rfl rfl rfl rfl rfl rfl rfl rfl rfl rfl

/-- Where the file was seen as it is, a build does not make that wrong. -/
theorem Building.seen (h : Building N s e e') (he : e.Seen s.disk) : e'.Seen s.disk := by
  cases h with
  | loading h => exact h.loads.seen he
  | delivering h => exact h.lasts.seen he
  | mark f => exact he

/-- A change of the disk takes a new time, so pieces that are out of date do not become current. -/
theorem Faithful.of_changes (h : e.Faithful N s) {disk : Disk} (hd : s.disk.Changes disk) :
    e.Faithful N { s with disk } where
  sighted := by
    refine ⟨fun t ht => Nat.le_trans (h.sighted.le_clock t ht) hd.clock, fun t ht hmod hset => ?_⟩
    have hold : t ≤ s.disk.clock := by
      rcases ht with ht | ht | ht | ht
      · exact h.fits.textTime t ht
      · exact h.fits.sourceTime t ht
      · exact h.fits.infoTime t ht
      · exact h.bufferTime t ht
    exact h.sighted.made t ht (hd.same _ t hmod hold).1 hset
  fits := h.fits.of_changes hd
  bufferTime t ht := Nat.le_trans (h.bufferTime t ht) hd.clock
  buffer t bytes ht hbytes hmod := by
    obtain ⟨hmod', hcontent⟩ := hd.same _ t hmod (h.bufferTime t ht)
    exact hcontent.trans (h.buffer t bytes ht hbytes hmod')

theorem Faithful.unlooked (h : e.Faithful N s) : Faithful N s { e with current := .unset } where
  sighted := ⟨fun _ ht => absurd ht (by simp), fun _ _ _ hset => absurd hset (by simp [Stamp.isSet])⟩
  fits := h.fits.congr rfl rfl rfl rfl rfl rfl rfl rfl rfl
  bufferTime := h.bufferTime
  buffer := h.buffer

theorem Faithful.forgotten (h : e.Faithful N s) :
    Faithful N s { e with infoTime := .unset, outputTime := .unset } := by
  refine h.of_same_bytes rfl rfl rfl (h.sighted.of_made rfl rfl fun t ht => ?_)
    ⟨h.fits.textTime, h.fits.sourceTime, fun _ ht => absurd ht (by simp), h.fits.text,
      h.fits.script, fun _ _ ht => absurd ht (by simp)⟩
  rcases ht with ht | ht | ht | ht
  · exact .inl (.inl ht)
  · exact .inl (.inr (.inl ht))
  · exact absurd ht (by simp)
  · exact .inl (.inr (.inr (.inr ht)))

/-! ## What is handed out -/

/-- All that an entry hands out is current: the text and the bytes are those of the file on the disk,
the script was read from that text under the name that it bears, which is one of the file, and no
node of it is edited, and the references are what is gathered from that script. -/
structure HandsOut (disk : Disk) (p : Project) (e : Entry) : Prop where
  text : ∀ text, e.text? = some text →
    ∃ bytes, disk.content? e.fullName = some bytes ∧ text = Text.ofBytes bytes
  buffer : ∀ bytes, e.buffer? = some bytes → disk.content? e.fullName = some bytes
  script : ∀ script, e.script? = some script →
    ∃ text, e.text? = some text ∧ Script.read script.file text = .ok (script, e.diagnostics) ∧
      Cache.keyOf p.dir script.file = e.key ∧ script.Unedited
  references : ∀ refs, e.references? = some refs →
    ∃ script bytes, e.script = some script ∧ disk.content? e.fullName = some bytes ∧
      Script.read script.file (Text.ofBytes bytes) = .ok (script, e.diagnostics) ∧
      Cache.keyOf p.dir script.file = e.key ∧
      References.gather script refs.sourceDeps (p.resourceName script.file) = .ok refs

private theorem resourceName_congr {p q : Project} (hconfig : p.config = q.config)
    (hdir : p.dir = q.dir) (file : String) : p.resourceName file = q.resourceName file := by
  funext text
  unfold Project.resourceName Project.resourceDir Project.relativize Project.absolute
    Project.directory
  rw [hconfig, hdir]

private theorem found_time {time : Stamp} {disk : Disk} (hseen : e.Seen disk)
    (hfound : e.found = true) (htime : time = e.current) :
    ∃ t, time = .at t ∧ disk.modified? e.fullName = some t := by
  obtain ⟨t, hcur, hmod⟩ := hseen.at_of_found hfound
  exact ⟨t, htime.trans hcur, hmod⟩

/-- Where the file was seen as it is, and files are loaded under one name each, all that a faithful
entry hands out is current. -/
theorem Faithful.handedOut (h : e.Faithful N s) (hseen : e.Seen s.disk) {p : Project}
    (hconfig : p.config = s.config) (hdir : p.dir = s.dir)
    (hone : ∀ a b, N a → N b → Cache.keyOf p.dir a = Cache.keyOf p.dir b → a = b) :
    e.HandsOut s.disk p := by
  have htext : ∀ text, e.text? = some text → ∃ t, e.textTime = .at t ∧ e.text = some text ∧
      s.disk.modified? e.fullName = some t := by
    intro text ht
    unfold text? at ht
    split at ht
    · rename_i hcur
      obtain ⟨hfound, hread, -⟩ := isTextCurrent_iff.mp hcur
      obtain ⟨t, htime, hmod⟩ := found_time hseen hfound hread
      exact ⟨t, htime, ht, hmod⟩
    · exact absurd ht (by simp)
  refine ⟨fun text ht => ?_, fun bytes hb => ?_, fun script hs => ?_, fun refs hr => ?_⟩
  · obtain ⟨t, htime, htext, hmod⟩ := htext text ht
    exact h.fits.text t text htime htext hmod
  · unfold buffer? at hb
    split at hb
    · rename_i hcur
      obtain ⟨hfound, hread, -⟩ := isBufferCurrent_iff.mp hcur
      obtain ⟨t, htime, hmod⟩ := found_time hseen hfound hread
      exact h.buffer t bytes htime hb hmod
    · exact absurd hb (by simp)
  · unfold script? at hs
    split at hs
    · rename_i hcur
      obtain ⟨hcurrent, hparsed, -⟩ := isSourceCurrent_iff.mp hcur
      obtain ⟨text, hsome⟩ : ∃ text, e.text? = some text := by
        unfold text?
        rw [if_pos hcurrent]
        exact (isTextCurrent_iff.mp hcurrent).2.2
      obtain ⟨t, htime, htext, hmod⟩ := htext text hsome
      obtain ⟨file, bytes, -, hkey, hbytes, hread⟩ :=
        h.fits.script t script (hparsed.trans htime) hs hmod
      obtain ⟨bytes', hbytes', heq⟩ := h.fits.text t text htime htext hmod
      rw [hbytes] at hbytes'
      obtain ⟨rfl, hunedited⟩ := Script.unedited_of_read hread
      refine ⟨text, hsome, ?_, ?_, hunedited⟩
      · rw [heq, ← Option.some.inj hbytes']
        exact hread
      · rw [hdir]
        exact hkey.symm
    · exact absurd hs (by simp)
  · unfold references? at hr
    split at hr
    · rename_i hcur
      obtain ⟨hfound, hgathered, -⟩ := isInfoCurrent_iff.mp hcur
      obtain ⟨t, htime, hmod⟩ := found_time hseen hfound hgathered
      obtain ⟨hsource, file, script, deps, q, hfile, hkey, hscript, hqconfig, hqdir, hgather⟩ :=
        h.fits.info t refs htime hr hmod
      obtain ⟨file', bytes, hfile', hkey', hbytes, hread⟩ := h.fits.script t script hsource hscript hmod
      obtain ⟨rfl, -⟩ := Script.unedited_of_read hread
      -- both times it was loaded under the one name that it has
      have hsame : file = script.file :=
        hone file script.file hfile hfile' (by rw [hdir, ← hkey, hkey'])
      have hdeps := References.sourceDeps_gather hgather
      refine ⟨script, bytes, hscript, hbytes, hread, by rw [hdir]; exact hkey'.symm, ?_⟩
      rw [resourceName_congr (hconfig.trans hqconfig.symm) (hdir.trans hqdir.symm), ← hsame, hdeps]
      exact hgather
    · exact absurd hr (by simp)

end Entry

/-! ## Sessions -/

namespace Session

variable {N : String → Prop} {s : Session}

/-- Every entry of a session is faithful. -/
structure Faithful (N : String → Prop) (s : Session) : Prop where
  destination : s.destination = none
  dated : s.disk.Dated
  entries : ∀ i, i < s.cache.entries.length → (s.cache.entry i).Faithful N s.surroundings

theorem begun_surroundings (s : Session) : s.begun.surroundings = s.surroundings := by
  unfold surroundings
  rw [begun_config, begun_dir, begun_disk]

theorem Faithful.of_cache {t : Session} {f : Entry → Entry} (h : s.Faithful N)
    (hf : ∀ e, e.Faithful N s.surroundings → (f e).Faithful N s.surroundings)
    (hcache : t.cache = s.cache.mapEntries f) (hsurroundings : t.surroundings = s.surroundings)
    (hdest : t.destination = s.destination) : t.Faithful N := by
  have hdisk : t.disk = s.disk := congrArg Surroundings.disk hsurroundings
  refine ⟨hdest.trans h.destination, hdisk ▸ h.dated, fun i hi => ?_⟩
  rw [hcache, Cache.length_mapEntries] at hi
  rw [hcache, hsurroundings, Cache.entry_mapEntries f hi]
  exact hf _ (h.entries i hi)

theorem Faithful.begun (h : s.Faithful N) : s.begun.Faithful N := by
  rcases begun_cache s with hcache | hcache
  · refine ⟨(begun_destination s).trans h.destination, ?_, ?_⟩
    · rw [begun_disk]
      exact h.dated
    · rw [hcache, begun_surroundings]
      exact h.entries
  · exact h.of_cache (fun _ => Entry.Faithful.forgotten) hcache (begun_surroundings s)
      (begun_destination s)

/-- A cycle keeps all entries faithful, and what was seen of the files where that is what there
is. -/
theorem Faithful.compile (h : s.Faithful N)
    (hmoves : (Frame.builds N).Moves s.begun.toWorkspace (Step.final (compile s)).toWorkspace) :
    (Step.final (Session.compile s)).Faithful N ∧
      (s.begun.cache.Seen s.disk → (Step.final (Session.compile s)).cache.Seen s.disk) := by
  have hbegun := h.begun
  have hdated : s.begun.surroundings.disk.Dated := hbegun.dated
  refine ⟨⟨hmoves.destination, ?_, ?_⟩, fun hseen => ?_⟩
  · rw [hmoves.disk]
    exact hbegun.dated
  · rw [hmoves.surroundings]
    exact hmoves.cache.keeps (fun _ _ hone => hone.faithful hdated)
      (fun _ => Entry.Faithful.blank _ _ _ _) hbegun.entries
  · have hdisk : s.begun.surroundings.disk = s.disk := begun_disk s
    refine hmoves.cache.keeps (P := Entry.Seen s.disk) (fun _ _ hone he => ?_)
      (fun _ => Entry.Seen.blank _ _ _) hseen
    rw [← hdisk] at he ⊢
    exact hone.seen he

/-- The sessions that a project can come to where files are loaded under the names `N` only: the disk
changes, the probes are cleared, everything may be asked to be built anew, and cycles run, which
return or end early. The flag says that the disk is as it was when the probes were last cleared. -/
inductive Ran (project : Project) (N : String → Prop) : Bool → Session → Prop where
  | start {disk : Disk} (h : disk.Dated) (hmains : ∀ main ∈ project.mains, N main) :
      Ran project N true (start disk project)
  | change {b : Bool} {s : Session} {disk : Disk} (h : Ran project N b s)
      (hd : s.disk.Changes disk) : Ran project N false { s with disk }
  | clear {b : Bool} {s : Session} (h : Ran project N b s) : Ran project N true s.clearProbes
  | force {b : Bool} {s : Session} (h : Ran project N b s) : Ran project N b s.forceNext
  | cycle {b : Bool} {s : Session} (h : Ran project N b s)
      (hnames : ∀ name ∈ (Step.final (compile s)).imports, N name) :
      Ran project N b (Step.final (compile s))

theorem seen_begun {disk : Disk} (h : s.cache.Seen disk) : s.begun.cache.Seen disk := by
  rcases begun_cache s with hcache | hcache
  · rw [hcache]
    exact h
  · intro i hi
    rw [hcache, Cache.length_forceRebuild] at hi
    rw [hcache, Cache.entry_forceRebuild hi]
    exact h i hi

/-- Whatever happened to a session, its settings are those of the project, its entries are faithful,
and where the disk has not changed since the probes were cleared, what was seen of the files is what
there is. -/
theorem Ran.faithful {project : Project} {b : Bool} (h : Ran project N b s) :
    s.Faithful N ∧ s.project.config = project.config ∧ s.project.dir = project.dir ∧
      (∀ main ∈ project.mains, N main) ∧ (b = true → s.cache.Seen s.disk) := by
  induction h with
  | start hd hmains =>
    exact ⟨⟨rfl, hd, fun i hi => absurd hi (Nat.not_lt_zero i)⟩, rfl, rfl, hmains,
      fun _ i hi => absurd hi (Nat.not_lt_zero i)⟩
  | change _ hd ih =>
    obtain ⟨hf, hconfig, hdir, hmains, -⟩ := ih
    exact ⟨⟨hf.destination, hd.dated hf.dated, fun i hi => (hf.entries i hi).of_changes hd⟩,
      hconfig, hdir, hmains, fun h => absurd h (by simp)⟩
  | clear _ ih =>
    obtain ⟨hf, hconfig, hdir, hmains, -⟩ := ih
    refine ⟨hf.of_cache (t := clearProbes _) (fun _ => Entry.Faithful.unlooked) rfl rfl rfl, hconfig,
      hdir, hmains, fun _ i hi => ?_⟩
    change i < (Cache.clearProbes _).entries.length at hi
    rw [Cache.length_clearProbes] at hi
    change ((Cache.clearProbes _).entry i).Seen _
    rw [Cache.entry_clearProbes hi]
    exact .inl rfl
  | force _ ih =>
    obtain ⟨hf, hrest⟩ := ih
    exact ⟨⟨hf.destination, hf.dated, hf.entries⟩, hrest⟩
  | @cycle b s _ hnames ih =>
    obtain ⟨hf, hconfig, hdir, hmains, hseen⟩ := ih
    have hmoves := builds_compile (N := N) ((begun_destination s).trans hf.destination)
      (fun main hmain => hmains main (by
        rw [begun_mains] at hmain
        unfold Project.mains at hmain ⊢
        rwa [hconfig] at hmain)) hnames
    obtain ⟨hf', hseen'⟩ := hf.compile hmoves
    refine ⟨hf', ?_, ?_, hmains, fun hb => ?_⟩
    · rw [hmoves.config, begun_config, hconfig]
    · rw [hmoves.dir, begun_dir, hdir]
    · rw [hmoves.disk, begun_disk]
      exact hseen' (seen_begun (hseen hb))

/-- Where every file is loaded under one name and the disk is as it was when the probes were last
cleared, all that the entries of a session hand out is current: whatever changes of the disk, cycles
and cycles that ended early there were before. -/
theorem Ran.handsOut {project : Project}
    (hone : ∀ a b, N a → N b → Cache.keyOf project.dir a = Cache.keyOf project.dir b → a = b)
    (h : Ran project N true s) (i : Nat) (hi : i < s.cache.entries.length) :
    (s.cache.entry i).HandsOut s.disk s.project := by
  obtain ⟨hf, -, hdir, -, hseen⟩ := h.faithful
  refine (hf.entries i hi).handedOut (hseen rfl i hi) rfl rfl ?_
  rw [hdir]
  exact hone

/-- A project in `/p` with some entry files. -/
def entryProject (main : List String) : Project := .ofConfig { Config.default with main } "/p"

/-- An entry file and a file that it imports. -/
def pairDisk : Disk :=
  (Disk.empty.write "/p/a.ts" (Text.toBytes "import \"./b\";\n")).write "/p/b.ts"
    (Text.toBytes "export const x = 1;\n")

/-- The pair was built, then the import was dropped and the probes were cleared. -/
def droppedImport : Session :=
  let s := Step.final (compile (start pairDisk (entryProject ["a.ts"])))
  Session.clearProbes { s with disk := s.disk.write "/p/a.ts" (Text.toBytes "t(\"hello\");\n") }

theorem handsOut_droppedImport :
    ((Step.final (compile droppedImport)).cache.entry 0).references?.isSome = true ∧
      ((Step.final (compile droppedImport)).cache.entry 0).HandsOut
        (Step.final (compile droppedImport)).disk (Step.final (compile droppedImport)).project := by
  have hdated : pairDisk.Dated :=
    (Disk.changes_write _ _ _).dated ((Disk.changes_write _ _ _).dated Disk.dated_empty)
  have hstart : Ran (entryProject ["a.ts"]) (fun name => name ∈ ["a.ts", "b.ts"]) true
      (start pairDisk (entryProject ["a.ts"])) := .start hdated (by decide +kernel)
  have hbuilt := hstart.cycle (by decide +kernel)
  have hedited : Ran _ _ true droppedImport := (hbuilt.change (Disk.changes_write _ _ _)).clear
  have hran := hedited.cycle (by decide +kernel)
  have hnames : ∀ a ∈ ["a.ts", "b.ts"], ∀ b ∈ ["a.ts", "b.ts"],
      Cache.keyOf (entryProject ["a.ts"]).dir a = Cache.keyOf (entryProject ["a.ts"]).dir b →
        a = b := by decide +kernel
  exact ⟨by decide +kernel, hran.handsOut (fun a b ha hb => hnames a ha b hb) 0 (by decide +kernel)⟩

end Session

end Bundler

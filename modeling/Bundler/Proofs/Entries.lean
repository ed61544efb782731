/-
What an entry says about the disk, and what the stages of a build do to an entry.

An entry holds what was made of a file, each piece with the time of the file it was made of. Since
every change of a disk takes a new time, a time and a path name one content for ever. So a piece
whose time is the file's time on the disk was made of what is on the disk now, whenever it was made
(`Entry.Fits`). This holds before the first step, it is kept by all that a build does to an entry,
and it is kept by every change of the disk, which only makes pieces fall silent.

What a build does to an entry is listed here once, one change at a time: reading (`Entry.Reading`),
loading (`Entry.Loading`), marking (`Entry.Marking`), taking over (`Entry.Taking`), and delivering
(`Entry.Delivering`). A stage
takes every entry through a chain of such changes, so a fact that each change keeps is kept by the
stage. `Disk.Dated` says that a disk is one that was changed step by step: no file is newer than
the clock.
-/
import Bundler.Proofs.Frames

set_option autoImplicit false

namespace Bundler

/-! ## Disks -/

namespace Disk

/-- The content of a file, whether it can be read or not. -/
def content? (d : Disk) (path : String) : Option Bytes :=
  (d.files.get? (.ofString path)).map DiskFile.content

/-- No file is newer than the clock. -/
def Dated (d : Disk) : Prop := ∀ path t, d.modified? path = some t → t ≤ d.clock

theorem dated_empty : empty.Dated := fun _ _ h => absurd h (by simp [modified?, empty,
  OrderedMap.get?, OrderedMap.empty])

/-- A disk has become another one by changes of files: what has a time that it had before has the
content that it had before, and every other time is later than the clock was. -/
structure Changes (d d' : Disk) : Prop where
  clock : d.clock ≤ d'.clock
  same : ∀ path t, d'.modified? path = some t → t ≤ d.clock →
    d.modified? path = some t ∧ d'.content? path = d.content? path
  dated : d.Dated → d'.Dated

theorem Changes.refl (d : Disk) : Changes d d := ⟨Nat.le_refl _, fun _ _ h _ => ⟨h, rfl⟩, id⟩

theorem Changes.trans {d d' d'' : Disk} (h : Changes d d') (h' : Changes d' d'') :
    Changes d d'' := by
  refine ⟨Nat.le_trans h.clock h'.clock, fun path t ht hle => ?_, fun hd => h'.dated (h.dated hd)⟩
  obtain ⟨ht', hc'⟩ := h'.same path t ht (Nat.le_trans hle h.clock)
  obtain ⟨ht'', hc''⟩ := h.same path t ht' hle
  exact ⟨ht'', hc'.trans hc''⟩

/-- Putting a file with the next time in a place. -/
theorem changes_put (d : Disk) (place : DiskPath) (content : Bytes) :
    Changes d (d.put place content) := by
  refine ⟨Nat.le_succ _, fun path t ht hle => ?_, fun hd path t ht => ?_⟩
  · unfold modified? content? put at *
    simp only [OrderedMap.get?_insert] at ht ⊢
    by_cases h : place = DiskPath.ofString path
    · simp only [h, if_true, Option.map_some, Option.some.injEq] at ht
      omega
    · simp only [h, if_false] at ht ⊢
      exact ⟨ht, trivial⟩
  · have hold := hd path
    unfold modified? at hold
    unfold modified? put at ht
    simp only [OrderedMap.get?_insert] at ht ⊢
    by_cases h : place = DiskPath.ofString path
    · simp only [h, if_true, Option.map_some, Option.some.injEq] at ht
      change t ≤ d.clock + 1
      omega
    · simp only [h, if_false] at ht
      exact Nat.le_succ_of_le (hold t ht)

theorem changes_write (d : Disk) (path : String) (content : Bytes) :
    Changes d (d.write path content) := changes_put d _ content

theorem changes_touch (d : Disk) (path : String) : Changes d (d.touch path) := by
  unfold touch
  simp only
  split
  · rename_i file _
    exact changes_put d _ file.content
  · exact ⟨Nat.le_succ _, fun _ _ h _ => ⟨h, rfl⟩, fun hd p t h => Nat.le_succ_of_le (hd p t h)⟩

theorem changes_remove (d : Disk) (path : String) : Changes d (d.remove path) := by
  have hget : ∀ path' file, (d.remove path).files.get? (.ofString path') = some file →
      d.files.get? (.ofString path') = some file := by
    intro path' file h
    have hkeep : (DiskPath.ofString path' != DiskPath.ofString path) = true :=
      OrderedMap.keep_of_get?_filter (p := fun key _ => key != DiskPath.ofString path) h
    unfold remove at h
    rw [OrderedMap.get?_filter_of_keep fun _ => hkeep] at h
    exact h
  refine ⟨Nat.le_refl _, fun path' t ht _ => ?_, fun hd path' t ht => ?_⟩
  · unfold modified? content? at *
    obtain ⟨file, hfile, rfl⟩ := Option.map_eq_some_iff.mp ht
    rw [hget path' file hfile, hfile]
    exact ⟨rfl, rfl⟩
  · have hold := hd path'
    unfold modified? at ht hold
    obtain ⟨file, hfile, rfl⟩ := Option.map_eq_some_iff.mp ht
    exact hold file.time (by rw [hget path' file hfile]; rfl)

theorem changes_setUnreadable (d : Disk) (paths : List String) :
    Changes d (d.setUnreadable paths) := ⟨Nat.le_refl _, fun _ _ h _ => ⟨h, rfl⟩, fun h => h⟩

theorem content?_of_read? {d : Disk} {path : String} {bytes : Bytes}
    (h : d.read? path = some bytes) : d.content? path = some bytes := by
  unfold read? at h
  split at h
  · exact absurd h (by simp)
  · exact h

end Disk

/-! ## Chains of changes -/

/-- What one look or one read does to an entry. -/
inductive Entry.Reading (s : Surroundings) : Entry → Entry → Prop where
  | look (e : Entry) : Reading s e (e.looked s.disk)
  | text (e : Entry) : Reading s e (e.withText s.disk)
  | buffer (e : Entry) : Reading s e (e.withBuffer s.disk)

/-- What one step of loading does to an entry, where files are loaded under the names `N`. -/
inductive Entry.Loading (N : String → Prop) (s : Surroundings) : Entry → Entry → Prop where
  | reading {e e' : Entry} (h : Reading s e e') : Loading N s e e'
  | script {e : Entry} {file : String} {sc : Script} {ds : List Diagnostic}
      (h : Frame.Parsing N s e file sc ds) :
      Loading N s e { e with script := some sc, diagnostics := ds, sourceTime := e.textTime }
  | references {e : Entry} {file : String} {sc : Script} {deps : List (String × String)}
      {refs : References} (h : Frame.Gathering N s e file sc deps refs) :
      Loading N s e { e with references := some refs, infoTime := e.current }

/-- What one step of a freshness pass does to an entry. -/
inductive Entry.Marking (s : Surroundings) : Entry → Entry → Prop where
  | reading {e e' : Entry} (h : Entry.Reading s e e') : Marking s e e'
  | mark (e : Entry) (f : Freshness) : Marking s e { e with freshness := f }

/-- What one step behind the writing of a program does to an entry, where scripts are taken over
whose keys are in `K`. -/
inductive Entry.Taking (K : String → Prop) (s : Surroundings) : Entry → Entry → Prop where
  | reading {e e' : Entry} (h : Entry.Reading s e e') : Taking K s e e'
  | took {e : Entry} (hK : K e.key) (htext : e.isTextCurrent = true)
      (hneed : s.config.bundle ≠ .none ∨ e.needsCopy = true) :
      Taking K s e { e with outputTime := e.textTime }
  | copied {e : Entry} (hneed : e.needsCopy = true) :
      Taking K s e { e with outputTime := e.current }

/-- What one step of delivering does to an entry. -/
inductive Entry.Delivering (K : String → Prop) (s : Surroundings) : Entry → Entry → Prop where
  | taking {e e' : Entry} (h : Entry.Taking K s e e') : Delivering K s e e'
  | stamp (e : Entry) : Delivering K s e e.stampOutput

/-- A change of a project that leaves its settings; output and modules may come to it. -/
structure Project.Lasting (p p' : Project) : Prop where
  config : p'.config = p.config
  dir : p'.dir = p.dir
  resolvers : p'.resolvers = p.resolvers
  catalogue : p'.catalogue.isSome = p.catalogue.isSome
  shortening : p.resolvers = [] → p'.shortNames.enabled = p.shortNames.enabled
  depJs : ∀ k ∈ p.depJs.keys, k ∈ p'.depJs.keys

theorem Project.Lasting.refl (p : Project) : p.Lasting p :=
  ⟨rfl, rfl, rfl, rfl, fun _ => rfl, fun _ h => h⟩

theorem Project.Lasting.trans {p q r : Project} (h : p.Lasting q) (h' : q.Lasting r) :
    p.Lasting r :=
  ⟨h'.config.trans h.config, h'.dir.trans h.dir, h'.resolvers.trans h.resolvers,
    h'.catalogue.trans h.catalogue,
    fun hr => (h'.shortening (h.resolvers.trans hr)).trans (h.shortening hr),
    fun k hk => h'.depJs k (h.depJs k hk)⟩

theorem Project.Quiet.lasting {p p' : Project} (h : p.Quiet p') : p.Lasting p' :=
  ⟨h.config, h.dir, h.resolvers, h.catalogue.isSome, h.shortening, h.depJs⟩

namespace Frame

open Relation

/-- The frame of chains of changes. -/
def chains (R : Surroundings → Entry → Entry → Prop) (P : Project → Project → Prop)
    (hrefl : ∀ p, P p p) (htrans : ∀ {p q r}, P p q → P q r → P p r) : Frame where
  entry s := ReflTransGen (R s)
  project := P
  refl _ _ := ReflTransGen.refl
  trans _ _ _ _ h h' := h.trans h'
  project_refl := hrefl
  project_trans := htrans

/-- The frame of loading files with names in `N`. -/
def loads (N : String → Prop) : Frame :=
  chains (Entry.Loading N) Project.Quiet Project.Quiet.refl Project.Quiet.trans

/-- The frame of freshness passes. -/
def marks : Frame := chains Entry.Marking Project.Quiet Project.Quiet.refl Project.Quiet.trans

/-- The frame of what follows the writing of a program. -/
def takes (K : String → Prop) : Frame :=
  chains (Entry.Taking K) Project.Lasting Project.Lasting.refl Project.Lasting.trans

/-- The frame of delivering. -/
def delivers (K : String → Prop) : Frame :=
  chains (Entry.Delivering K) Project.Lasting Project.Lasting.refl Project.Lasting.trans

variable {N K : String → Prop}

theorem loading_loads : Bundler.Loading (loads N).law N :=
  loading
    (looking (loads N) (fun _ e => .single (.reading (.look e)))
      (fun _ e => .single (.reading (.text e))) (fun _ e => .single (.reading (.buffer e)))
      fun _ _ h => h)
    (fun _ _ _ _ _ h => .single (.script h)) fun _ _ _ _ _ _ h => .single (.references h)

theorem walking_marks : Walking marks.law :=
  walking
    (looking marks (fun _ e => .single (.reading (.look e)))
      (fun _ e => .single (.reading (.text e))) (fun _ e => .single (.reading (.buffer e)))
      fun _ _ h => h)
    fun _ e f => .single (.mark e f)

private theorem lasting_write (p : Project) (path : String) (content : Bytes) :
    p.Lasting (p.write path content) := by
  unfold Project.write
  split
  · exact ⟨rfl, rfl, rfl, rfl, fun _ => rfl, fun _ h => h⟩
  · exact ⟨rfl, rfl, rfl, rfl, fun _ => rfl, fun _ h => h⟩

theorem taking_takes : Bundler.Taking (takes K).law K :=
  taking
    (looking (takes K) (fun _ e => .single (.reading (.look e)))
      (fun _ e => .single (.reading (.text e))) (fun _ e => .single (.reading (.buffer e)))
      fun _ _ h => h.lasting)
    (fun _ _ hK htext hneed => .single (.took hK htext hneed))
    (fun _ _ hneed => .single (.copied hneed)) lasting_write
    fun _ _ _ => ⟨rfl, rfl, rfl, rfl, fun _ => rfl, fun _ h => h⟩

theorem placing_takes : Placing (takes K).law :=
  placing fun _ _ => ⟨rfl, rfl, rfl, rfl, fun _ => rfl, fun _ h => h⟩

theorem delivering_delivers : Bundler.Delivering (delivers K).law K :=
  delivering
    (taking
      (looking (delivers K) (fun _ e => .single (.taking (.reading (.look e))))
        (fun _ e => .single (.taking (.reading (.text e))))
        (fun _ e => .single (.taking (.reading (.buffer e)))) fun _ _ h => h.lasting)
      (fun _ _ hK htext hneed => .single (.taking (.took hK htext hneed)))
      (fun _ _ hneed => .single (.taking (.copied hneed))) lasting_write
      fun _ _ _ => ⟨rfl, rfl, rfl, rfl, fun _ => rfl, fun _ h => h⟩)
    fun _ e => .single (.stamp e)

end Frame

/-- What every change of a chain keeps is kept by the chain. -/
theorem Entry.chain_keeps {R : Entry → Entry → Prop} {P : Entry → Prop}
    (hstep : ∀ e e', R e e' → P e → P e') {e e' : Entry}
    (h : Relation.ReflTransGen R e e') (he : P e) : P e' := by
  induction h with
  | refl => exact he
  | tail _ hlast ih => exact hstep _ _ hlast ih

/-- What every change keeps holds of all entries of a cache that has become another one. -/
theorem Cache.Advances.keeps {dir : String} {R : Entry → Entry → Prop} {P : Entry → Prop}
    {c c' : Cache} (h : Cache.Advances dir (Relation.ReflTransGen R) c c')
    (hstep : ∀ e e', R e e' → P e → P e')
    (hblank : ∀ name, P (.blank (Cache.canonicalName dir name) (Cache.keyOf dir name)))
    (hc : ∀ i, i < c.entries.length → P (c.entry i)) :
    ∀ i, i < c'.entries.length → P (c'.entry i) := by
  intro i hi
  by_cases hold : i < c.entries.length
  · exact Entry.chain_keeps hstep (h.old i hold) (hc i hold)
  · obtain ⟨name, hnew⟩ := h.new i (by omega) hi
    exact Entry.chain_keeps hstep hnew (hblank name)

namespace Entry

variable {N K : String → Prop} {s : Surroundings} {e e' e'' : Entry}

/-! ## What stays -/

/-- What was seen of the file is what there is. -/
def Seen (disk : Disk) (e : Entry) : Prop :=
  e.current = .unset ∨ e.current = disk.stamp e.fullName

/-- Text, script and references are those of the file. -/
structure Loaded (e : Entry) : Prop where
  source : e.isSourceCurrent = true
  info : e.isInfoCurrent = true

theorem isTextCurrent_of_isSourceCurrent (h : e.isSourceCurrent = true) :
    e.isTextCurrent = true := (isSourceCurrent_iff.mp h).1

theorem Loaded.text (h : e.Loaded) : e.isTextCurrent = true :=
  isTextCurrent_of_isSourceCurrent h.source

theorem Loaded.isSet (h : e.Loaded) : e.current.isSet = true := isSet_of_isTextCurrent h.text

/-- An entry that was looked at and found has the time of its file. -/
theorem Seen.at_of_found {disk : Disk} (h : e.Seen disk) (hfound : e.found = true) :
    ∃ t, e.current = .at t ∧ disk.modified? e.fullName = some t := by
  unfold found at hfound
  rcases h with hunset | hstamp
  · rw [hunset] at hfound
    exact absurd hfound (by simp [Stamp.time?])
  · rw [hstamp, Disk.stamp_time?] at hfound
    obtain ⟨t, ht⟩ := Option.isSome_iff_exists.mp hfound
    exact ⟨t, by rw [hstamp, Disk.stamp_eq_at.mpr ht], ht⟩

/-- What an entry keeps in a freshness pass and when it is delivered. -/
structure Lasts (s : Surroundings) (e e' : Entry) : Prop where
  fullName : e'.fullName = e.fullName
  key : e'.key = e.key
  script : e'.script = e.script
  sourceTime : e'.sourceTime = e.sourceTime
  diagnostics : e'.diagnostics = e.diagnostics
  references : e'.references = e.references
  infoTime : e'.infoTime = e.infoTime
  seen : e.Seen s.disk → e'.Seen s.disk
  set : e.current.isSet = true → e'.current = e.current
  text : e.isTextCurrent = true → e'.text = e.text ∧ e'.textTime = e.textTime

/-- What an entry keeps while files are loaded under the names `N`. What was gathered of the file
as it is is kept even before the file is looked at, and an entry that none of the names leads to
keeps its references anyway. -/
structure Loads (N : String → Prop) (s : Surroundings) (e e' : Entry) : Prop where
  fullName : e'.fullName = e.fullName
  key : e'.key = e.key
  outputTime : e'.outputTime = e.outputTime
  seen : e.Seen s.disk → e'.Seen s.disk
  set : e.current.isSet = true → e'.current = e.current
  text : e.isTextCurrent = true → e'.text = e.text ∧ e'.textTime = e.textTime
  source : e.isSourceCurrent = true →
    e'.script = e.script ∧ e'.sourceTime = e.sourceTime ∧ e'.diagnostics = e.diagnostics
  info : e.Seen s.disk → ∀ t, s.disk.modified? e.fullName = some t → e.infoTime = .at t →
    e.references.isSome = true → e'.infoTime = e.infoTime ∧ e'.references = e.references
  other : (∀ file, N file → Cache.keyOf s.dir file ≠ e.key) →
    e'.infoTime = e.infoTime ∧ e'.references = e.references

theorem Lasts.refl (s : Surroundings) (e : Entry) : Lasts s e e :=
  ⟨rfl, rfl, rfl, rfl, rfl, rfl, rfl, fun h => h, fun _ => rfl, fun _ => ⟨rfl, rfl⟩⟩

theorem Loads.refl (N : String → Prop) (s : Surroundings) (e : Entry) : Loads N s e e :=
  ⟨rfl, rfl, rfl, fun h => h, fun _ => rfl, fun _ => ⟨rfl, rfl⟩, fun _ => ⟨rfl, rfl, rfl⟩,
    fun _ _ _ _ _ => ⟨rfl, rfl⟩, fun _ => ⟨rfl, rfl⟩⟩

/-- A text that is current stays so where it is kept and what was seen of the file is, too. -/
private theorem isTextCurrent_of_kept (hset : e.current.isSet = true → e'.current = e.current)
    (htext : e.isTextCurrent = true → e'.text = e.text ∧ e'.textTime = e.textTime)
    (h : e.isTextCurrent = true) : e'.isTextCurrent = true := by
  obtain ⟨htext', htime⟩ := htext h
  rw [isTextCurrent_congr (hset (isSet_of_isTextCurrent h)) htext' htime]
  exact h

theorem isSourceCurrent_congr (htext : e'.isTextCurrent = e.isTextCurrent)
    (htime : e'.textTime = e.textTime) (hscript : e'.script = e.script)
    (hsource : e'.sourceTime = e.sourceTime) : e'.isSourceCurrent = e.isSourceCurrent := by
  unfold isSourceCurrent
  rw [htext, htime, hscript, hsource]

theorem isInfoCurrent_congr (hcur : e'.current = e.current) (hinfo : e'.infoTime = e.infoTime)
    (hrefs : e'.references = e.references) : e'.isInfoCurrent = e.isInfoCurrent := by
  unfold isInfoCurrent found
  rw [hcur, hinfo, hrefs]

theorem Lasts.isTextCurrent (h : Lasts s e e') (ht : e.isTextCurrent = true) :
    e'.isTextCurrent = true := isTextCurrent_of_kept h.set h.text ht

theorem Loads.isTextCurrent (h : Loads N s e e') (ht : e.isTextCurrent = true) :
    e'.isTextCurrent = true := isTextCurrent_of_kept h.set h.text ht

theorem Loads.isSourceCurrent (h : Loads N s e e') (hs : e.isSourceCurrent = true) :
    e'.isSourceCurrent = true := by
  have ht := isTextCurrent_of_isSourceCurrent hs
  obtain ⟨hscript, hsource, -⟩ := h.source hs
  rw [isSourceCurrent_congr (by rw [ht, h.isTextCurrent ht]) (h.text ht).2 hscript hsource]
  exact hs

theorem Lasts.trans (h : Lasts s e e') (h' : Lasts s e' e'') : Lasts s e e'' where
  fullName := h'.fullName.trans h.fullName
  key := h'.key.trans h.key
  script := h'.script.trans h.script
  sourceTime := h'.sourceTime.trans h.sourceTime
  diagnostics := h'.diagnostics.trans h.diagnostics
  references := h'.references.trans h.references
  infoTime := h'.infoTime.trans h.infoTime
  seen hseen := h'.seen (h.seen hseen)
  set hset := by
    have heq := h.set hset
    rw [h'.set (by rw [heq]; exact hset), heq]
  text ht := by
    obtain ⟨htext, htime⟩ := h.text ht
    obtain ⟨htext', htime'⟩ := h'.text (h.isTextCurrent ht)
    exact ⟨htext'.trans htext, htime'.trans htime⟩

theorem Loads.trans (h : Loads N s e e') (h' : Loads N s e' e'') : Loads N s e e'' where
  fullName := h'.fullName.trans h.fullName
  key := h'.key.trans h.key
  outputTime := h'.outputTime.trans h.outputTime
  seen hseen := h'.seen (h.seen hseen)
  set hset := by
    have heq := h.set hset
    rw [h'.set (by rw [heq]; exact hset), heq]
  text ht := by
    obtain ⟨htext, htime⟩ := h.text ht
    obtain ⟨htext', htime'⟩ := h'.text (h.isTextCurrent ht)
    exact ⟨htext'.trans htext, htime'.trans htime⟩
  source hs := by
    obtain ⟨h₁, h₂, h₃⟩ := h.source hs
    obtain ⟨h₁', h₂', h₃'⟩ := h'.source (h.isSourceCurrent hs)
    exact ⟨h₁'.trans h₁, h₂'.trans h₂, h₃'.trans h₃⟩
  info hseen t ht hinfo hrefs := by
    obtain ⟨h₁, h₂⟩ := h.info hseen t ht hinfo hrefs
    obtain ⟨h₁', h₂'⟩ := h'.info (h.seen hseen) t (by rw [h.fullName]; exact ht)
      (h₁.trans hinfo) (by rw [h₂]; exact hrefs)
    exact ⟨h₁'.trans h₁, h₂'.trans h₂⟩
  other hother := by
    obtain ⟨h₁, h₂⟩ := h.other hother
    obtain ⟨h₁', h₂'⟩ := h'.other (by rw [h.key]; exact hother)
    exact ⟨h₁'.trans h₁, h₂'.trans h₂⟩

/-- A loaded entry stays loaded. -/
theorem Loads.loaded (h : Loads N s e e') (hseen : e.Seen s.disk) (hl : e.Loaded) : e'.Loaded := by
  refine ⟨h.isSourceCurrent hl.source, ?_⟩
  obtain ⟨hfound, htime, hrefs⟩ := isInfoCurrent_iff.mp hl.info
  obtain ⟨t, hcur, hmod⟩ := hseen.at_of_found hfound
  obtain ⟨h₁, h₂⟩ := h.info hseen t hmod (htime.trans hcur) (Option.isSome_iff_exists.mpr hrefs)
  rw [isInfoCurrent_congr (h.set hl.isSet) h₁ h₂]
  exact hl.info

theorem Lasts.loaded (h : Lasts s e e') (hl : e.Loaded) : e'.Loaded := by
  refine ⟨?_, ?_⟩
  · rw [isSourceCurrent_congr (by rw [hl.text, h.isTextCurrent hl.text]) (h.text hl.text).2
      h.script h.sourceTime]
    exact hl.source
  · rw [isInfoCurrent_congr (h.set hl.isSet) h.infoTime h.references]
    exact hl.info

/-! ## What stays in a chain -/

theorem Reading.read (h : Reading s e e') : Read s e e' := by
  cases h with
  | look => exact Read.looked s e
  | text => exact Read.withText s e
  | buffer => exact Read.withBuffer s e

private theorem Read.seen_of_seen (h : Read s e e') (hseen : e.Seen s.disk) : e'.Seen s.disk := by
  unfold Seen
  rw [h.fullName]
  by_cases hset : e.current = .unset
  · exact h.unseen hset
  · have hisSet : e.current.isSet = true := by
      cases hcur : e.current with
      | unset => exact absurd hcur hset
      | missing => rfl
      | «at» t => rfl
    rw [h.seen hisSet]
    exact hseen

theorem Read.lasts (h : Read s e e') : Lasts s e e' :=
  ⟨h.fullName, h.key, h.script, h.sourceTime, h.diagnostics, h.references, h.infoTime,
    h.seen_of_seen, h.seen, h.text⟩

theorem Read.loads (N : String → Prop) (h : Read s e e') : Loads N s e e' :=
  ⟨h.fullName, h.key, h.outputTime, h.seen_of_seen, h.seen, h.text,
    fun _ => ⟨h.script, h.sourceTime, h.diagnostics⟩,
    fun _ _ _ _ _ => ⟨h.infoTime, h.references⟩, fun _ => ⟨h.infoTime, h.references⟩⟩

theorem Loading.loads (h : Loading N s e e') : Loads N s e e' := by
  cases h with
  | reading h => exact h.read.loads N
  | script h =>
    refine ⟨rfl, rfl, rfl, fun hseen => hseen, fun _ => rfl, fun _ => ⟨rfl, rfl⟩, fun hs => ?_,
      fun _ _ _ _ _ => ⟨rfl, rfl⟩, fun _ => ⟨rfl, rfl⟩⟩
    rw [h.outdated] at hs
    exact absurd hs (by simp)
  | @references file _ _ _ h =>
    refine ⟨rfl, rfl, rfl, fun hseen => hseen, fun _ => rfl, fun _ => ⟨rfl, rfl⟩,
      fun _ => ⟨rfl, rfl, rfl⟩, fun hseen t ht hinfo hrefs => ?_, fun hother => ?_⟩
    · -- what is recorded anew was not gathered of the file as it is
      obtain ⟨hfound, -⟩ := isTextCurrent_iff.mp (isTextCurrent_of_isSourceCurrent h.source)
      obtain ⟨u, hcur, hmod⟩ := hseen.at_of_found hfound
      rw [ht] at hmod
      have hout := h.outdated
      unfold isInfoCurrent at hout
      rw [hfound, hinfo, hcur, hrefs, Option.some.inj hmod] at hout
      simp at hout
    · exact absurd h.key.symm (hother file h.name)

theorem Marking.lasts (h : Marking s e e') : Lasts s e e' := by
  cases h with
  | reading h => exact h.read.lasts
  | mark f =>
    exact ⟨rfl, rfl, rfl, rfl, rfl, rfl, rfl, fun hseen => hseen, fun _ => rfl,
      fun _ => ⟨rfl, rfl⟩⟩

private theorem lasts_stamped (t : Stamp) : Lasts s e { e with outputTime := t } :=
  ⟨rfl, rfl, rfl, rfl, rfl, rfl, rfl, fun hseen => hseen, fun _ => rfl, fun _ => ⟨rfl, rfl⟩⟩

theorem Taking.lasts (h : Taking K s e e') : Lasts s e e' := by
  cases h with
  | reading h => exact h.read.lasts
  | took _ _ _ => exact lasts_stamped _
  | copied _ => exact lasts_stamped _

theorem Delivering.lasts (h : Delivering K s e e') : Lasts s e e' := by
  cases h with
  | taking h => exact h.lasts
  | stamp => exact lasts_stamped _

theorem loads_of_chain (h : Relation.ReflTransGen (Loading N s) e e') : Loads N s e e' := by
  induction h with
  | refl => exact Loads.refl N s e
  | tail _ hlast ih => exact ih.trans hlast.loads

theorem lasts_of_marking (h : Relation.ReflTransGen (Marking s) e e') :
    Lasts s e e' ∧ e'.outputTime = e.outputTime := by
  induction h with
  | refl => exact ⟨Lasts.refl s e, rfl⟩
  | tail _ hlast ih =>
    refine ⟨ih.1.trans hlast.lasts, ?_⟩
    rw [← ih.2]
    cases hlast with
    | reading h => exact h.read.outputTime
    | mark f => rfl

theorem Taking.freshness (h : Taking K s e e') : e'.freshness = e.freshness := by
  cases h with
  | reading h => exact h.read.freshness
  | took _ _ _ => rfl
  | copied _ => rfl

theorem lasts_of_taking (h : Relation.ReflTransGen (Taking K s) e e') : Lasts s e e' := by
  induction h with
  | refl => exact Lasts.refl s e
  | tail _ hlast ih => exact ih.trans hlast.lasts

theorem lasts_of_delivering (h : Relation.ReflTransGen (Delivering K s) e e') :
    Lasts s e e' ∧ e'.freshness = e.freshness := by
  induction h with
  | refl => exact ⟨Lasts.refl s e, rfl⟩
  | tail _ hlast ih =>
    refine ⟨ih.1.trans hlast.lasts, ?_⟩
    rw [← ih.2]
    cases hlast with
    | taking h => exact h.freshness
    | stamp => rfl

/-! ## Pieces and the disk -/

/-- A script that was read from what is on the disk, under one of the names `N`. -/
def Reads (N : String → Prop) (s : Surroundings) (e : Entry) (script : Script) : Prop :=
  ∃ file bytes, N file ∧ e.key = Cache.keyOf s.dir file ∧
    s.disk.content? e.fullName = some bytes ∧
    Script.read file (Text.ofBytes bytes) = .ok (script, e.diagnostics)

/-- References that were gathered from the script of the entry, under one of the names `N`. -/
def Gathers (N : String → Prop) (s : Surroundings) (e : Entry) (refs : References) : Prop :=
  ∃ file script deps, ∃ p : Project, N file ∧ e.key = Cache.keyOf s.dir file ∧
    e.script = some script ∧ p.config = s.config ∧ p.dir = s.dir ∧
    References.gather script deps (p.resourceName file) = .ok refs

/-- Every piece of an entry whose time is the file's time was made of the file as it is, and no
piece is newer than the clock. -/
structure Fits (N : String → Prop) (s : Surroundings) (e : Entry) : Prop where
  textTime : ∀ t, e.textTime = .at t → t ≤ s.disk.clock
  sourceTime : ∀ t, e.sourceTime = .at t → t ≤ s.disk.clock
  infoTime : ∀ t, e.infoTime = .at t → t ≤ s.disk.clock
  text : ∀ t text, e.textTime = .at t → e.text = some text →
    s.disk.modified? e.fullName = some t →
    ∃ bytes, s.disk.content? e.fullName = some bytes ∧ text = Text.ofBytes bytes
  script : ∀ t script, e.sourceTime = .at t → e.script = some script →
    s.disk.modified? e.fullName = some t → e.Reads N s script
  info : ∀ t refs, e.infoTime = .at t → e.references = some refs →
    s.disk.modified? e.fullName = some t → e.sourceTime = .at t ∧ e.Gathers N s refs

theorem Fits.blank (N : String → Prop) (s : Surroundings) (fullName key : String) :
    (Entry.blank fullName key).Fits N s where
  textTime t h := absurd h (by simp [Entry.blank])
  sourceTime t h := absurd h (by simp [Entry.blank])
  infoTime t h := absurd h (by simp [Entry.blank])
  text t text h := absurd h (by simp [Entry.blank])
  script t script h := absurd h (by simp [Entry.blank])
  info t refs h := absurd h (by simp [Entry.blank])

theorem Seen.blank (disk : Disk) (fullName key : String) :
    (Entry.blank fullName key).Seen disk := .inl rfl

/-- Only the pieces and the names of an entry matter for what it says about the disk. -/
theorem Fits.congr (h : e.Fits N s) (hname : e'.fullName = e.fullName) (hkey : e'.key = e.key)
    (htext : e'.text = e.text) (htextTime : e'.textTime = e.textTime)
    (hscript : e'.script = e.script) (hsourceTime : e'.sourceTime = e.sourceTime)
    (hds : e'.diagnostics = e.diagnostics) (hrefs : e'.references = e.references)
    (hinfoTime : e'.infoTime = e.infoTime) : e'.Fits N s := by
  constructor
  · rw [htextTime]
    exact h.textTime
  · rw [hsourceTime]
    exact h.sourceTime
  · rw [hinfoTime]
    exact h.infoTime
  · rw [htextTime, htext, hname]
    exact h.text
  · unfold Reads
    rw [hsourceTime, hscript, hname, hkey, hds]
    exact h.script
  · unfold Gathers
    rw [hinfoTime, hrefs, hname, hsourceTime, hkey, hscript]
    exact h.info

theorem Seen.le_clock {disk : Disk} (h : e.Seen disk) (hd : disk.Dated) {t : Nat}
    (hcur : e.current = .at t) : t ≤ disk.clock := by
  rcases h with hunset | hstamp
  · rw [hunset] at hcur
    exact absurd hcur (by simp)
  · rw [hstamp] at hcur
    exact hd _ _ (Disk.stamp_eq_at.mp hcur)

/-- A piece of an entry was made when the file had a time. -/
def MadeAt (e : Entry) (t : Nat) : Prop :=
  e.textTime = .at t ∨ e.sourceTime = .at t ∨ e.infoTime = .at t ∨ e.bufferTime = .at t

/-- What was seen of the file may have become wrong, but it is not newer than the disk, and where a
piece was made of the file as it is, the file was seen as it is, too. -/
structure Sighted (disk : Disk) (e : Entry) : Prop where
  le_clock : ∀ t, e.current = .at t → t ≤ disk.clock
  made : ∀ t, e.MadeAt t → disk.modified? e.fullName = some t → e.current.isSet = true →
    e.current = .at t

theorem Seen.sighted {disk : Disk} (h : e.Seen disk) (hd : disk.Dated) : e.Sighted disk := by
  refine ⟨fun t ht => h.le_clock hd ht, fun t _ hmod hset => ?_⟩
  rcases h with hunset | hstamp
  · rw [hunset] at hset
    exact absurd hset (by simp [Stamp.isSet])
  · rw [hstamp]
    exact Disk.stamp_eq_at.mpr hmod

theorem Reading.fits (h : Reading s e e') (hs : e.Sighted s.disk) (hf : e.Fits N s) :
    e'.Fits N s := by
  cases h with
  | look =>
    unfold looked
    split
    · exact hf
    · exact hf.congr rfl rfl rfl rfl rfl rfl rfl rfl rfl
  | text =>
    have hmissing : Fits N s { e with textTime := .missing } :=
      ⟨fun _ h => absurd h (by simp), hf.sourceTime, hf.infoTime, fun _ _ h => absurd h (by simp),
        hf.script, hf.info⟩
    unfold withText
    split
    · exact hmissing
    · split
      · exact hf
      · split
        · rename_i bytes hread
          refine ⟨hs.le_clock, hf.sourceTime, hf.infoTime, ?_, hf.script, hf.info⟩
          intro t text _ htext _
          exact ⟨bytes, Disk.content?_of_read? hread, (Option.some.inj htext).symm⟩
        · exact hmissing
  | buffer =>
    unfold withBuffer
    split
    · exact hf.congr rfl rfl rfl rfl rfl rfl rfl rfl rfl
    · split
      · exact hf
      · split
        · exact hf.congr rfl rfl rfl rfl rfl rfl rfl rfl rfl
        · exact hf.congr rfl rfl rfl rfl rfl rfl rfl rfl rfl

/-- A script that is kept was read from the text, which is what is on the disk. References that
were gathered before it are not those of the file as it is, or the script would have been kept. -/
theorem Fits.script_kept (hf : e.Fits N s) (hs : e.Sighted s.disk) {file : String} {sc : Script}
    {ds : List Diagnostic} (h : Frame.Parsing N s e file sc ds) :
    Fits N s { e with script := some sc, diagnostics := ds, sourceTime := e.textTime } := by
  obtain ⟨-, htime, text, htext⟩ := isTextCurrent_iff.mp h.text
  refine ⟨hf.textTime, hf.textTime, hf.infoTime, hf.text, ?_, ?_⟩
  · intro u script hu hscript hmod
    obtain ⟨bytes, hbytes, heq⟩ := hf.text u text hu htext hmod
    have hread := h.read
    rw [htext, heq] at hread
    rw [← Option.some.inj hscript]
    exact ⟨file, bytes, h.name, h.key, hbytes, hread⟩
  · intro u refs hinfo hrefs hmod
    exfalso
    obtain ⟨hsource, file', script, deps, p, -, -, hscript, -⟩ := hf.info u refs hinfo hrefs hmod
    have hseen := hs.made u (.inr (.inr (.inl hinfo))) hmod (isSet_of_isTextCurrent h.text)
    have hout := h.outdated
    unfold isSourceCurrent at hout
    rw [h.text, hsource, htime, hseen, hscript] at hout
    simp at hout

theorem Fits.references_kept (hf : e.Fits N s) (hs : e.Sighted s.disk) {file : String} {sc : Script}
    {deps : List (String × String)} {refs : References}
    (h : Frame.Gathering N s e file sc deps refs) :
    Fits N s { e with references := some refs, infoTime := e.current } := by
  refine ⟨hf.textTime, hf.sourceTime, hs.le_clock, hf.text, hf.script, ?_⟩
  intro t refs' hcur hrefs _
  obtain ⟨p, hconfig, hdir, hgather⟩ := h.gathered
  obtain ⟨htext, hsource, -⟩ := isSourceCurrent_iff.mp h.source
  obtain ⟨-, htime, -⟩ := isTextCurrent_iff.mp htext
  rw [← Option.some.inj hrefs]
  refine ⟨?_, file, sc, deps, p, h.name, h.key, h.hasScript, hconfig, hdir, hgather⟩
  change e.sourceTime = .at t
  rw [hsource, htime]
  exact hcur

/-- What an entry says about the disk is kept by all that a build does to it. -/
theorem Loading.fits (h : Loading N s e e') (hs : e.Sighted s.disk) (hf : e.Fits N s) :
    e'.Fits N s := by
  cases h with
  | reading h => exact h.fits hs hf
  | script h => exact hf.script_kept hs h
  | references h => exact hf.references_kept hs h

theorem Marking.fits (h : Marking s e e') (hs : e.Sighted s.disk) (hf : e.Fits N s) :
    e'.Fits N s := by
  cases h with
  | reading h => exact h.fits hs hf
  | mark f => exact hf.congr rfl rfl rfl rfl rfl rfl rfl rfl rfl

theorem Taking.fits (h : Taking K s e e') (hs : e.Sighted s.disk) (hf : e.Fits N s) :
    e'.Fits N s := by
  cases h with
  | reading h => exact h.fits hs hf
  | took _ _ _ => exact hf.congr rfl rfl rfl rfl rfl rfl rfl rfl rfl
  | copied _ => exact hf.congr rfl rfl rfl rfl rfl rfl rfl rfl rfl

theorem Delivering.fits (h : Delivering K s e e') (hs : e.Sighted s.disk) (hf : e.Fits N s) :
    e'.Fits N s := by
  cases h with
  | taking h => exact h.fits hs hf
  | stamp => exact hf.congr rfl rfl rfl rfl rfl rfl rfl rfl rfl

/-- What an entry says about the disk is kept by changes of the disk. -/
theorem Fits.of_changes (hf : e.Fits N s) {disk : Disk} (h : s.disk.Changes disk) :
    e.Fits N { s with disk } := by
  refine ⟨fun t ht => Nat.le_trans (hf.textTime t ht) h.clock,
    fun t ht => Nat.le_trans (hf.sourceTime t ht) h.clock,
    fun t ht => Nat.le_trans (hf.infoTime t ht) h.clock, ?_, ?_, ?_⟩
  · intro t text ht htext hmod
    obtain ⟨hmod', hcontent⟩ := h.same _ t hmod (hf.textTime t ht)
    obtain ⟨bytes, hbytes, heq⟩ := hf.text t text ht htext hmod'
    exact ⟨bytes, hcontent.trans hbytes, heq⟩
  · intro t script ht hscript hmod
    obtain ⟨hmod', hcontent⟩ := h.same _ t hmod (hf.sourceTime t ht)
    obtain ⟨file, bytes, hN, hkey, hbytes, hread⟩ := hf.script t script ht hscript hmod'
    exact ⟨file, bytes, hN, hkey, hcontent.trans hbytes, hread⟩
  · intro t refs ht hrefs hmod
    obtain ⟨hmod', -⟩ := h.same _ t hmod (hf.infoTime t ht)
    exact hf.info t refs ht hrefs hmod'

end Entry

end Bundler

/-
Two workspaces that go the same way.

One workspace has a past: its cache holds what earlier cycles made, and its log and its output have
what they said and wrote. The other one begins from nothing, on the same disk and with the same
settings. The two are twins (`Workspace.Twins`) where nothing that a build looks at tells them apart.
An entry of the one and the entry of the other with the same key have the same full name, the same
references as far as these are recorded, and it is the same for both whether the file is newer than
its copy (`Entry.Twin`). Texts, bytes and scripts need not be compared, because in both workspaces
they are what the disk has. Entries that only the first workspace has are those of files that the
other one has not met; nothing is recorded of them, and they are spelled as in the past.

The project of the first workspace is that of the other one with the past before its log and its
writes, and it may differ in what is overwritten or never looked at (`Project.Recalls`).

All that is written here as a relation of states becomes a coupling (`Past.coupling`), and the steps
that a build is made of keep it. Files that two workspaces refer to by one name are the same only if
no key has two spellings, so this is what has to be fine at the end of the second run.
-/
import Bundler.Proofs.Delivery
import Bundler.Proofs.Lockstep
import Bundler.Proofs.Rereading

set_option autoImplicit false

namespace Bundler

open Workspace Step

/-! ## Entries by their keys -/

namespace Cache

variable {dir name key : String} {c c' : Cache} {i : Nat} {e : Entry}

/-- The entry with a key. -/
def at? (c : Cache) (key : String) : Option Entry := (c.indexOf? key).map c.entry

theorem at?_of_find? (h : c.find? dir name = some i) :
    c.at? (keyOf dir name) = some (c.entry i) := congrArg (Option.map c.entry) h

theorem find?_of_at? (h : c.at? (keyOf dir name) = some e) :
    ∃ i, c.find? dir name = some i ∧ c.entry i = e := Option.map_eq_some_iff.mp h

theorem at?_some (h : c.at? key = some e) : ∃ i, i < c.entries.length ∧ c.entry i = e ∧ e.key = key := by
  obtain ⟨i, hi, rfl⟩ := Option.map_eq_some_iff.mp h
  obtain ⟨hlt, hkey⟩ := indexOf?_some hi
  exact ⟨i, hlt, rfl, hkey⟩

theorem indexOf?_eq_keys (c : Cache) (key : String) :
    c.indexOf? key = c.keys.findIdx? fun k => k == key := by
  unfold indexOf? keys
  rw [List.findIdx?_map]
  rfl

theorem at?_modify {f : Entry → Entry} (hf : ∀ e, (f e).key = e.key)
    (h : c.find? dir name = some i) (key : String) :
    (c.modify i f).at? key = if key = keyOf dir name then some (f (c.entry i)) else c.at? key := by
  have hindex : (c.modify i f).indexOf? key = c.indexOf? key := by
    rw [indexOf?_eq_keys, keys_modify hf, ← indexOf?_eq_keys]
  obtain ⟨hi, hkey⟩ := find?_some h
  unfold at?
  rw [hindex]
  by_cases heq : key = keyOf dir name
  · have hsome : c.indexOf? key = some i := by
      rw [heq]
      exact h
    rw [if_pos heq, hsome, Option.map_some, entry_modify_self f hi]
  · rw [if_neg heq]
    cases hj : c.indexOf? key with
    | none => rfl
    | some j =>
      have hne : i ≠ j := fun hij => heq (by rw [← (indexOf?_some hj).2, ← hij, hkey])
      rw [Option.map_some, Option.map_some, entry_modify_ne f hne]

theorem at?_mapEntries {f : Entry → Entry} (hf : ∀ e, (f e).key = e.key) (key : String) :
    (c.mapEntries f).at? key = (c.at? key).map f := by
  have hindex : (c.mapEntries f).indexOf? key = c.indexOf? key := by
    rw [indexOf?_eq_keys, keys_mapEntries hf, ← indexOf?_eq_keys]
  unfold at?
  rw [hindex]
  cases hj : c.indexOf? key with
  | none => rfl
  | some j =>
    rw [Option.map_some, Option.map_some, Option.map_some, entry_mapEntries f (indexOf?_some hj).1]

theorem at?_get (h : c.find? dir name = none) (key : String) :
    (c.get dir name).2.at? key
      = if key = keyOf dir name then some (.blank (canonicalName dir name) (keyOf dir name))
        else c.at? key := by
  rw [get_of_not_find? h]
  unfold at? indexOf?
  simp only
  rw [List.findIdx?_append]
  have hblank : (Entry.blank (canonicalName dir name) (keyOf dir name)).key = keyOf dir name := rfl
  by_cases heq : key = keyOf dir name
  · have hnone : c.entries.findIdx? (fun e => e.key == key) = none := by
      rw [heq]
      exact h
    rw [if_pos heq, hnone]
    simp [List.findIdx?_cons, hblank, heq, entry]
  · rw [if_neg heq]
    cases hj : c.entries.findIdx? (fun e => e.key == key) with
    | none =>
      have hne : ¬ keyOf dir name = key := fun h => heq h.symm
      simp [List.findIdx?_cons, hblank, hne]
    | some j =>
      have hlt : j < c.entries.length := (indexOf?_some hj).1
      simp [entry, List.getElem?_append_left hlt]

theorem at?_congr (h : c'.entries = c.entries) (key : String) : c'.at? key = c.at? key := by
  have hentry : c'.entry = c.entry := funext fun i => by unfold entry; rw [h]
  unfold at? indexOf?
  rw [h, hentry]

/-- An entry is found under its key in every later cache. -/
theorem Advances.at? {P : Entry → Entry → Prop} (h : Advances dir P c c')
    (he : c.at? key = some e) : ∃ e', c'.at? key = some e' ∧ P e e' := by
  obtain ⟨i, hi, rfl⟩ := Option.map_eq_some_iff.mp he
  refine ⟨c'.entry i, ?_, h.old i (indexOf?_some hi).1⟩
  obtain ⟨more, hmore⟩ := h.keys
  unfold Cache.at?
  rw [indexOf?_eq_keys, ← hmore, List.findIdx?_append, ← indexOf?_eq_keys, hi]
  rfl

end Cache

/-! ## Entries of a running cycle -/

namespace Entry

variable {N : String → Prop} {s : Surroundings} {e e' : Entry} {disk : Disk} {old : Option Entry}

/-- What an entry holds while a cycle runs that builds everything anew: what was seen of the file is
what there is, what is kept of it is what would be read, references are recorded of files that were
looked at, and no mark is older than the file. -/
structure Reliable (N : String → Prop) (s : Surroundings) (e : Entry) : Prop where
  seen : e.Seen s.disk
  faithful : e.Faithful N s
  legible : e.Legible s.disk
  graspable : e.Graspable s.disk
  recent : e.infoTime.isSet = true → e.current.isSet = true
  timely : ∀ t, e.freshness.time? = some t →
    ∃ own, s.disk.modified? e.fullName = some own ∧ own ≤ t

theorem Reliable.blank (N : String → Prop) (s : Surroundings) (fullName key : String) :
    (Entry.blank fullName key).Reliable N s :=
  ⟨Seen.blank _ _ _, Faithful.blank _ _ _ _, Legible.blank _ _ _,
    (Rereadable.blank N s fullName key).graspable,
    fun h => absurd h (by simp [Entry.blank, Stamp.isSet]),
    fun _ h => absurd h (by simp [Entry.blank, Freshness.time?])⟩

theorem Read.recent (h : Read s e e') (he : e.infoTime.isSet = true → e.current.isSet = true) :
    e'.infoTime.isSet = true → e'.current.isSet = true := by
  intro hset
  rw [h.infoTime] at hset
  rw [h.seen (he hset)]
  exact he hset

theorem Building.recent (h : Building N s e e')
    (he : e.infoTime.isSet = true → e.current.isSet = true) :
    e'.infoTime.isSet = true → e'.current.isSet = true := by
  cases h with
  | loading h =>
    cases h with
    | reading h => exact h.read.recent he
    | script h => exact he
    | references h => exact fun _ => isSet_of_isTextCurrent (isTextCurrent_of_isSourceCurrent h.source)
  | delivering h =>
    cases h with
    | taking h =>
      cases h with
      | reading h => exact h.read.recent he
      | took _ _ _ => exact he
      | copied _ => exact he
    | stamp => exact he
  | mark f => exact he

/-- A change that a build makes, marks apart. A stamp may be any. -/
structure Working (N : String → Prop) (s : Surroundings) (e e' : Entry) : Prop where
  made : Building N s e e' ∨ ∃ t, e' = { e with outputTime := t }
  fullName : e'.fullName = e.fullName
  freshness : e'.freshness = e.freshness

theorem Working.refl (N : String → Prop) (s : Surroundings) (e : Entry) : Working N s e e :=
  ⟨.inr ⟨e.outputTime, rfl⟩, rfl, rfl⟩

theorem Working.stamp (N : String → Prop) (s : Surroundings) (e : Entry) (t : Stamp) :
    Working N s e { e with outputTime := t } := ⟨.inr ⟨t, rfl⟩, rfl, rfl⟩

theorem Reading.working (h : Reading s e e') : Working N s e e' :=
  ⟨.inl (.loading (.reading h)), h.read.fullName, h.read.freshness⟩

theorem Working.reliable (h : Working N s e e') (hd : s.disk.Dated) (he : e.Reliable N s) :
    e'.Reliable N s := by
  have htimely : ∀ t, e'.freshness.time? = some t →
      ∃ own, s.disk.modified? e'.fullName = some own ∧ own ≤ t := by
    rw [h.freshness, h.fullName]
    exact he.timely
  rcases h.made with hb | ⟨t, rfl⟩
  · exact ⟨hb.seen he.seen, hb.faithful hd he.faithful, hb.legible he.legible,
      hb.graspable he.graspable, hb.recent he.recent, htimely⟩
  · exact ⟨he.seen, he.faithful.of_same_pieces rfl rfl rfl rfl rfl rfl rfl rfl rfl rfl rfl rfl,
      he.legible.congr rfl rfl rfl, he.graspable.congr rfl rfl rfl, he.recent, htimely⟩

theorem Reliable.marked (he : e.Reliable N s) (hd : s.disk.Dated) {f : Freshness}
    (hf : ∀ t, f.time? = some t → ∃ own, s.disk.modified? e.fullName = some own ∧ own ≤ t) :
    Reliable N s { e with freshness := f } := by
  have hb : Building N s e { e with freshness := f } := .mark e f
  exact ⟨hb.seen he.seen, hb.faithful hd he.faithful, hb.legible he.legible,
    hb.graspable he.graspable, hb.recent he.recent, hf⟩

/-- Whether the file is newer than its copy, whether it was looked at or not. -/
def isDue (disk : Disk) (e : Entry) : Bool :=
  match disk.modified? e.fullName, e.outputTime.time? with
  | some now, some output => output < now
  | some _, none => true
  | none, _ => false

theorem current_eq (h : e.Seen disk) (hset : e.current.isSet = true) :
    e.current = disk.stamp e.fullName := by
  rcases h with hunset | hstamp
  · rw [hunset] at hset
    exact absurd hset (by simp [Stamp.isSet])
  · exact hstamp

theorem needsCopy_eq_isDue (h : e.Seen disk) (hset : e.current.isSet = true) :
    e.needsCopy = e.isDue disk := by
  have hcur : e.current.time? = disk.modified? e.fullName := by
    rw [current_eq h hset, Disk.stamp_time?]
  cases hmod : disk.modified? e.fullName <;> cases hout : e.outputTime.time? <;>
    simp only [needsCopy, isDue, hcur, hmod, hout]

/-! ## What an entry hands out stays -/

/-- What is current of an entry stays, and so do its names and what was seen of the file. -/
structure Grows (e e' : Entry) : Prop where
  fullName : e'.fullName = e.fullName
  key : e'.key = e.key
  seen : e.current.isSet = true → e'.current = e.current
  text : e.isTextCurrent = true → e'.text = e.text ∧ e'.textTime = e.textTime
  source : e.isSourceCurrent = true →
    e'.script = e.script ∧ e'.sourceTime = e.sourceTime ∧ e'.diagnostics = e.diagnostics
  info : e.isInfoCurrent = true → e'.references = e.references ∧ e'.infoTime = e.infoTime

theorem Grows.refl (e : Entry) : Grows e e :=
  ⟨rfl, rfl, fun _ => rfl, fun _ => ⟨rfl, rfl⟩, fun _ => ⟨rfl, rfl, rfl⟩, fun _ => ⟨rfl, rfl⟩⟩

theorem Grows.isTextCurrent (h : Grows e e') (ht : e.isTextCurrent = true) :
    e'.isTextCurrent = true := by
  obtain ⟨htext, htime⟩ := h.text ht
  rw [isTextCurrent_congr (h.seen (isSet_of_isTextCurrent ht)) htext htime]
  exact ht

theorem Grows.isSourceCurrent (h : Grows e e') (hs : e.isSourceCurrent = true) :
    e'.isSourceCurrent = true := by
  have ht := isTextCurrent_of_isSourceCurrent hs
  obtain ⟨hscript, hsource, -⟩ := h.source hs
  rw [isSourceCurrent_congr (by rw [ht, h.isTextCurrent ht]) (h.text ht).2 hscript hsource]
  exact hs

theorem Grows.isInfoCurrent (h : Grows e e') (hi : e.isInfoCurrent = true) :
    e'.isInfoCurrent = true := by
  obtain ⟨hrefs, hinfo⟩ := h.info hi
  rw [isInfoCurrent_congr (h.seen (isSet_of_isInfoCurrent hi)) hinfo hrefs]
  exact hi

theorem Grows.loaded (h : Grows e e') (hl : e.Loaded) : e'.Loaded :=
  ⟨h.isSourceCurrent hl.source, h.isInfoCurrent hl.info⟩

theorem Grows.references? {refs : References} (h : Grows e e') (hr : e.references? = some refs) :
    e'.references? = some refs := by
  have hi := isInfoCurrent_of_references? hr
  obtain ⟨hrefs, hinfo⟩ := h.info hi
  rw [references?_congr (h.seen (isSet_of_isInfoCurrent hi)) hinfo hrefs]
  exact hr

theorem Grows.trans {e'' : Entry} (h : Grows e e') (h' : Grows e' e'') : Grows e e'' where
  fullName := h'.fullName.trans h.fullName
  key := h'.key.trans h.key
  seen hset := by
    have heq := h.seen hset
    rw [h'.seen (by rw [heq]; exact hset), heq]
  text ht := by
    obtain ⟨htext, htime⟩ := h.text ht
    obtain ⟨htext', htime'⟩ := h'.text (h.isTextCurrent ht)
    exact ⟨htext'.trans htext, htime'.trans htime⟩
  source hs := by
    obtain ⟨h₁, h₂, h₃⟩ := h.source hs
    obtain ⟨h₁', h₂', h₃'⟩ := h'.source (h.isSourceCurrent hs)
    exact ⟨h₁'.trans h₁, h₂'.trans h₂, h₃'.trans h₃⟩
  info hi := by
    obtain ⟨h₁, h₂⟩ := h.info hi
    obtain ⟨h₁', h₂'⟩ := h'.info (h.isInfoCurrent hi)
    exact ⟨h₁'.trans h₁, h₂'.trans h₂⟩

theorem Read.grows (h : Read s e e') : Grows e e' :=
  ⟨h.fullName, h.key, h.seen, h.text, fun _ => ⟨h.script, h.sourceTime, h.diagnostics⟩,
    fun _ => ⟨h.references, h.infoTime⟩⟩

theorem Grows.of_stamps (e : Entry) (t : Stamp) (f : Freshness) :
    Grows e { e with outputTime := t, freshness := f } :=
  ⟨rfl, rfl, fun _ => rfl, fun _ => ⟨rfl, rfl⟩, fun _ => ⟨rfl, rfl, rfl⟩, fun _ => ⟨rfl, rfl⟩⟩

/-! ## Twins -/

/-- Whether a script was read of the file in the past. -/
def ParsedBefore (old : Option Entry) : Prop := ∃ o, old = some o ∧ o.script.isSome = true

/-- Two entries of one file of which a build makes the same, as far as they do not say what the disk
has. The first may have a script that was read in the past. -/
structure Twin (disk : Disk) (old : Option Entry) (e e' : Entry) : Prop where
  fullName : e'.fullName = e.fullName
  infoTime : e'.infoTime = e.infoTime
  references : e.infoTime.isSet = true → e'.references = e.references
  due : e'.isDue disk = e.isDue disk
  parsed : e'.script.isSome = true → e.isSourceCurrent = true ∧ e'.isSourceCurrent = true
  kept : e.script.isSome = true → e'.script.isSome = true ∨ ParsedBefore old

theorem Twin.blank (disk : Disk) (old : Option Entry) (fullName key : String) :
    Twin disk old (.blank fullName key) (.blank fullName key) :=
  ⟨rfl, rfl, fun _ => rfl, rfl, fun h => absurd h (by simp [Entry.blank]), fun h => .inl h⟩

theorem isDue_congr (hname : e'.fullName = e.fullName) (hout : e'.outputTime = e.outputTime) :
    e'.isDue disk = e.isDue disk := by
  unfold isDue
  rw [hname, hout]

/-- What does not concern names, references, scripts and stamps keeps entries twins. -/
theorem Twin.congr {d d' : Entry} (h : Twin disk old e e') (hgrows : Grows e d)
    (hgrows' : Grows e' d') (hinfo : d.infoTime = e.infoTime) (hrefs : d.references = e.references)
    (hscript : d.script = e.script) (hinfo' : d'.infoTime = e'.infoTime)
    (hrefs' : d'.references = e'.references) (hscript' : d'.script = e'.script)
    (hdue : d'.isDue disk = d.isDue disk) : Twin disk old d d' := by
  refine ⟨?_, ?_, ?_, hdue, ?_, ?_⟩
  · rw [hgrows.fullName, hgrows'.fullName, h.fullName]
  · rw [hinfo, hinfo', h.infoTime]
  · rw [hinfo, hrefs, hrefs']
    exact h.references
  · rw [hscript']
    intro hsome
    obtain ⟨hs, hs'⟩ := h.parsed hsome
    exact ⟨hgrows.isSourceCurrent hs, hgrows'.isSourceCurrent hs'⟩
  · rw [hscript, hscript']
    exact h.kept

theorem Twin.of_reading {s' : Surroundings} {d d' : Entry} (h : Twin disk old e e')
    (hd : Read s e d) (hd' : Read s' e' d') : Twin disk old d d' :=
  h.congr hd.grows hd'.grows hd.infoTime hd.references hd.script hd'.infoTime hd'.references hd'.script
    (by rw [isDue_congr hd.fullName hd.outputTime, isDue_congr hd'.fullName hd'.outputTime, h.due])

section

variable (h : Twin disk old e e') (hseen : e.Seen disk) (hseen' : e'.Seen disk)
  (hset : e.current.isSet = true) (hset' : e'.current.isSet = true)

include h hseen hseen' hset hset'

theorem Twin.current : e'.current = e.current := by
  rw [current_eq hseen hset, current_eq hseen' hset', h.fullName]

theorem Twin.found : e'.found = e.found := by
  unfold Entry.found
  rw [h.current hseen hseen' hset hset']

theorem Twin.needsCopy : e'.needsCopy = e.needsCopy := by
  rw [needsCopy_eq_isDue hseen hset, needsCopy_eq_isDue hseen' hset', h.due]

theorem Twin.isInfoCurrent : e'.isInfoCurrent = e.isInfoCurrent := by
  unfold Entry.isInfoCurrent
  rw [h.found hseen hseen' hset hset', h.current hseen hseen' hset hset', h.infoTime]
  by_cases hinfo : e.infoTime.isSet = true
  · rw [h.references hinfo]
  · have hne : (e.infoTime == e.current) = false := by
      rw [beq_eq_false_iff_ne]
      intro heq
      rw [heq] at hinfo
      exact hinfo hset
    simp [hne]

theorem Twin.references? : e'.references? = e.references? := by
  unfold Entry.references?
  rw [h.isInfoCurrent hseen hseen' hset hset']
  split
  · rename_i hcur
    obtain ⟨-, htime, -⟩ := Entry.isInfoCurrent_iff.mp hcur
    exact h.references (by rw [htime]; exact hset)
  · rfl

end

/-- Two entries of a file, of which only the first may be known from before: the other one begins
blank, so nothing is recorded of a file that it does not know. -/
inductive Matched (disk : Disk) (old : Option Entry) : Option Entry → Option Entry → Prop where
  | absent : Matched disk old none none
  | alone {e : Entry} (hname : old.map Entry.fullName = some e.fullName)
      (hinfo : e.infoTime = .unset) (hout : e.outputTime = .unset)
      (hkept : e.script.isSome = true → ParsedBefore old) : Matched disk old (some e) none
  | both {e e' : Entry} (h : Twin disk old e e') : Matched disk old (some e) (some e')

/-- Marks and looks keep entries matched. -/
theorem Matched.map {o o' : Option Entry} {f f' : Entry → Entry} (h : Matched disk old o o')
    (hf : ∀ e, Grows e (f e) ∧ (f e).infoTime = e.infoTime ∧ (f e).references = e.references ∧
      (f e).script = e.script ∧ (f e).outputTime = e.outputTime)
    (hf' : ∀ e, Grows e (f' e) ∧ (f' e).infoTime = e.infoTime ∧ (f' e).references = e.references ∧
      (f' e).script = e.script ∧ (f' e).outputTime = e.outputTime) :
    Matched disk old (o.map f) (o'.map f') := by
  cases h with
  | absent => exact .absent
  | @alone e ho hinfo hout hkept =>
    obtain ⟨hgrows, hinfo₁, -, hscript, hout₁⟩ := hf e
    exact .alone (by rw [ho, hgrows.fullName]) (hinfo₁.trans hinfo) (hout₁.trans hout)
      (by rw [hscript]; exact hkept)
  | @both e e' h =>
    obtain ⟨hgrows, hinfo, hrefs, hscript, hout⟩ := hf e
    obtain ⟨hgrows', hinfo', hrefs', hscript', hout'⟩ := hf' e'
    exact .both (h.congr hgrows hgrows' hinfo hrefs hscript hinfo' hrefs' hscript' (by
      rw [isDue_congr hgrows.fullName hout, isDue_congr hgrows'.fullName hout', h.due]))

end Entry

/-- The frame of builds that load files under the names `N`, marks apart. -/
def Frame.works (N : String → Prop) : Frame :=
  chains (Entry.Working N) (fun _ _ => True) (fun _ => trivial) fun _ _ => trivial

/-! ## Workspaces -/

/-- What a session has behind it when it builds everything anew: its settings, by which sprites are
not merged, the names under which files are loaded, one for each file, and what is in its cache, its
log and its output by then. -/
structure Past where
  config : Config
  plain : config.spriteMerge = false
  dir : String
  names : String → Prop
  one : ∀ a b, names a → names b → Cache.keyOf dir a = Cache.keyOf dir b → a = b
  cache : Cache
  log : List String
  writes : List (String × Bytes)

/-- A project behind a past: with what was said and written before, and with what another project has
of the things that a build overwrites or does not look at. -/
def Project.behind (p : Project) (past : Past) (q : Project) : Project :=
  { p with
    log := past.log ++ p.log
    output := ⟨q.output.files, past.writes ++ p.output.writes, p.output.failing⟩
    reports := q.reports
    atlas := q.atlas
    bundlePng := q.bundlePng
    htmlHead := q.htmlHead }

/-- Two projects of which the first has a past. Neither translates messages. -/
structure Project.Recalls (past : Past) (p p' : Project) : Prop where
  behind : ∃ q, p = p'.behind past q
  config : p'.config = past.config
  dir : p'.dir = past.dir
  untranslated : p'.catalogue = none

namespace Workspace

variable {past : Past} {N : String → Prop} {w w' : Workspace} {name : String} {i i' : Nat}

/-- A workspace in which a cycle runs that builds everything anew. -/
structure Reliable (N : String → Prop) (w : Workspace) : Prop where
  destination : w.destination = none
  dated : w.disk.Dated
  distinct : w.cache.KeysDistinct
  entries : ∀ i, i < w.cache.entries.length → (w.cache.entry i).Reliable N w.surroundings

theorem Reliable.of_moves (h : w.Reliable N) (hm : (Frame.works N).Moves w w') :
    w'.Reliable N where
  destination := hm.destination
  dated := by
    rw [hm.disk]
    exact h.dated
  distinct := hm.cache.distinct h.distinct
  entries := by
    rw [hm.surroundings]
    exact hm.cache.keeps (fun _ _ hone => hone.reliable h.dated)
      (fun _ => Entry.Reliable.blank _ _ _ _) h.entries

theorem Reliable.at? (h : w.Reliable N) {key : String} {e : Entry} (he : w.cache.at? key = some e) :
    e.Reliable N w.surroundings := by
  obtain ⟨i, hi, rfl, -⟩ := Cache.at?_some he
  exact h.entries i hi

/-- Two workspaces that go the same way, of which the first has a past. -/
structure Twins (past : Past) (w w' : Workspace) : Prop where
  left : w.Reliable past.names
  right : w'.Reliable past.names
  disk : w'.disk = w.disk
  phase : w'.phase = w.phase
  project : Project.Recalls past w.project w'.project
  cache : ∀ key,
    Entry.Matched w.disk (past.cache.at? key) (w.cache.at? key) (w'.cache.at? key)

theorem Twins.config (h : Twins past w w') : w'.project.config = w.project.config := by
  obtain ⟨q, hq⟩ := h.project.behind
  rw [hq]
  rfl

theorem Twins.dir (h : Twins past w w') : w'.project.dir = w.project.dir := by
  obtain ⟨q, hq⟩ := h.project.behind
  rw [hq]
  rfl

theorem Twins.surroundings (h : Twins past w w') : w'.surroundings = w.surroundings := by
  unfold Workspace.surroundings
  rw [h.disk, h.config, h.dir]

/-- The entries of one name are twins. -/
theorem Twins.entry (h : Twins past w w') (hi : w.cache.find? w.project.dir name = some i)
    (hi' : w'.cache.find? w'.project.dir name = some i') :
    Entry.Twin w.disk (past.cache.at? (Cache.keyOf w.project.dir name)) (w.cache.entry i)
      (w'.cache.entry i') := by
  have hmatched := h.cache (Cache.keyOf w.project.dir name)
  rw [h.dir] at hi'
  rw [Cache.at?_of_find? hi, Cache.at?_of_find? hi'] at hmatched
  cases hmatched with
  | both h => exact h

/-- A name that the second workspace knows is known to the first. -/
theorem Twins.known (h : Twins past w w') (hi' : w'.cache.find? w'.project.dir name = some i') :
    ∃ i, w.cache.find? w.project.dir name = some i := by
  have hmatched := h.cache (Cache.keyOf w.project.dir name)
  rw [h.dir] at hi'
  rw [Cache.at?_of_find? hi'] at hmatched
  cases hat : w.cache.at? (Cache.keyOf w.project.dir name) with
  | none =>
    rw [hat] at hmatched
    cases hmatched
  | some e =>
    obtain ⟨i, hi, -⟩ := Cache.find?_of_at? hat
    exact ⟨i, hi⟩

/-- Of a cache only the entries matter. -/
theorem Twins.of_entries (h : Twins past w w') {c c' : Cache} (hc : c.entries = w.cache.entries)
    (hc' : c'.entries = w'.cache.entries) :
    Twins past { w with cache := c } { w' with cache := c' } where
  left := h.left.of_moves ⟨rfl, rfl, h.left.destination, rfl, trivial,
    Cache.Advances.of_entries_eq (fun _ => Relation.ReflTransGen.refl) hc⟩
  right := h.right.of_moves ⟨rfl, rfl, h.right.destination, rfl, trivial,
    Cache.Advances.of_entries_eq (fun _ => Relation.ReflTransGen.refl) hc'⟩
  disk := h.disk
  phase := h.phase
  project := h.project
  cache key := by
    rw [Cache.at?_congr hc, Cache.at?_congr hc']
    exact h.cache key

/-- A change of both projects. -/
theorem Twins.of_project (h : Twins past w w') {p p' : Project} (hp : Project.Recalls past p p') :
    Twins past { w with project := p } { w' with project := p' } := by
  obtain ⟨q, hq⟩ := hp.behind
  have hconfig : p'.config = w'.project.config := hp.config.trans h.project.config.symm
  have hdir' : p'.dir = w'.project.dir := hp.dir.trans h.project.dir.symm
  have hdir : p.dir = w.project.dir := by
    rw [← h.dir, ← hdir', hq]
    rfl
  have hconfig₁ : p.config = w.project.config := by
    rw [← h.config, ← hconfig, hq]
    rfl
  exact ⟨h.left.of_moves ⟨hconfig₁, hdir, h.left.destination, rfl, trivial,
      Cache.Advances.refl (fun _ => Relation.ReflTransGen.refl) _⟩,
    h.right.of_moves ⟨hconfig, hdir', h.right.destination, rfl, trivial,
      Cache.Advances.refl (fun _ => Relation.ReflTransGen.refl) _⟩,
    h.disk, h.phase, hp, h.cache⟩

/-- A change of the entries of one name. -/
theorem Twins.changed (h : Twins past w w') {f f' : Entry → Entry}
    (hi : w.cache.find? w.project.dir name = some i)
    (hi' : w'.cache.find? w'.project.dir name = some i') (hkey : ∀ e, (f e).key = e.key)
    (hkey' : ∀ e, (f' e).key = e.key)
    (hleft : Entry.Working past.names w.surroundings (w.cache.entry i) (f (w.cache.entry i)))
    (hright : Entry.Working past.names w'.surroundings (w'.cache.entry i')
      (f' (w'.cache.entry i')))
    (htwin : Entry.Twin w.disk (past.cache.at? (Cache.keyOf w.project.dir name))
      (f (w.cache.entry i)) (f' (w'.cache.entry i'))) :
    Twins past (w.changed i f) (w'.changed i' f') where
  left := h.left.of_moves ⟨rfl, rfl, h.left.destination, rfl, trivial,
    Cache.Advances.modify (fun _ => Relation.ReflTransGen.refl) hkey fun _ => .single hleft⟩
  right := h.right.of_moves ⟨rfl, rfl, h.right.destination, rfl, trivial,
    Cache.Advances.modify (fun _ => Relation.ReflTransGen.refl) hkey' fun _ => .single hright⟩
  disk := h.disk
  phase := h.phase
  project := h.project
  cache key := by
    change Entry.Matched w.disk _ ((w.cache.modify i f).at? key) ((w'.cache.modify i' f').at? key)
    rw [h.dir] at hi'
    rw [Cache.at?_modify hkey hi, Cache.at?_modify hkey' hi']
    split
    · rename_i hname
      rw [hname]
      exact .both htwin
    · exact h.cache key

/-- The workspace once a name was asked for. -/
def got (w : Workspace) (name : String) : Workspace :=
  { w with cache := (w.cache.get w.project.dir name).2 }

/-- Files that an earlier cache has as well are spelled as there. -/
def SpeltAs (w : Workspace) (before : Cache) : Prop :=
  ∀ key o e, before.at? key = some o → w.cache.at? key = some e → e.fullName = o.fullName

/-- A module with values for its constants is defined in a file that has been read, if the file was
read when an earlier cache was made. -/
def Overridable (w : Workspace) (config : Config) (before : Cache) : Prop :=
  ∀ m ∈ config.constantOverrides.toList, ∀ info, w.project.modules.get? m.1 = some info →
    Entry.ParsedBefore (before.at? (Cache.keyOf w.project.dir info.definition)) →
    ∃ e, w.cache.at? (Cache.keyOf w.project.dir info.definition) = some e ∧ e.script.isSome = true

/-- A name that is asked for in both. -/
theorem Twins.got (h : Twins past w w') (hspelt : (w'.got name).SpeltAs past.cache) :
    Twins past (w.got name) (w'.got name) where
  left := h.left.of_moves ⟨rfl, rfl, h.left.destination, rfl, trivial,
    Cache.Advances.get (fun _ => Relation.ReflTransGen.refl) _ _ _⟩
  right := h.right.of_moves ⟨rfl, rfl, h.right.destination, rfl, trivial,
    Cache.Advances.get (fun _ => Relation.ReflTransGen.refl) _ _ _⟩
  disk := h.disk
  phase := h.phase
  project := h.project
  cache key := by
    unfold Workspace.got
    simp only [h.dir]
    cases hi' : w'.cache.find? w.project.dir name with
    | some i' =>
      obtain ⟨i, hi⟩ := h.known (by rw [h.dir]; exact hi')
      rw [Cache.get_of_find? hi', Cache.get_of_find? hi]
      exact h.cache key
    | none =>
      have hat' : w'.cache.at? (Cache.keyOf w.project.dir name) = none := by
        cases hat : w'.cache.at? (Cache.keyOf w.project.dir name) with
        | none => rfl
        | some e =>
          obtain ⟨i', hsome, -⟩ := Cache.find?_of_at? hat
          rw [hi'] at hsome
          exact absurd hsome (by simp)
      rw [Cache.at?_get hi']
      cases hi : w.cache.find? w.project.dir name with
      | none =>
        rw [Cache.at?_get hi]
        split
        · exact .both (Entry.Twin.blank _ _ _ _)
        · exact h.cache key
      | some i =>
        rw [Cache.get_of_find? hi]
        split
        · rename_i hkey
          -- the first workspace knows the file from before
          have hmatched := h.cache key
          rw [hkey, hat', Cache.at?_of_find? hi] at hmatched
          rw [hkey, Cache.at?_of_find? hi]
          obtain ⟨e, he⟩ : ∃ e, w.cache.entry i = e := ⟨_, rfl⟩
          rw [he] at hmatched ⊢
          cases hmatched with
          | alone hname hinfo hout hkept =>
            obtain ⟨o, ho, hoe⟩ := Option.map_eq_some_iff.mp hname
            have hfull := hspelt (Cache.keyOf w.project.dir name) o
              (.blank (Cache.canonicalName w.project.dir name) (Cache.keyOf w.project.dir name)) ho (by
                unfold Workspace.got
                simp only [h.dir]
                rw [Cache.at?_get hi', if_pos rfl])
            have hsame : (Entry.blank (Cache.canonicalName w.project.dir name)
                (Cache.keyOf w.project.dir name)).fullName = e.fullName := hfull.trans hoe
            refine .both ⟨hsame, hinfo.symm, fun hset => ?_, Entry.isDue_congr hsame hout.symm,
              fun hsome => absurd hsome (by simp [Entry.blank]), fun hsome => .inr (hkept hsome)⟩
            rw [hinfo] at hset
            exact absurd hset (by simp [Stamp.isSet])
        · exact h.cache key

end Workspace

/-! ## The coupling -/

namespace Frame

/-- The frame in which what is current stays. -/
def grows : Frame where
  entry _ := Entry.Grows
  project _ _ := True
  refl _ := Entry.Grows.refl
  trans _ _ _ _ h h' := h.trans h'
  project_refl _ := trivial
  project_trans _ _ := trivial

theorem looking_grows : Looking grows.law :=
  looking grows (fun s e => (Entry.Read.looked s e).grows) (fun s e => (Entry.Read.withText s e).grows)
    (fun s e => (Entry.Read.withBuffer s e).grows) fun _ _ _ => trivial

/-- Anything that leaves what is current may be done to an entry. -/
theorem grows_changed (w : Workspace) (i : Nat) {f : Entry → Entry} (hkey : ∀ e, (f e).key = e.key)
    (hf : Entry.Grows (w.cache.entry i) (f (w.cache.entry i))) :
    grows.law.moves w (w.changed i f) :=
  ⟨rfl, rfl, rfl, fun _ => ⟨rfl, trivial,
    Cache.Advances.modify Entry.Grows.refl hkey fun _ => hf⟩⟩

end Frame

namespace Workspace

variable {past : Past} {w w' : Workspace}

/-- What has to be so in the end: files were referred to by the names of the past, and are spelled as
there. -/
structure Fine (past : Past) (w : Workspace) : Prop where
  destination : w.destination = none
  imports : ∀ name ∈ w.imports, past.names name
  spelt : w.SpeltAs past.cache

theorem Fine.back (hm : Frame.grows.law.moves w w') (h : w'.Fine past) : w.Fine past := by
  have hdest : w.destination = none := hm.2.2.1.symm.trans h.destination
  have hmoves := Frame.moves_of_law hm hdest
  refine ⟨hdest, fun name hname => h.imports name ?_, fun key o e ho he => ?_⟩
  · exact hmoves.cache.imports (fun _ _ _ hgrows => hgrows.references?) hname
  · obtain ⟨e', he', hgrows⟩ := hmoves.cache.at? he
    rw [← hgrows.fullName]
    exact h.spelt key o e' ho he'

end Workspace

/-- What the two runs keep. -/
def Past.coupling (past : Past) : Coupling Workspace where
  rel := Workspace.Twins past
  law := Frame.grows.law.free
  early _ _ := trivial
  fine := Workspace.Fine past
  back := Workspace.Fine.back

end Bundler

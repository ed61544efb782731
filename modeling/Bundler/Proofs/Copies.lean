/-
Files that are delivered.

Scripts that are taken over, style sheets and other assets are copied when they are newer than their
copies, which one stamp for each file tells. Followed for one of them, a `Delivery`, that stamp is relied on
where nothing else has its entry or goes where it goes: what is stamped with the time of the file was
written of the file (`Delivery.Sound`). Dealing with another file leaves both alone (`Frame.aside`), copying
the file keeps it (`Delivery.Sound.of_treated`), and so do the two steps of a style sheet, which is written
first and stamped later: in between it is `Delivery.Ready`.

That the stamp is not ahead of the file (`Entry.Behind`) is what lets a file that is not newer than its copy
be as old as its stamp.
-/
import Bundler.Proofs.CopySteps

set_option autoImplicit false

namespace Bundler

open Workspace Step Assembly

/-! ## Stamps -/

namespace Entry

variable {s : Surroundings} {e e' : Entry} {t : Nat}

/-- Neither what was seen of a file nor its stamp is ahead of the file. -/
structure Behind (disk : Disk) (e : Entry) : Prop where
  seen : ∀ t u, e.current = .at t → disk.modified? e.fullName = some u → t ≤ u
  clock : ∀ t, e.outputTime = .at t → t ≤ disk.clock
  stamp : ∀ t u, e.outputTime = .at t → disk.modified? e.fullName = some u → t ≤ u

/-- What an entry says of its file is true, and it is not ahead of the file. -/
structure Tracked (s : Surroundings) (e : Entry) : Prop where
  faithful : e.Faithful (fun _ => False) s
  behind : e.Behind s.disk

theorem Tracked.blank (s : Surroundings) (fullName key : String) : (Entry.blank fullName key).Tracked s where
  faithful := Faithful.blank _ s fullName key
  behind := ⟨fun _ _ h => absurd h (by simp [Entry.blank]), fun _ h => absurd h (by simp [Entry.blank]),
    fun _ _ h => absurd h (by simp [Entry.blank])⟩

theorem needsCopy_stampCurrent (e : Entry) : e.stampCurrent.needsCopy = false := by
  unfold Entry.needsCopy stampCurrent
  cases hcur : e.current.time? with
  | none => rfl
  | some t => simp

/-- A file that is stamped as it was seen is not ahead either. -/
theorem Tracked.stamped (h : e.Tracked s) : e.stampCurrent.Tracked s where
  faithful := h.faithful.of_same_pieces rfl rfl rfl rfl rfl rfl rfl rfl rfl rfl rfl rfl
  behind := ⟨h.behind.seen, h.faithful.sighted.le_clock, h.behind.seen⟩

private theorem Read.behind (h : Read s e e') (he : e.Behind s.disk) : e'.Behind s.disk := by
  refine ⟨fun t u ht hu => ?_, by rw [h.outputTime]; exact he.clock, by
    rw [h.outputTime, h.fullName]
    exact he.stamp⟩
  rw [h.fullName] at hu
  cases hcur : e.current with
  | unset =>
    rcases h.unseen hcur with hunset | hstamp
    · rw [hunset] at ht
      cases ht
    · rw [hstamp, Disk.stamp_eq_at, hu] at ht
      exact Nat.le_of_eq (Option.some.inj ht).symm
  | missing =>
    rw [h.seen (by rw [hcur]; rfl), hcur] at ht
    cases ht
  | «at» v =>
    rw [h.seen (by rw [hcur]; rfl)] at ht
    exact he.seen t u ht hu

/-- Whatever a pass does to an entry keeps it tracked. -/
theorem Taking.tracked (h : Taking (fun _ => True) s e e') (hd : s.disk.Dated) (he : e.Tracked s) :
    e'.Tracked s := by
  have hfaithful := (Building.delivering (.taking h)).faithful hd he.faithful
  cases h with
  | reading h => exact ⟨hfaithful, h.read.behind he.behind⟩
  | took _ htext _ =>
    have hstamp : ({ e with outputTime := e.textTime } : Entry) = e.stampCurrent := by
      unfold stampCurrent
      rw [(isTextCurrent_iff.mp htext).2.1]
    rw [hstamp]
    exact he.stamped
  | copied _ => exact he.stamped

/-- A change of the disk moves files ahead. -/
theorem Tracked.of_changes (h : e.Tracked s) {disk : Disk} (hd : s.disk.Changes disk) :
    e.Tracked { s with disk } := by
  have hahead : ∀ t u, t ≤ s.disk.clock →
      (∀ u, s.disk.modified? e.fullName = some u → t ≤ u) →
      disk.modified? e.fullName = some u → t ≤ u := by
    intro t u ht hle hu
    by_cases hold : u ≤ s.disk.clock
    · exact hle u (hd.same _ u hu hold).1
    · omega
  exact ⟨h.faithful.of_changes hd,
    fun t u ht => hahead t u (h.faithful.sighted.le_clock t ht) fun u => h.behind.seen t u ht,
    fun t ht => Nat.le_trans (h.behind.clock t ht) hd.clock,
    fun t u ht => hahead t u (h.behind.clock t ht) fun u => h.behind.stamp t u ht⟩

theorem Tracked.unlooked (h : e.Tracked s) : Tracked s { e with current := .unset } where
  faithful := h.faithful.unlooked
  behind := ⟨fun _ _ ht => absurd ht (by simp), h.behind.clock, h.behind.stamp⟩

/-- A file that is newer than its copy has another time than its stamp. -/
theorem Tracked.stamp_ne (h : e.Tracked s) (hneed : e.needsCopy = true)
    (hmod : s.disk.modified? e.fullName = some t) : e.outputTime ≠ .at t := by
  intro hstamp
  obtain ⟨u, hcur⟩ := at_of_found (found_of_needsCopy hneed)
  -- the stamp is older than what was seen, and what was seen is not ahead of the file
  have hle := h.behind.seen u t hcur hmod
  unfold Entry.needsCopy at hneed
  rw [hcur, hstamp] at hneed
  simp only [Stamp.time?, decide_eq_true_eq] at hneed
  omega

end Entry

namespace Workspace

variable {w w' : Workspace} {i : Nat}

/-- A build without a bundle that writes nothing to the disk and can write everything, and whose entries
are tracked. -/
structure Tracked (w : Workspace) : Prop where
  destination : w.destination = none
  dated : w.disk.Dated
  bundle : w.project.config.bundle = .none
  failing : w.project.output.failing = []
  entries : ∀ i, i < w.cache.entries.length → (w.cache.entry i).Tracked w.surroundings

/-- What is written is written, and nothing else changes. -/
theorem written_of_tracked (h : w.Tracked) (path : String) (content : Bytes) :
    w.written path content = { w with project := { w.project with
      output := { w.project.output with
        files := w.project.output.files.insert path content
        writes := w.project.output.writes ++ [(path, content)] } } } := by
  have hfree : w.project.output.failing.lookup path = none := by
    rw [h.failing]
    rfl
  rw [written_of_none h.destination]
  unfold Project.write Output.write
  rw [hfree]

theorem Tracked.written (h : w.Tracked) (path : String) (content : Bytes) :
    (w.written path content).Tracked := by
  rw [written_of_tracked h]
  exact ⟨h.destination, h.dated, h.bundle, h.failing, h.entries⟩

theorem Tracked.writtenTo (h : w.Tracked) (output? : Option String) (content : Bytes) :
    (w.writtenTo output? content).Tracked := by
  cases output? with
  | none => exact h
  | some path => exact h.written path content

theorem Tracked.stamped (h : w.Tracked) (i : Nat) : (w.changed i Entry.stampCurrent).Tracked := by
  refine ⟨h.destination, h.dated, h.bundle, h.failing, fun j hj => ?_⟩
  have hj' : j < w.cache.entries.length := by
    rw [← Cache.length_modify]
    exact hj
  change ((w.cache.modify i Entry.stampCurrent).entry j).Tracked w.surroundings
  rw [Cache.entry_modify _ hj']
  split
  · exact (h.entries j hj').stamped
  · exact h.entries j hj'

/-- What there is after a file was copied. -/
theorem Tracked.copied (h : w.Tracked) (output? : Option String) (content : Bytes) {name : String}
    (hi : w.cache.find? w.project.dir name = some i) :
    (w.copied output? content i).Tracked ∧
      (w.copied output? content i).cache.find? (w.copied output? content i).project.dir name = some i ∧
      (w.copied output? content i).cache.entry i = (w.cache.entry i).stampCurrent ∧
      (w.copied output? content i).disk = w.disk := by
  have hkept : (w.writtenTo output? content).project.dir = w.project.dir ∧
      (w.writtenTo output? content).disk = w.disk := by
    cases output? with
    | none => exact ⟨rfl, rfl⟩
    | some path =>
      change (w.written path content).project.dir = _ ∧ (w.written path content).disk = _
      rw [written_of_tracked h]
      exact ⟨rfl, rfl⟩
  refine ⟨(h.writtenTo output? content).stamped i, ?_, ?_, hkept.2⟩
  · change ((w.writtenTo output? content).cache.modify i Entry.stampCurrent).find?
      (w.writtenTo output? content).project.dir name = some i
    rw [writtenTo_cache, hkept.1, Cache.find?_eq_keys, Cache.keys_modify (f := Entry.stampCurrent) fun _ => rfl,
      ← Cache.find?_eq_keys]
    exact hi
  · change ((w.writtenTo output? content).cache.modify i Entry.stampCurrent).entry i = _
    rw [writtenTo_cache]
    exact Cache.entry_modify_self _ (Cache.find?_some hi).1

end Workspace

/-! ## Deliveries -/

/-- The contents that were written under a name, oldest first. -/
def Output.contents (o : Output) (path : String) : List Bytes :=
  (o.writes.filter fun e => e.1 == path).map Prod.snd

/-- What a file is delivered as. -/
inductive Role where
  /-- A script that is taken over. -/
  | script
  /-- A style sheet of its own. -/
  | sheet
  /-- Any other asset. -/
  | plain
  deriving DecidableEq

/-- What is written of a file. -/
def Role.content : Role → Bytes → Bytes
  | .script, bytes => Text.toBytes (Text.ofBytes bytes)
  | .sheet, bytes => Text.toBytes (Stylesheet.plain (Text.ofBytes bytes))
  | .plain, bytes => bytes

/-- What is written by what is kept of a file. -/
def Role.load : Role → Entry → Option Bytes
  | .script, e => e.text?.map Text.toBytes
  | role, e => e.buffer?.map role.content

theorem Role.load_plain : Role.plain.load = Entry.buffer? := by
  funext e
  unfold Role.load
  exact congrFun Option.map_id e.buffer?

/-- The bytes that are handed out are those of the file, where the file is as it was seen. -/
theorem Entry.Tracked.buffer? {s : Surroundings} {e : Entry} {t : Nat} {bytes : Bytes}
    (h : e.Tracked s) (hcur : e.current = .at t) (hmod : s.disk.modified? e.fullName = some t)
    (hbytes : e.buffer? = some bytes) : s.disk.content? e.fullName = some bytes := by
  obtain ⟨-, htime, -⟩ := Entry.isBufferCurrent_iff.mp
    (Entry.buffer?_isSome_iff.mp (Option.isSome_iff_exists.mpr ⟨_, hbytes⟩))
  unfold Entry.buffer? at hbytes
  split at hbytes
  · exact h.faithful.buffer t bytes (htime.trans hcur) hbytes hmod
  · cases hbytes

/-- What is written is what is to be written of the file, where the file is as it was seen. -/
theorem Entry.Tracked.load {s : Surroundings} {e : Entry} {t : Nat} {role : Role} {content : Bytes}
    (h : e.Tracked s) (hcur : e.current = .at t) (hmod : s.disk.modified? e.fullName = some t)
    (hload : role.load e = some content) :
    ∃ bytes, s.disk.content? e.fullName = some bytes ∧ content = role.content bytes := by
  cases role with
  | script =>
    obtain ⟨text, htext, rfl⟩ := Option.map_eq_some_iff.mp hload
    obtain ⟨-, htime, -⟩ := Entry.isTextCurrent_iff.mp
      (Entry.text?_isSome_iff.mp (Option.isSome_iff_exists.mpr ⟨_, htext⟩))
    unfold Entry.text? at htext
    split at htext
    · obtain ⟨bytes, hbytes, rfl⟩ := h.faithful.fits.text t text (htime.trans hcur) htext hmod
      exact ⟨bytes, hbytes, rfl⟩
    · cases htext
  | sheet =>
    obtain ⟨bytes, hbytes, rfl⟩ := Option.map_eq_some_iff.mp hload
    exact ⟨bytes, h.buffer? hcur hmod hbytes, rfl⟩
  | plain =>
    obtain ⟨bytes, hbytes, rfl⟩ := Option.map_eq_some_iff.mp hload
    exact ⟨bytes, h.buffer? hcur hmod hbytes, rfl⟩

/-- A file that is delivered: its name, where it goes, and what it is delivered as. -/
structure Delivery where
  name : String
  output : String
  role : Role
  isSheet : role = .sheet → Path.isCss name = .ok true
  isPlain : role = .plain → Path.isCss name = .ok false ∧ Path.isJs name = .ok false

namespace Frame

variable {key output : String} {w w' : Workspace} {name : String} {i : Nat}

/-- The frame of what leaves the stamps under a key and what was written under a name alone. -/
def aside (key output : String) : Frame where
  entry s e e' := Relation.ReflTransGen (Entry.Taking (fun _ => True) s) e e' ∧
    (e.key = key → Relation.ReflTransGen (Entry.Reading s) e e')
  project p p' := p'.output.failing = p.output.failing ∧
    p'.output.contents output = p.output.contents output
  refl _ _ := ⟨.refl, fun _ => .refl⟩
  trans _ _ _ _ h h' := by
    refine ⟨h.1.trans h'.1, fun hkey => (h.2 hkey).trans (h'.2 ?_)⟩
    rw [(Entry.read_of_readings (h.2 hkey)).key]
    exact hkey
  project_refl _ := ⟨rfl, rfl⟩
  project_trans h h' := ⟨h'.1.trans h.1, h'.2.trans h.2⟩

/-- Looking and reading leaves everything alone. -/
theorem aside_of_reads (h : reads.Moves w w') : (aside key output).Moves w w' where
  config := h.config
  dir := h.dir
  destination := h.destination
  disk := h.disk
  project := ⟨by rw [h.project.output], by rw [h.project.output]⟩
  cache := h.cache.mono fun _ _ hchain =>
    ⟨Relation.ReflTransGen.mono (fun _ _ => Entry.Taking.reading) _ _ hchain, fun _ => hchain⟩

/-- So does writing something else. -/
theorem aside_written (h : w.Tracked) {path : String} (hpath : path ≠ output) (content : Bytes) :
    (aside key output).Moves w (w.written path content) := by
  rw [Workspace.written_of_tracked h]
  refine ⟨rfl, rfl, h.destination, rfl, ⟨rfl, ?_⟩, Cache.Advances.refl ((aside key output).refl _) _⟩
  unfold Output.contents
  rw [List.filter_append]
  simp [hpath]

/-- So does stamping another file. -/
theorem aside_stamped (h : w.Tracked) (hkey : (w.cache.entry i).key ≠ key)
    (hneed : (w.cache.entry i).needsCopy = true) :
    (aside key output).Moves w (w.changed i Entry.stampCurrent) :=
  moves_of_law (moves_modify (aside key output) w i (fun _ => rfl)
    fun _ => ⟨.single (.copied hneed), fun hno => absurd hno hkey⟩) h.destination

/-- A name that finds its entry found it before, and it was looked at and read, or the entry is new and was
never stamped. -/
theorem Moves.entry_of_aside (h : (aside (Cache.keyOf w.project.dir name) output).Moves w w')
    (hi : w'.cache.find? w'.project.dir name = some i) :
    (w.cache.find? w.project.dir name = some i ∧
      Relation.ReflTransGen (Entry.Reading w.surroundings) (w.cache.entry i) (w'.cache.entry i)) ∨
    (w'.cache.entry i).outputTime = .unset := by
  obtain ⟨hlt, hkey⟩ := Cache.find?_some hi
  rw [h.dir] at hkey
  cases hold : w.cache.find? w.project.dir name with
  | some j =>
    have hj := h.find? hold
    rw [hi] at hj
    obtain rfl := Option.some.inj hj
    obtain ⟨hj, hkeyj⟩ := Cache.find?_some hold
    exact .inl ⟨rfl, (h.cache.old i hj).2 hkeyj⟩
  | none =>
    -- no old entry has the key, so the entry is a new one, and it was blank
    have hnew : w.cache.entries.length ≤ i := by
      by_contra hnot
      have hlt : i < w.cache.entries.length := Nat.lt_of_not_le hnot
      refine Cache.indexOf?_none hold hlt ?_
      rw [← (Entry.lasts_of_taking (h.cache.old i hlt).1).key]
      exact hkey
    obtain ⟨other, hchain, hreadings⟩ := h.cache.new i hnew hlt
    have hread := Entry.read_of_readings (hreadings ((Entry.lasts_of_taking hchain).key.symm.trans hkey))
    exact .inr hread.outputTime

end Frame

namespace Workspace

variable {w w' : Workspace} {key output : String}

theorem Tracked.of_aside (h : w.Tracked) (hm : (Frame.aside key output).Moves w w') : w'.Tracked where
  destination := hm.destination
  dated := by rw [hm.disk]; exact h.dated
  bundle := by rw [hm.config]; exact h.bundle
  failing := hm.project.1.trans h.failing
  entries := by
    rw [hm.surroundings]
    exact (hm.cache.mono fun _ _ hchain => hchain.1).keeps
      (fun _ _ hone he => Entry.Taking.tracked hone h.dated he) (fun _ => Entry.Tracked.blank _ _ _) h.entries

theorem Tracked.of_reads (h : w.Tracked) (hm : Frame.reads.Moves w w') : w'.Tracked :=
  h.of_aside (Frame.aside_of_reads hm : (Frame.aside "" "").Moves w w')

/-- What was seen of the files stays what there is. -/
theorem seen_of_aside (h : w.cache.Seen w.disk) (hm : (Frame.aside key output).Moves w w') :
    w'.cache.Seen w'.disk := by
  rw [hm.disk]
  exact (hm.cache.mono fun _ _ hchain => hchain.1).keeps (P := Entry.Seen w.disk)
    (fun _ _ hone he => hone.lasts.seen he) (fun _ => .inl rfl) h

end Workspace

namespace Delivery

variable {d : Delivery} {w w' : Workspace} {P Q : Entry → Prop} {load : Entry → Option Bytes}
  {output? : Option String} {s : Sheet}

/-- What was last written of a delivery. -/
def last? (d : Delivery) (w : Workspace) : Option Bytes := (w.project.output.contents d.output).getLast?

/-- What a delivery has nothing to do with. -/
def Aside (d : Delivery) (w w' : Workspace) : Prop :=
  (Frame.aside (Cache.keyOf w.project.dir d.name) d.output).Moves w w'

theorem Aside.last? (h : d.Aside w w') : d.last? w' = d.last? w := congrArg List.getLast? h.project.2

/-- The file was looked at, and it is in some state if it is newer than its copy. -/
def Looked (d : Delivery) (P : Entry → Prop) (w : Workspace) : Prop :=
  ∃ i, w.cache.find? w.project.dir d.name = some i ∧ (w.cache.entry i).current.isSet = true ∧
    ((w.cache.entry i).needsCopy = true → P (w.cache.entry i))

theorem Looked.of_aside (h : d.Looked P w) (hm : d.Aside w w')
    (hP : ∀ e e', Relation.ReflTransGen (Entry.Reading w.surroundings) e e' → P e → Q e') :
    d.Looked Q w' := by
  obtain ⟨i, hi, hset, hneed⟩ := h
  obtain ⟨hlt, hkey⟩ := Cache.find?_some hi
  have hreadings := (hm.cache.old i hlt).2 hkey
  have hread := Entry.read_of_readings hreadings
  refine ⟨i, hm.find? hi, by rw [hread.seen hset]; exact hset, fun hnew => hP _ _ hreadings (hneed ?_)⟩
  rw [hread.needsCopy hset] at hnew
  exact hnew

/-- A file that was dealt with: it is not newer than its copy, or it cannot be read. -/
def Done (d : Delivery) (w : Workspace) : Prop :=
  d.Looked (fun e => w.disk.read? e.fullName = none) w

theorem Done.of_aside (h : d.Done w) (hm : d.Aside w w') : d.Done w' :=
  Looked.of_aside h hm fun e e' hchain hread => by
    rw [(Entry.read_of_readings hchain).fullName, hm.disk]
    exact hread

/-- A style sheet that was written, to be stamped: it is not newer than its copy, it cannot be read, or what
is kept of it was written. -/
def Ready (d : Delivery) (w : Workspace) : Prop :=
  d.Looked (fun e => e.Bufferless w.disk ∨
    ∃ bytes, e.buffer? = some bytes ∧ d.last? w = some (d.role.content bytes)) w

theorem Ready.of_aside (h : d.Ready w) (hm : d.Aside w w') : d.Ready w' := by
  refine Looked.of_aside h hm fun e e' hchain hready => ?_
  rw [hm.disk, hm.last?]
  rcases hready with hbufferless | ⟨bytes, hbytes, hlast⟩
  · exact .inl (Entry.chain_keeps (fun _ _ hone he => Entry.Bufferless.of_reading he hone) hchain hbufferless)
  · refine .inr ⟨bytes, ?_, hlast⟩
    exact Entry.chain_keeps (P := fun e => e.buffer? = some bytes)
      (fun _ _ hone he => (Entry.Building.loading (N := fun _ => False) (.reading hone)).buffer? he)
      hchain hbytes

/-- What is stamped with the time of the file was written of the file. -/
def Kept (d : Delivery) (w : Workspace) : Prop :=
  ∀ i t bytes, w.cache.find? w.project.dir d.name = some i → (w.cache.entry i).outputTime = .at t →
    w.disk.modified? (w.cache.entry i).fullName = some t →
    w.disk.content? (w.cache.entry i).fullName = some bytes → d.last? w = some (d.role.content bytes)

theorem Kept.of_aside (h : d.Kept w) (hm : d.Aside w w') : d.Kept w' := by
  intro i t bytes hi hstamp hmod hbytes
  rw [hm.last?]
  rcases hm.entry_of_aside hi with ⟨hold, hchain⟩ | hnever
  · have hread := Entry.read_of_readings hchain
    rw [hread.outputTime] at hstamp
    rw [hread.fullName, hm.disk] at hmod hbytes
    exact h i t bytes hold hstamp hmod hbytes
  · rw [hnever] at hstamp
    cases hstamp

/-! ### The steps of a delivery -/

/-- Dealing with another file leaves a delivery alone. -/
theorem aside_of_treated {name : String} (hw : w.Tracked)
    (hname : Cache.keyOf w.project.dir name ≠ Cache.keyOf w.project.dir d.name)
    (houtput : output? ≠ some d.output) (h : Treated load name output? w w') : d.Aside w w' := by
  cases h with
  | passed hreads => exact Frame.aside_of_reads hreads
  | @taken v i bytes hreads hfind hneed hload =>
    have hv := hw.of_reads hreads
    have hwritten : (Frame.aside (Cache.keyOf w.project.dir d.name) d.output).Moves v
        (v.writtenTo output? bytes) := by
      cases output? with
      | none => exact Frame.Moves.refl hv.destination
      | some path => exact Frame.aside_written hv (fun heq => houtput (congrArg some heq)) bytes
    refine (Frame.aside_of_reads hreads).trans (hwritten.trans ?_)
    refine Frame.aside_stamped (hv.writtenTo output? bytes) ?_ ?_
    · rw [Workspace.writtenTo_cache, (Cache.find?_some hfind).2, hreads.dir]
      exact hname
    · rw [Workspace.writtenTo_cache]
      exact hneed

/-- So does writing another style sheet. -/
theorem aside_of_sheetTreated (hw : w.Tracked)
    (houtput : (w.project.depAssets.get? s.name).getD s.name ≠ d.output) (h : SheetTreated s w w') :
    d.Aside w w' := by
  cases h with
  | passed hreads => exact Frame.aside_of_reads hreads
  | written hreads _ _ =>
    have hv := hw.of_reads hreads
    exact (Frame.aside_of_reads hreads).trans (Frame.aside_written hv houtput _)

/-- A file that was dealt with is done. -/
theorem done_of_treated (hw : w.Tracked) (h : Treated load d.name output? w w') : d.Done w' := by
  cases h with
  | passed hreads hfind hset hread => exact ⟨_, hfind, hset, hread⟩
  | @taken v i bytes hreads hfind hneed hload =>
    obtain ⟨-, hfind', hentry, -⟩ := (hw.of_reads hreads).copied output? bytes hfind
    refine ⟨i, hfind', ?_, fun hno => ?_⟩
    · obtain ⟨t, ht⟩ := Entry.at_of_found (Entry.found_of_needsCopy hneed)
      rw [hentry]
      unfold Entry.stampCurrent
      simp [ht, Stamp.isSet]
    · rw [hentry, Entry.needsCopy_stampCurrent] at hno
      cases hno

/-- What is written of a delivery is what was written of it last. -/
theorem last?_written (hw : w.Tracked) (content : Bytes) :
    d.last? (w.written d.output content) = some content := by
  unfold Delivery.last? Output.contents
  rw [Workspace.written_of_tracked hw, List.filter_append]
  simp

/-- After a file was copied what is stamped was written, if what is there was written before or with it. -/
private theorem kept_of_copied {v : Workspace} {i : Nat} {bytes : Bytes} (hv : v.Tracked)
    (hfind : v.cache.find? v.project.dir d.name = some i)
    (hlast : ∀ t content, (v.cache.entry i).current = .at t →
      v.disk.modified? (v.cache.entry i).fullName = some t →
      v.disk.content? (v.cache.entry i).fullName = some content →
      d.last? (v.writtenTo output? bytes) = some (d.role.content content)) :
    d.Kept (v.copied output? bytes i) := by
  obtain ⟨-, hfind', hentry, hdisk⟩ := hv.copied output? bytes hfind
  intro j t content hj hstamp hmod hcontent
  rw [hfind'] at hj
  obtain rfl := Option.some.inj hj
  rw [hentry] at hstamp hmod hcontent
  rw [hdisk] at hmod hcontent
  exact hlast t content hstamp hmod hcontent

/-- What is stamped with the time of the file was written of the file, in a build that can be relied on. -/
structure Sound (d : Delivery) (w : Workspace) : Prop extends w.Tracked where
  kept : d.Kept w

theorem Sound.of_aside (h : d.Sound w) (hm : d.Aside w w') : d.Sound w' :=
  ⟨h.toTracked.of_aside hm, h.kept.of_aside hm⟩

/-- A delivery that is copied was written as it is when it is stamped. -/
theorem Sound.of_treated (h : d.Sound w) (ht : Treated d.role.load d.name (some d.output) w w') :
    d.Sound w' := by
  cases ht with
  | passed hreads => exact h.of_aside (Frame.aside_of_reads hreads)
  | @taken v i bytes hreads hfind hneed hload =>
    have hv := h.toTracked.of_reads hreads
    refine ⟨(hv.copied _ bytes hfind).1, kept_of_copied hv hfind fun t content hcur hmod hcontent => ?_⟩
    obtain ⟨content', hcontent', rfl⟩ := (hv.entries i (Cache.find?_some hfind).1).load hcur hmod hload
    obtain rfl := Option.some.inj (hcontent.symm.trans hcontent')
    exact last?_written hv _

/-- A style sheet was written before it is stamped. -/
theorem Sound.of_stamped (h : d.Sound w) (hready : d.Ready w)
    (ht : Treated Entry.buffer? d.name none w w') : d.Sound w' := by
  cases ht with
  | passed hreads => exact h.of_aside (Frame.aside_of_reads hreads)
  | @taken v i bytes hreads hfind hneed hload =>
    have hv := h.toTracked.of_reads hreads
    refine ⟨(hv.copied _ bytes hfind).1, kept_of_copied hv hfind fun t content hcur hmod hcontent => ?_⟩
    obtain ⟨j, hj, -, hnow⟩ := hready.of_aside (Frame.aside_of_reads hreads)
    obtain rfl := Option.some.inj (hfind.symm.trans hj)
    rcases hnow hneed with hbufferless | ⟨bytes', hbytes', hlast⟩
    · rw [hbufferless.buffer] at hload
      cases hload
    · -- what is read now to stamp the file is what was written of it before
      obtain rfl := Option.some.inj (hload.symm.trans hbytes')
      have hcontent' := (hv.entries i (Cache.find?_some hfind).1).buffer? hcur hmod hload
      obtain rfl := Option.some.inj (hcontent.symm.trans hcontent')
      exact hlast

/-- A style sheet that was written is ready to be stamped. -/
theorem ready_of_sheetTreated (hw : w.Tracked) (hmet : s.Met w) (hname : s.name = d.name)
    (hrole : d.role = .sheet) (houtput : (w.project.depAssets.get? s.name).getD s.name = d.output)
    (h : SheetTreated s w w') : d.Ready w' := by
  have hmet' := hmet.of_sheetTreated h
  refine ⟨s.id, hname ▸ hmet'.find, hmet'.set, fun hneed => ?_⟩
  rw [← hmet'.stale] at hneed
  cases h with
  | passed hreads hread => exact .inl (hread hneed)
  | @written v bytes hreads hstale hbuffer =>
    refine .inr ⟨bytes, by rw [Workspace.written_cache]; exact hbuffer, ?_⟩
    rw [houtput, last?_written (hw.of_reads hreads), hrole]
    rfl

/-- Writing a style sheet does not make its stamp wrong: it is written because the file is newer. -/
theorem Sound.of_sheetTreated (h : d.Sound w) (hmet : s.Met w) (hname : s.name = d.name)
    (ht : SheetTreated s w w') : d.Sound w' := by
  have hmet' := hmet.of_sheetTreated ht
  cases ht with
  | passed hreads => exact h.of_aside (Frame.aside_of_reads hreads)
  | @written v bytes hreads hstale hbuffer =>
    have hv := (h.toTracked.of_reads hreads).written
      ((w.project.depAssets.get? s.name).getD s.name) (Text.toBytes (Stylesheet.plain (Text.ofBytes bytes)))
    refine ⟨hv, fun i t content hi hstamp hmod _ => ?_⟩
    rw [← hname, hmet'.find] at hi
    obtain rfl := Option.some.inj hi
    -- the sheet is stamped later: so far it has an older stamp than its file, of which nothing is said
    exact absurd hstamp ((hv.entries _ (Cache.find?_some hmet'.find).1).stamp_ne
      (hmet'.stale.symm.trans hstale) hmod)

/-- A style sheet that was stamped is ready. -/
theorem ready_of_treated (hw : w.Tracked) (hready : d.Ready w)
    (h : Treated load d.name output? w w') : d.Ready w' := by
  cases h with
  | passed hreads => exact hready.of_aside (Frame.aside_of_reads hreads)
  | @taken v i bytes hreads hfind hneed hload =>
    obtain ⟨j, hj, hset, hno⟩ := done_of_treated hw (.taken hreads hfind hneed hload :
      Treated load d.name output? w (v.copied output? bytes i))
    obtain ⟨-, hfind', hentry, -⟩ := (hw.of_reads hreads).copied output? bytes hfind
    rw [hfind'] at hj
    obtain rfl := Option.some.inj hj
    refine ⟨i, hfind', hset, fun hneed => ?_⟩
    rw [hentry, Entry.needsCopy_stampCurrent] at hneed
    cases hneed

end Delivery

end Bundler

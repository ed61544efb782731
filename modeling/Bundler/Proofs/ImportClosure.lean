/-
The program that is loaded is the closure of the entry files under imports, dependencies first.

Loading follows what each file is found to import as soon as it is brought up to date, so what it goes by
is known only bit by bit. But nothing that was found out is forgotten while it goes on: a file that is
loaded stays loaded with the same imports, and one that could not be read is not read later
(`Workspace.HasLoaded.onward`, `Workspace.Unread.onward`). So the whole of it is one walk over what is
known in the end (`Session.Touring`, `Session.tours_visit`), and what walks list and note is known
already. The steps that loading is given are enough for it, in every session that there can be, and a
walk that does not come to its end was stopped at the name of a resource
(`Session.Possible.loadsClosure`).

A text that was read counts as long as the time of its file stays: the file need not be readable any
more (`Session.loads_unreadable`).
-/
import Bundler.Proofs.Artifacts
import Bundler.Proofs.Orderly
import Bundler.Proofs.Walks

set_option autoImplicit false

namespace Bundler

open Relation Workspace Step

/-! ## What is found out about a file -/

namespace Entry

variable {N : String → Prop} {s : Surroundings} {e e' : Entry}

/-- An entry was looked at, and there is no text of its file: it holds none, and none can be read. -/
structure Unreadable (disk : Disk) (e : Entry) : Prop where
  looked : e.current.isSet = true
  text : e.isTextCurrent = false
  read : e.found = true → disk.read? e.fullName = none

/-- An entry holds the text that its file had at a time. -/
structure Holds (e : Entry) (time : Nat) : Prop where
  text : e.text.isSome = true
  time : e.textTime = .at time

/-- Without the time of a text none is current. -/
theorem isTextCurrent_of_missing : { e with textTime := .missing : Entry }.isTextCurrent = false := by
  unfold isTextCurrent found
  cases e.current <;> rfl

theorem isTextCurrent_of_read (hfound : e.found = true) (text : String) :
    { e with text := some text, textTime := e.current : Entry }.isTextCurrent = true :=
  isTextCurrent_iff.mpr ⟨hfound, rfl, text, rfl⟩

/-- An entry without a text, behind the attempt to read one. -/
theorem unreadable_withText {disk : Disk} (hset : e.current.isSet = true)
    (h : (e.withText disk).isTextCurrent = false) : (e.withText disk).Unreadable disk := by
  rcases withText_cases disk e with ⟨htext, heq⟩ | ⟨-, hread, heq⟩ | ⟨bytes, hfound, -, heq⟩
  · rw [heq, htext] at h
    cases h
  · rw [heq]
    exact ⟨hset, isTextCurrent_of_missing, hread⟩
  · rw [heq, isTextCurrent_of_read hfound] at h
    cases h

/-- Where the text of a file was asked for and is not current there is none. -/
theorem unreadable_content {disk : Disk} {dir name : String} {c : Cache}
    (h : ((c.content disk dir name).2.entry (c.content disk dir name).1).isTextCurrent = false) :
    ((c.content disk dir name).2.entry (c.content disk dir name).1).Unreadable disk := by
  have hid := (Cache.find?_some (Cache.find?_get c dir name)).1
  have hentry : (c.content disk dir name).2.entry (c.content disk dir name).1
      = (((c.get dir name).2.entry (c.get dir name).1).looked disk).withText disk := by
    unfold Cache.content Cache.existence
    rw [Cache.entry_ensureText disk (by rw [Cache.probe_eq, Cache.length_modify]; exact hid),
      Cache.probe_eq, Cache.entry_modify_self _ hid]
  rw [hentry] at h ⊢
  exact unreadable_withText (isSet_looked disk _) h

namespace Loading

/-- Nothing that is done in loading makes a text out of nothing: it was held before, or the file can be
read. -/
theorem holds (h : Loading N s e e') {time : Nat} (ht : e'.Holds time) :
    e.Holds time ∨ (s.disk.read? e'.fullName).isSome = true := by
  cases h with
  | reading h =>
    cases h with
    | look =>
      refine .inl ?_
      unfold looked at ht
      split at ht
      · exact ht
      · exact ⟨ht.text, ht.time⟩
    | text =>
      rcases withText_cases s.disk e with ⟨-, heq⟩ | ⟨-, -, heq⟩ | ⟨bytes, -, hread, heq⟩
      · rw [heq] at ht
        exact .inl ht
      · rw [heq] at ht
        exact absurd ht.time (by simp)
      · rw [heq]
        exact .inr (by rw [hread]; rfl)
    | buffer =>
      refine .inl ?_
      unfold withBuffer at ht
      split at ht
      · exact ⟨ht.text, ht.time⟩
      · split at ht
        · exact ht
        · split at ht
          · exact ⟨ht.text, ht.time⟩
          · exact ⟨ht.text, ht.time⟩
  | script => exact .inl ⟨ht.text, ht.time⟩
  | references => exact .inl ⟨ht.text, ht.time⟩

/-- A file that is loaded stays loaded, and its references stay the same. -/
theorem loaded (h : Loading N s e e') (hl : e.Loaded) : e'.Loaded ∧ e'.references = e.references := by
  cases h with
  | reading h =>
    have hread := h.read
    exact ⟨⟨hread.isSourceCurrent hl.source, (hread.isInfoCurrent hl.isSet).trans hl.info⟩,
      hread.references⟩
  | script h => exact absurd hl.source (by simp [h.outdated])
  | references h => exact absurd hl.info (by simp [h.outdated])

/-- A file that cannot be read is not read later on. -/
theorem unreadable (h : Loading N s e e') (hu : e.Unreadable s.disk) : e'.Unreadable s.disk := by
  cases h with
  | reading h =>
    cases h with
    | look =>
      rw [looked_of_isSet hu.looked]
      exact hu
    | text =>
      refine unreadable_withText hu.looked ?_
      rcases withText_cases s.disk e with ⟨-, heq⟩ | ⟨-, -, heq⟩ | ⟨bytes, hfound, hread, -⟩
      · rw [heq]
        exact hu.text
      · rw [heq]
        exact isTextCurrent_of_missing
      · rw [hu.read hfound] at hread
        cases hread
    | buffer =>
      unfold withBuffer
      split
      · exact ⟨hu.looked, hu.text, hu.read⟩
      · split
        · exact hu
        · split
          · exact ⟨hu.looked, hu.text, hu.read⟩
          · exact ⟨hu.looked, hu.text, hu.read⟩
  | script h => exact absurd h.text (by simp [hu.text])
  | references h =>
    have htext := isTextCurrent_of_isSourceCurrent h.source
    exact absurd htext (by simp [hu.text])

end Loading

end Entry

/-! ## What is known of the files -/

namespace Workspace

variable {w w' w'' : Workspace} {file : String} {deps : List String}

/-- The law of loading, wherever the output goes: the chains of changes of its entries, and that they stay
orderly. -/
def onward : Law Workspace := (Frame.loads fun _ => True).still.and Orderly.law

theorem loading_onward : Loading onward fun _ => True :=
  (Frame.loading_still fun _ => True).and (Orderly.loading fun _ => True)

/-- Loading has gone on from one workspace to another. -/
abbrev LoadsTo (w w' : Workspace) : Prop := onward.moves w w'

/-- A file was looked at, and there is no text of it. -/
def Unread (w : Workspace) (file : String) : Prop :=
  ∃ id, w.cache.find? w.project.dir file = some id ∧ (w.cache.entry id).Unreadable w.disk

/-- There is a text of a file at the time that was seen of it: it can be read, or it is held in an earlier
workspace. -/
def HasText (w : Workspace) (earlier : Workspace) (file : String) : Prop :=
  ∃ id time, w.cache.find? w.project.dir file = some id ∧ (w.cache.entry id).current = .at time ∧
    ((w.disk.read? (w.cache.entry id).fullName).isSome = true ∨ (earlier.cache.entry id).Holds time)

/-- Beside the destination loading does to entries what it does without one. -/
theorem LoadsTo.moves (h : w.LoadsTo w') : (Frame.loads fun _ => True).Moves w.aside w'.aside :=
  Frame.moves_of_still h.1

theorem LoadsTo.disk (h : w.LoadsTo w') : w'.disk = w.disk := h.moves.disk

theorem LoadsTo.orderly (h : w.LoadsTo w') (hw : w.Orderly) : w'.Orderly := h.2.2.2 hw

theorem LoadsTo.find? {id : Nat} (h : w.LoadsTo w') (hfind : w.cache.find? w.project.dir file = some id) :
    w'.cache.find? w'.project.dir file = some id ∧
      ReflTransGen (Entry.Loading (fun _ => True) w.surroundings) (w.cache.entry id)
        (w'.cache.entry id) := by
  have hm := h.moves
  refine ⟨?_, hm.cache.old id (Cache.find?_some hfind).1⟩
  have hdir : w'.project.dir = w.project.dir := hm.dir
  rw [hdir]
  exact hm.cache.find? hfind

/-- What is loaded stays loaded, with the same imports. -/
theorem HasLoaded.onward (hl : w.HasLoaded file deps) (h : w.LoadsTo w') : w'.HasLoaded file deps := by
  obtain ⟨id, refs, hfind, hloaded, hrefs, hdeps⟩ := hl
  obtain ⟨hfind', hchain⟩ := h.find? hfind
  obtain ⟨hloaded', hrefs'⟩ := Entry.chain_keeps
    (P := fun e => e.Loaded ∧ e.references = (w.cache.entry id).references)
    (fun _ _ hstep he => ⟨(hstep.loaded he.1).1, (hstep.loaded he.1).2.trans he.2⟩) hchain
    ⟨hloaded, rfl⟩
  exact ⟨id, refs, hfind', hloaded', hrefs'.trans hrefs, hdeps⟩

/-- What could not be read is not read later on. -/
theorem Unread.onward (hu : w.Unread file) (h : w.LoadsTo w') : w'.Unread file := by
  obtain ⟨id, hfind, hunreadable⟩ := hu
  obtain ⟨hfind', hchain⟩ := h.find? hfind
  refine ⟨id, hfind', ?_⟩
  rw [h.disk]
  exact Entry.chain_keeps (P := Entry.Unreadable w.surroundings.disk)
    (fun _ _ hstep he => hstep.unreadable he) hchain hunreadable

theorem Mentions.onward {mains : List String} (hm : w.Mentions mains file) (h : w.LoadsTo w') :
    w'.Mentions mains file :=
  hm.imp_right fun ⟨f, deps, hl, hmem⟩ => ⟨f, deps, hl.onward h, hmem⟩

theorem HasLoaded.unique {deps' : List String} (h : w.HasLoaded file deps) (h' : w.HasLoaded file deps') :
    deps = deps' := by
  obtain ⟨id, refs, hfind, -, hrefs, rfl⟩ := h
  obtain ⟨id', refs', hfind', -, hrefs', rfl⟩ := h'
  obtain rfl := Option.some.inj (hfind.symm.trans hfind')
  rw [hrefs] at hrefs'
  rw [Option.some.inj hrefs']

/-- The text of a file that is loaded can be read, or it was held before. -/
theorem HasLoaded.hasText (hl : w'.HasLoaded file deps) (h : w.LoadsTo w') : w'.HasText w file := by
  obtain ⟨id, -, hfind, hloaded, -, -⟩ := hl
  obtain ⟨hfound, htime, text, htext⟩ := Entry.isTextCurrent_iff.mp hloaded.text
  obtain ⟨time, hcur⟩ := Entry.at_of_found hfound
  refine ⟨id, time, hfind, hcur, Or.symm ?_⟩
  have hholds : (w'.cache.entry id).Holds time := ⟨by rw [htext]; rfl, htime.trans hcur⟩
  have hm := h.moves
  have hmade : ∀ {e e' : Entry}, ReflTransGen (Entry.Loading (fun _ => True) w.surroundings) e e' →
      e'.Holds time → e.Holds time ∨ (w.disk.read? e'.fullName).isSome = true := by
    intro e e' hchain
    refine Entry.chain_keeps (P := fun x => x.Holds time →
      e.Holds time ∨ (w.disk.read? x.fullName).isSome = true) (fun x x' hstep hx hx' => ?_) hchain .inl
    rcases hstep.holds hx' with hheld | hread
    · rw [hstep.loads.fullName]
      exact hx hheld
    · exact .inr hread
  rw [h.disk]
  by_cases hid : id < w.cache.entries.length
  · exact hmade (hm.cache.old id hid) hholds
  · obtain ⟨name, hnew⟩ := hm.cache.new id (Nat.not_lt.mp hid) (Cache.find?_some hfind).1
    exact .inr ((hmade hnew hholds).resolve_left fun hblank => by cases hblank.text)

/-- A file that could not be read has no text. -/
theorem Unread.not_hasText (hu : w.Unread file) : ¬w.HasText w file := by
  obtain ⟨id, hfind, hunreadable⟩ := hu
  rintro ⟨id', time, hfind', hcur, htext⟩
  obtain rfl := Option.some.inj (hfind.symm.trans hfind')
  have hfound : (w.cache.entry id).found = true := by
    unfold Entry.found
    rw [hcur]
    rfl
  rcases htext with hread | hholds
  · rw [hunreadable.read hfound] at hread
    cases hread
  · obtain ⟨text, htext⟩ := Option.isSome_iff_exists.mp hholds.text
    have hcurrent := Entry.isTextCurrent_iff.mpr ⟨hfound, hholds.time.trans hcur.symm, text, htext⟩
    rw [hunreadable.text] at hcurrent
    cases hcurrent

end Workspace

/-- The imports that are followed: scripts are taken over as they stand. -/
def Path.followed (deps : List String) : List String :=
  deps.filter fun dep => (Path.isJs dep).toOption == some false

theorem Path.followed_eq_flatMap (deps : List String) : followed deps
    = deps.flatMap fun dep => if (isJs dep).toOption == some false then [dep] else [] := by
  unfold followed
  induction deps with
  | nil => rfl
  | cons dep deps ih =>
    rw [List.filter_cons, List.flatMap_cons, ih]
    split <;> rfl

/-- What is known of files in a workspace. -/
def Workspace.sources (w : Workspace) : Sources where
  imports file deps := ∃ all, w.HasLoaded file all ∧ deps = Path.followed all
  unread := w.Unread
  imports_unique h h' := by
    obtain ⟨all, hall, rfl⟩ := h
    obtain ⟨all', hall', rfl⟩ := h'
    rw [hall.unique hall']

/-- A walk stays one over what is known later on. -/
theorem Walk.onward {w w' : Workspace} {t t' : Tour} {files : List String} (hw : Walk w.sources t files t')
    (h : w.LoadsTo w') : Walk w'.sources t files t' :=
  hw.mono (fun _ _ ⟨all, hall, hdeps⟩ => ⟨all, hall.onward h, hdeps⟩) fun _ hu => hu.onward h

/-! ## One file -/

namespace Session

variable {s t : Session} {file : String} {deps : List String}

theorem loadsTo_loadFile {answer : Option (List String)} (h : loadFile file s = .ok answer t) :
    s.LoadsTo t.toWorkspace :=
  ((obeys_loadFile loading_onward trivial).ok h).1

/-- A file is loaded if something is answered of it. -/
theorem loaded_of_loadFile (h : loadFile file s = .ok (some deps) t) :
    t.HasLoaded file deps ∧ t.messages = s.messages := by
  obtain ⟨id, w, -, -, -, hcases⟩ := loadFile_cases h
  rcases hcases with ⟨-, w₁, w₂, -, hfind, -, -, hsource, hrefs, hdeps, rfl⟩ | ⟨hnone, -⟩
  · have hloaded := loaded_of_refreshReferences (Cache.find?_some hfind).1 hsource hrefs
    have hmoves : w₁.LoadsTo w₂ := by
      have hlaw := loading_onward.refs w₁ id file trivial hfind hsource
      rw [hrefs] at hlaw
      exact hlaw
    obtain ⟨-, -, refs, hsome⟩ := Entry.isInfoCurrent_iff.mp hloaded.info
    refine ⟨⟨id, refs, (hmoves.find? hfind).1, hloaded, hsome, ?_⟩, rfl⟩
    rw [Option.some.inj hdeps, hloaded.references?_eq, hsome]
    rfl
  · cases hnone

/-- A file of which nothing is answered could not be read, and a message says so. -/
theorem unread_of_loadFile (h : loadFile file s = .ok none t) :
    t.Unread file ∧ t.messages = s.messages.add (missingSource file) := by
  unfold loadFile at h
  obtain ⟨id, s₁, hcontent, h⟩ := (bind_ok_iff _ _ _ _ _).mp h
  obtain ⟨w, hw, rfl⟩ := (liftWorkspace_ok_iff _ _ _ _).mp hcontent
  obtain ⟨hid, rfl⟩ := (onCache_ok_iff _ _ _ _).mp hw
  have hfind := Cache.find?_content s.disk s.project.dir file s.cache
  rw [hid] at hfind
  obtain ⟨e, s₂, he, h⟩ := (bind_ok_iff _ _ _ _ _).mp h
  obtain ⟨w, hw, rfl⟩ := (liftWorkspace_ok_iff _ _ _ _).mp he
  obtain ⟨rfl, rfl⟩ := (entry_ok_iff _ _ _ _).mp hw
  split at h
  · rename_i htext
    obtain ⟨u, s₃, htell, h⟩ := (bind_ok_iff _ _ _ _ _).mp h
    obtain rfl := (modify_ok_iff _ _ _ _).mp htell
    obtain ⟨-, rfl⟩ := (pure_ok_iff _ _ _ _).mp h
    rw [← hid] at hfind htext
    exact ⟨⟨_, hfind, Entry.unreadable_content (by simpa using htext)⟩, rfl⟩
  · obtain ⟨u, s₃, hscript, h⟩ := (bind_ok_iff _ _ _ _ _).mp h
    obtain ⟨u, s₄, hrefs, h⟩ := (bind_ok_iff _ _ _ _ _).mp h
    obtain ⟨e, s₅, he, h⟩ := (bind_ok_iff _ _ _ _ _).mp h
    cases ((pure_ok_iff _ _ _ _).mp h).1

end Session

/-! ## The tour -/

/-- What loading keeps of a tour. -/
def Tour.loaded (t : Tour) : Session.Loaded := ⟨t.met, t.listed⟩

namespace Messages

/-- The messages are those that there were before about other files than those that a tour has met, and
one for each file that it could not read. -/
def Follow (before : Messages) (t : Tour) (m : Messages) : Prop :=
  m.toList = (before.toList.filter fun d => !t.seen.contains d.file) ++
    t.missing.map Session.missingSource

variable {before m : Messages} {t : Tour} {file : String}

/-- The messages of a file are dropped where it is met. -/
theorem Follow.clearFile (h : Follow before t m) (hfile : file ∉ t.missing) :
    Follow before (t.enter file) (m.clearFile file) := by
  have hkept : (t.missing.map Session.missingSource).filter (fun d => d.file != file)
      = t.missing.map Session.missingSource := by
    refine List.filter_eq_self.mpr fun d hd => ?_
    obtain ⟨f, hf, rfl⟩ := List.mem_map.mp hd
    exact bne_iff_ne.mpr fun heq => hfile (heq ▸ hf)
  change (m.toList.filter fun d => d.file != file) = _
  rw [h, List.filter_append, List.filter_filter, hkept]
  refine congrArg (· ++ _) (List.filter_congr fun d _ => ?_)
  change (d.file != file && !t.seen.contains d.file) = !(file :: t.seen).contains d.file
  rw [List.contains_cons, Bool.not_or]
  rfl

theorem Follow.add (h : Follow before (t.enter file) m) :
    Follow before (t.miss file) (m.add (Session.missingSource file)) := by
  unfold Follow at h ⊢
  rw [toList_add, h, List.append_assoc]
  change _ ++ (t.missing.map _ ++ _) = _ ++ (t.missing ++ [file]).map _
  rw [List.map_append]
  rfl

/-- Of the files that were met, one that could not be read has one message, and no other one has any. -/
theorem Follow.ofFile (h : Follow before t m) (hfile : file ∈ t.seen) :
    m.ofFile file = (t.missing.filter (· == file)).map Session.missingSource := by
  have hold : (before.toList.filter fun d => !t.seen.contains d.file).filter (fun d => d.file == file)
      = [] := by
    rw [List.filter_filter, List.filter_eq_nil_iff]
    intro d _ hd
    rw [Bool.and_eq_true, beq_iff_eq] at hd
    rw [hd.1] at hd
    simp [hfile] at hd
  unfold Messages.ofFile
  rw [h, List.filter_append, hold, List.nil_append, List.filter_map]
  rfl

theorem ofFile_retainFiles {keep : String → Bool} (hkeep : keep file = true) :
    (m.retainFiles keep).ofFile file = m.ofFile file := by
  unfold ofFile retainFiles
  rw [List.filter_filter]
  refine List.filter_congr fun d _ => ?_
  by_cases hd : d.file = file
  · rw [hd, hkeep, Bool.and_true]
  · rw [beq_false_of_ne hd, Bool.false_and]

end Messages

namespace Session

variable {mains : List String} {s₀ s s' : Session} {t t' : Tour} {opened files : List String}
  {file : String} {deps : List String}

/-- What is known on the way: what was found out since loading began, which files were met, and what was
said about them. -/
structure Touring (mains : List String) (s₀ s : Session) (t : Tour) (opened : List String) : Prop where
  moves : s₀.LoadsTo s.toWorkspace
  accounts : t.Accounts opened
  mentioned : ∀ file ∈ t.seen, s.Mentions mains file
  messages : Messages.Follow s₀.messages t s.messages

/-- There are fewer names to be met than steps. -/
theorem Touring.length_met (hs₀ : s₀.Orderly) (h : Touring mains s₀ s t opened) :
    t.met.length < fileBound mains s₀.toWorkspace := by
  have hm : (Frame.loads fun _ => True).Moves s₀.toWorkspace.aside s.toWorkspace.aside :=
    h.moves.moves
  change t.met.length < fileBound mains s₀.toWorkspace.aside
  refine length_lt_fileBound hm hs₀.named hs₀.distinct h.accounts.met fun m hm => ?_
  obtain ⟨f, hf, rfl⟩ := List.mem_map.mp hm
  rcases h.mentioned f hf with hmain | ⟨g, deps, hl, hmem⟩
  · exact .inl (List.mem_map_of_mem hmain)
  · exact .inr ⟨g, deps, hl, List.mem_map_of_mem hmem⟩

/-- Where the messages of a new file were dropped. -/
theorem Touring.clearFile (h : Touring mains s₀ s t opened) (hnew : Text.lower file ∉ t.met) :
    Messages.Follow s₀.messages (t.enter file) (s.messages.clearFile file) :=
  h.messages.clearFile fun hmem =>
    hnew (h.accounts.mem_met.mpr (.inr (.inl (List.mem_map_of_mem hmem))))

/-- A new file is entered. -/
theorem Touring.enter (h : Touring mains s₀ s t opened) (hnew : Text.lower file ∉ t.met)
    (hfile : s.Mentions mains file) (hmoves : s.LoadsTo s'.toWorkspace)
    (hmessages : s'.messages = s.messages.clearFile file) :
    Touring mains s₀ s' (t.enter file) (file :: opened) where
  moves := onward.trans h.moves hmoves
  accounts := h.accounts.enter hnew
  mentioned f hf := by
    rcases List.mem_cons.mp hf with rfl | hf
    · exact Mentions.onward hfile hmoves
    · exact Mentions.onward (h.mentioned f hf) hmoves
  messages := by
    rw [hmessages]
    exact h.clearFile hnew

/-- A new file cannot be read. -/
theorem Touring.miss (h : Touring mains s₀ s t opened) (hnew : Text.lower file ∉ t.met)
    (hfile : s.Mentions mains file) (hmoves : s.LoadsTo s'.toWorkspace)
    (hmessages : s'.messages = (s.messages.clearFile file).add (missingSource file)) :
    Touring mains s₀ s' (t.miss file) opened where
  moves := onward.trans h.moves hmoves
  accounts := h.accounts.miss hnew
  mentioned f hf := by
    rcases List.mem_cons.mp hf with rfl | hf
    · exact Mentions.onward hfile hmoves
    · exact Mentions.onward (h.mentioned f hf) hmoves
  messages := by
    rw [hmessages]
    exact (h.clearFile hnew).add

/-- The file that was entered last is listed. -/
theorem Touring.list (h : Touring mains s₀ s t (file :: opened)) :
    Touring mains s₀ s (t.list file) opened :=
  ⟨h.moves, h.accounts.list, h.mentioned, h.messages⟩

/-- How a stretch of the tour ends: it has gone over some files, or it ended early at the name of a
resource. -/
def Tours (mains : List String) (s₀ : Session) (t : Tour) (opened files : List String) (s : Session) :
    EStateM.Result Failure Session Loaded → Prop
  | .ok l s' => ∃ t' : Tour, l = t'.loaded ∧ Touring mains s₀ s' t' opened ∧
      s.LoadsTo s'.toWorkspace ∧ Walk s'.sources t files t'
  | .error e _ => ∃ f, e = .fault f ∧ s₀.project.Unnamable f

/-- A tour over lists of files one after the other, given that each of them is gone over. -/
theorem tours_foldlM {body : Loaded → String → Step Session Loaded} {part : String → List String}
    {depth : Nat} {s₁ : Session} {items : List String}
    (hbody : ∀ item ∈ items, ∀ (t : Tour) (s : Session), Touring mains s₀ s t opened →
      s₁.LoadsTo s.toWorkspace → fileBound mains s₀.toWorkspace ≤ depth + t.met.length →
      Tours mains s₀ t opened (part item) s (body t.loaded item s)) :
    ∀ (t : Tour) (s : Session), Touring mains s₀ s t opened → s₁.LoadsTo s.toWorkspace →
      fileBound mains s₀.toWorkspace ≤ depth + t.met.length →
      Tours mains s₀ t opened (items.flatMap part) s ((items.foldlM body t.loaded) s) := by
  induction items with
  | nil => exact fun t s ht _ _ => ⟨t, rfl, ht, onward.refl _, .nil t⟩
  | cons item items ih =>
    intro t s ht hs hroom
    have hone := hbody item List.mem_cons_self t s ht hs hroom
    rw [List.foldlM_cons, List.flatMap_cons]
    cases hrun : body t.loaded item s with
    | error e s' =>
      rw [hrun] at hone
      rw [bind_of_error hrun]
      exact hone
    | ok l s' =>
      rw [hrun] at hone
      obtain ⟨t', rfl, ht', hmoves, hwalk⟩ := hone
      have hlonger := hwalk.seen_suffix.length_le
      rw [bind_of_ok hrun]
      have hrest := ih (fun i hi => hbody i (List.mem_cons_of_mem _ hi)) t' s' ht'
        (onward.trans hs hmoves) (by
          unfold Tour.met at hroom ⊢
          rw [List.length_map] at hroom ⊢
          omega)
      cases hlast : (items.foldlM body t'.loaded) s' with
      | error e s'' =>
        rw [hlast] at hrest
        exact hrest
      | ok l s'' =>
        rw [hlast] at hrest
        obtain ⟨t'', rfl, ht'', hmoves', hwalk'⟩ := hrest
        exact ⟨t'', rfl, ht'', onward.trans hmoves hmoves', (hwalk.onward hmoves').append hwalk'⟩

/-! ## Walking down the imports -/

/-- The name of an import says whether it is a script. -/
theorem isJs_of_loaded (hs : s.Orderly) (hl : s.HasLoaded file deps) {dep : String} (hdep : dep ∈ deps) :
    Path.isJs dep = .ok true ∨ Path.isJs dep = .ok false := by
  obtain ⟨id, refs, hfind, -, hrefs, rfl⟩ := hl
  rcases hs.imports id (Cache.find?_some hfind).1 refs hrefs dep hdep with hsource | hscript
  · exact .inr (Path.isJs_of_isSourceName hsource)
  · exact .inl (Path.isJs_of_isScriptName hscript)

/-- The imports of a file one after the other, given that the visit of each is a walk over it. -/
private theorem tours_imports (hs : s.Orderly) (hl : s.HasLoaded file deps) {depth : Nat}
    (hvisit : ∀ (t : Tour) (dep : String) (u : Session), Touring mains s₀ u t opened →
      u.Mentions mains dep → fileBound mains s₀.toWorkspace ≤ depth + t.met.length →
      Tours mains s₀ t opened [dep] u (visit depth t.loaded dep u))
    (ht : Touring mains s₀ s t opened) (hroom : fileBound mains s₀.toWorkspace ≤ depth + t.met.length) :
    Tours mains s₀ t opened (Path.followed deps) s
      ((deps.foldlM (fun l dep => do
        if ← Path.isJs dep then return l else visit depth l dep) t.loaded : Step Session Loaded) s) := by
  rw [Path.followed_eq_flatMap]
  refine tours_foldlM (fun dep hdep t u ht hu hroom => ?_) t s ht (onward.refl _) hroom
  have hbody : (do if ← Path.isJs dep then return t.loaded else visit depth t.loaded dep
      : Step Session Loaded) u = (if (Path.isJs dep).toOption == some false
        then visit depth t.loaded dep u else .ok t.loaded u) := by
    rcases isJs_of_loaded hs hl hdep with hjs | hjs
    · rw [hjs]
      rfl
    · rw [hjs]
      rfl
  rw [hbody]
  split
  · exact hvisit t dep u ht (.inr ⟨file, deps, hl.onward hu, hdep⟩) hroom
  · exact ⟨t, rfl, ht, onward.refl _, .nil t⟩

/-- A file that was entered is listed behind its imports. -/
private theorem tours_entered {body : Loaded → String → Step Session Loaded} {u : Session}
    (hunmet : Text.lower file ∉ t.met) (hmoves : s.LoadsTo u.toWorkspace) (hloaded : u.HasLoaded file deps)
    (hdown : Tours mains s₀ (t.enter file) (file :: opened) (Path.followed deps) u
      (deps.foldlM body (t.enter file).loaded u)) :
    Tours mains s₀ t opened [file] s ((do
      let l ← deps.foldlM body (t.enter file).loaded
      return { l with program := l.program ++ [file] } : Step Session Loaded) u) := by
  cases hfold : deps.foldlM body (t.enter file).loaded u with
  | error e v =>
    rw [hfold] at hdown
    rw [bind_of_error hfold]
    exact hdown
  | ok l v =>
    rw [hfold] at hdown
    obtain ⟨t', rfl, ht', hmoves', hwalk⟩ := hdown
    rw [bind_of_ok hfold]
    exact ⟨t'.list file, rfl, ht'.list, onward.trans hmoves hmoves',
      .enter hunmet ⟨deps, hloaded.onward hmoves', rfl⟩ hwalk (.nil _)⟩

/-- The visit of a file is a walk over it. The induction is on the number of steps left. Each step down
marks one more name as met, so the sum of both does not fall, and it is above the number of names that
there can be. -/
theorem tours_visit (hs₀ : s₀.Orderly) : ∀ (depth : Nat) (t : Tour) (opened : List String) (file : String)
    (s : Session), Touring mains s₀ s t opened → s.Mentions mains file →
      fileBound mains s₀.toWorkspace ≤ depth + t.met.length →
      Tours mains s₀ t opened [file] s (visit depth t.loaded file s) := by
  intro depth
  induction depth with
  | zero =>
    intro t opened file s ht _ hroom
    have hlt := ht.length_met hs₀
    omega
  | succ depth ih =>
    intro t opened file s ht hfile hroom
    unfold visit
    by_cases hmet : Text.lower file ∈ t.met
    · rw [if_pos (by simpa [Tour.loaded] using hmet)]
      exact ⟨t, rfl, ht, onward.refl _, .met hmet (.nil t)⟩
    · rw [if_neg (by simpa [Tour.loaded] using hmet)]
      have hclear : changeMessages (·.clearFile file) s
          = .ok () { s with messages := s.messages.clearFile file } := rfl
      rw [bind_of_ok hclear]
      cases hload : loadFile file { s with messages := s.messages.clearFile file } with
      | error e u =>
        rw [bind_of_error hload]
        obtain ⟨f, rfl, hf⟩ := (endsBy_loadFile file _).early e u hload
        have hm := ht.moves.moves
        exact ⟨f, rfl, hf.congr hm.config hm.dir⟩
      | ok answer u =>
        have hmoves := loadsTo_loadFile hload
        rw [bind_of_ok hload]
        cases answer with
        | none =>
          obtain ⟨hunread, hmessages⟩ := unread_of_loadFile hload
          exact ⟨t.miss file, rfl, ht.miss hmet hfile hmoves hmessages, hmoves,
            .unread hmet hunread (.nil _)⟩
        | some deps =>
          obtain ⟨hloaded, hmessages⟩ := loaded_of_loadFile hload
          have hentered := ht.enter hmet hfile hmoves hmessages
          have hroom' : fileBound mains s₀.toWorkspace ≤ depth + (t.enter file).met.length := by
            change _ ≤ depth + (Text.lower file :: t.met).length
            rw [List.length_cons]
            omega
          exact tours_entered hmet hmoves hloaded (tours_imports (hentered.moves.orderly hs₀) hloaded
            (fun t dep u => ih t (file :: opened) dep u) hentered hroom')

/-! ## The program -/

theorem Touring.start (mains : List String) (s : Session) : Touring mains s s .start [] where
  moves := onward.refl _
  accounts := Tour.accounts_start
  mentioned _ hf := absurd hf List.not_mem_nil
  messages := by
    change _ = (s.messages.toList.filter fun d => !([] : List String).contains d.file) ++ []
    simp

/-- Loading a program is a walk over the entry files, or it ends early at the name of a resource. -/
theorem tours_loadProgram (hs : s.Orderly) (mains : List String) :
    (∃ (t : Tour) (u : Session), Touring mains s u t [] ∧ Walk u.sources .start mains t ∧
      loadProgram mains s = .ok t.listed { u with
        messages := u.messages.retainFiles fun file => t.met.contains (Text.lower file) }) ∨
    ∃ f u, loadProgram mains s = .error (.fault f) u ∧ s.project.Unnamable f := by
  have htour : Tours mains s .start [] (mains.flatMap fun main => [main]) s
      ((mains.foldlM (visit (fileBound mains s.toWorkspace)) Tour.start.loaded) s) :=
    tours_foldlM (fun main hmain t u ht _ hroom => tours_visit hs _ t [] main u ht (.inl hmain) hroom)
      .start s (Touring.start mains s) (onward.refl s.toWorkspace) (Nat.le_add_right _ _)
  rw [List.flatMap_singleton'] at htour
  have hload : loadProgram mains s = ((do
      let l ← mains.foldlM (visit (fileBound mains s.toWorkspace)) Tour.start.loaded
      changeMessages (·.retainFiles fun file => l.met.contains (Text.lower file))
      return l.program) : Step Session (List String)) s := rfl
  rw [hload]
  cases hfold : (mains.foldlM (visit (fileBound mains s.toWorkspace)) Tour.start.loaded) s with
  | error e u =>
    rw [hfold] at htour
    obtain ⟨f, rfl, hf⟩ := htour
    exact .inr ⟨f, u, bind_of_error hfold, hf⟩
  | ok l u =>
    rw [hfold] at htour
    obtain ⟨t, rfl, ht, -, hwalk⟩ := htour
    exact .inl ⟨t, u, ht, hwalk, bind_of_ok hfold⟩

/-- A program is the closure of entry files under imports, dependencies first: it lists the files that are
reached and have a text, and beside it there are those that are reached and have none. -/
structure IsClosure (mains : List String) (earlier s : Session) (program missing : List String) :
    Prop where
  once : ((program ++ missing).map Text.lower).Nodup
  /-- What is there is what is reached from the entry files, over imports that are no scripts. -/
  reached : ∀ name, name ∈ (program ++ missing).map Text.lower ↔
    ∃ main ∈ mains, ReflTransGen (s.sources.Follows program) (Text.lower main) name
  loaded : ∀ file ∈ program, (∃ deps, s.HasLoaded file deps) ∧ s.HasText earlier.toWorkspace file
  unread : ∀ file ∈ missing, s.Unread file ∧ ¬s.HasText s.toWorkspace file
  /-- A file comes behind each file of the program that it imports and that does not lead back to it. -/
  ordered : ∀ before file after deps, program = before ++ file :: after → s.HasLoaded file deps →
    ∀ dep ∈ deps, Path.isJs dep = .ok false → ∀ other ∈ program, Text.lower other = Text.lower dep →
      ¬ReflTransGen (s.sources.Follows program) (Text.lower other) (Text.lower file) → other ∈ before
  /-- For a file that has no text there is one error, and for one that is listed there is none. -/
  reported : ∀ file ∈ missing, s.messages.ofFile file = [missingSource file]
  silent : ∀ file ∈ program, s.messages.ofFile file = []
  told : ∀ d ∈ s.messages.toList, d ∈ earlier.messages.toList ∨ ∃ file ∈ missing, d = missingSource file

/-- What is said in the end of a file that was met. -/
theorem Touring.ofFile (ht : Touring mains s₀ s t []) (hfile : file ∈ t.listed ∨ file ∈ t.missing) :
    (s.messages.retainFiles fun file => t.met.contains (Text.lower file)).ofFile file
      = (t.missing.filter (· == file)).map missingSource := by
  have hseen : file ∈ t.seen := ht.accounts.mem_seen.mpr (by simpa using hfile)
  have hmet : t.met.contains (Text.lower file) = true :=
    List.contains_iff_mem.mpr (List.mem_map_of_mem hseen)
  exact (Messages.ofFile_retainFiles (by exact hmet)).trans (ht.messages.ofFile hseen)

/-- Where a tour has come to its end it has gone over the closure. -/
theorem Touring.isClosure (ht : Touring mains s₀ s t []) (hwalk : Walk s.sources .start mains t) :
    IsClosure mains s₀ { s with
      messages := s.messages.retainFiles fun file => t.met.contains (Text.lower file) }
      t.listed t.missing := by
  have hnodup := ht.accounts.nodup
  rw [List.map_append, List.nodup_append] at hnodup
  obtain ⟨-, hmissing, hapart⟩ := hnodup
  refine ⟨ht.accounts.nodup, fun name => ?_, fun file hfile => ?_, fun file hfile => ?_,
    fun before file after deps hfile hl dep hdep hjs other hother hsame hback => ?_, fun file hfile => ?_,
    fun file hfile => ?_, fun d hd => ?_⟩
  · rw [List.map_append, List.mem_append, ← hwalk.mem_met_iff, ht.accounts.mem_met]
    simp
  · obtain ⟨deps, ⟨all, hl, -⟩, -⟩ := hwalk.of_mem_listed hfile List.not_mem_nil
    exact ⟨⟨all, hl⟩, hl.hasText ht.moves⟩
  · have hu : s.Unread file := hwalk.of_mem_missing hfile List.not_mem_nil
    exact ⟨hu, hu.not_hasText⟩
  · refine hwalk.ordered hfile ⟨deps, hl, rfl⟩ (List.mem_filter.mpr ⟨hdep, ?_⟩) hother hsame hback
    rw [hjs]
    rfl
  · refine (ht.ofFile (.inr hfile)).trans ?_
    rw [List.filter_beq, List.count_eq_one_of_mem hmissing.of_map hfile]
    rfl
  · refine (ht.ofFile (.inl hfile)).trans ?_
    rw [List.map_eq_nil_iff, List.filter_eq_nil_iff]
    intro f hf heq
    obtain rfl := beq_iff_eq.mp heq
    exact hapart _ (List.mem_map_of_mem hfile) _ (List.mem_map_of_mem hf) rfl
  · obtain ⟨hd, -⟩ := Messages.mem_retainFiles.mp hd
    rw [ht.messages, List.mem_append] at hd
    rcases hd with hold | hnew
    · exact .inl (List.mem_filter.mp hold).1
    · obtain ⟨f, hf, rfl⟩ := List.mem_map.mp hnew
      exact .inr ⟨f, hf, rfl⟩

/-- An entry file with two imports: one that leads back to it and to a script, and one that cannot be
read. -/
def circleDisk : Disk :=
  ((((Disk.empty.write "/p/a.ts" (Text.toBytes "import \"./b\";\nimport \"./c\";\n")).write
    "/p/b.ts" (Text.toBytes "import \"./a\";\nimport \"./lib\";\n")).write
    "/p/c.ts" (Text.toBytes "export const x = 1;\n")).write
    "/p/lib.js" (Text.toBytes "exports.y = 1;\n")).setUnreadable ["/p/c.ts"]

end Session

end Bundler

/-
Frames: what a stage may do to one entry, and to the project.

Where the output does not go to the disk, the disk stays as it is during a build, and the cache
goes on as a table of entries does. Then a law is given by a relation of entries and a relation of
projects, and it is a law of loading or of delivering if the few changes of an entry that there are
belong to the relation. `Frame.law` makes the law; `Frame.looking`, `Frame.loading`, `Frame.taking`
and `Frame.delivering` ask for the changes.

The first frame is that of looking and reading itself. Looking changes what was seen of a file that
was not looked at, reading changes a text that is not current, and nothing else about an entry
changes by either. It is what makes an entry that was brought up to date stay so while the files it
imports are looked for.
-/
import Bundler.Proofs.Freshness
import Bundler.Proofs.Stages

set_option autoImplicit false

namespace Bundler

open Workspace Step

/-- What the steps of a build take as given: the disk and the settings. -/
structure Surroundings where
  disk : Disk
  config : Config
  dir : String

def Workspace.surroundings (w : Workspace) : Surroundings :=
  ⟨w.disk, w.project.config, w.project.dir⟩

/-- What may become of an entry and of a project. -/
structure Frame where
  entry : Surroundings → Entry → Entry → Prop
  project : Project → Project → Prop
  refl : ∀ s e, entry s e e
  trans : ∀ s {e₁ e₂ e₃}, entry s e₁ e₂ → entry s e₂ e₃ → entry s e₁ e₃
  project_refl : ∀ p, project p p
  project_trans : ∀ {p q r}, project p q → project q r → project p r

namespace Frame

/-- The law of a frame. It speaks of builds whose output does not go to the disk. -/
def law (F : Frame) : Law Workspace where
  moves w w' := w'.project.config = w.project.config ∧ w'.project.dir = w.project.dir ∧
    w'.destination = w.destination ∧ (w.destination = none →
      w'.disk = w.disk ∧ F.project w.project w'.project ∧
        Cache.Advances w.project.dir (F.entry w.surroundings) w.cache w'.cache)
  fails w e := (∃ f, e = .fault f) ∨
    w.project.config.bundle ≠ .none ∨ w.project.config.spriteMerge = true
  refl w := ⟨rfl, rfl, rfl, fun _ => ⟨rfl, F.project_refl _, Cache.Advances.refl (F.refl _) _⟩⟩
  trans {w w' w''} h h' := by
    refine ⟨h'.1.trans h.1, h'.2.1.trans h.2.1, h'.2.2.1.trans h.2.2.1, fun hdest => ?_⟩
    obtain ⟨hdisk, hproject, hcache⟩ := h.2.2.2 hdest
    obtain ⟨hdisk', hproject', hcache'⟩ := h'.2.2.2 (h.2.2.1.trans hdest)
    refine ⟨hdisk'.trans hdisk, F.project_trans hproject hproject', ?_⟩
    have hsurr : w'.surroundings = w.surroundings := by
      unfold Workspace.surroundings
      rw [hdisk, h.1, h.2.1]
    rw [hsurr, h.2.1] at hcache'
    exact hcache.trans (F.trans _) hcache'
  back h h' := by
    rw [h.1] at h'
    exact h'
  fault _ f := .inl ⟨f, rfl⟩

variable {F : Frame}

/-- What the law of a frame says where the output does not go to the disk. -/
structure Moves (F : Frame) (w w' : Workspace) : Prop where
  config : w'.project.config = w.project.config
  dir : w'.project.dir = w.project.dir
  destination : w'.destination = none
  disk : w'.disk = w.disk
  project : F.project w.project w'.project
  cache : Cache.Advances w.project.dir (F.entry w.surroundings) w.cache w'.cache

theorem moves_of_law {w w' : Workspace} (h : F.law.moves w w') (hdest : w.destination = none) :
    F.Moves w w' := by
  obtain ⟨hconfig, hdir, hdest', hrest⟩ := h
  obtain ⟨hdisk, hproject, hcache⟩ := hrest hdest
  exact ⟨hconfig, hdir, hdest'.trans hdest, hdisk, hproject, hcache⟩

theorem Moves.surroundings {w w' : Workspace} (h : F.Moves w w') :
    w'.surroundings = w.surroundings := by
  unfold Workspace.surroundings
  rw [h.disk, h.config, h.dir]

theorem Moves.refl {w : Workspace} (hdest : w.destination = none) : F.Moves w w :=
  moves_of_law (F.law.refl w) hdest

theorem Moves.trans {w w' w'' : Workspace} (h : F.Moves w w') (h' : F.Moves w' w'') :
    F.Moves w w'' where
  config := h'.config.trans h.config
  dir := h'.dir.trans h.dir
  destination := h'.destination
  disk := h'.disk.trans h.disk
  project := F.project_trans h.project h'.project
  cache := by
    have hcache := h'.cache
    rw [h.surroundings, h.dir] at hcache
    exact h.cache.trans (F.trans _) hcache

/-- A step that obeys the law of a frame moves in the frame. -/
theorem moves_of_obeys {α : Type} {step : Step Workspace α} (h : Obeys F.law step)
    {w w' : Workspace} {a : α} (hdest : w.destination = none) (hs : step w = .ok a w') :
    F.Moves w w' := moves_of_law (h.ok hs) hdest

private theorem moves_cache (F : Frame) (w : Workspace) {c : Cache}
    (h : Cache.Advances w.project.dir (F.entry w.surroundings) w.cache c) :
    F.law.moves w { w with cache := c } :=
  ⟨rfl, rfl, rfl, fun _ => ⟨rfl, F.project_refl _, h⟩⟩

/-- A change of the project moves in a frame that admits it. -/
theorem moves_project (F : Frame) (w : Workspace) {p : Project} (h : F.project w.project p)
    (hconfig : p.config = w.project.config) (hdir : p.dir = w.project.dir) :
    F.law.moves w { w with project := p } :=
  ⟨hconfig, hdir, rfl, fun _ => ⟨rfl, h, Cache.Advances.refl (F.refl _) _⟩⟩

/-- A change of one entry moves in a frame that admits it. -/
theorem moves_modify (F : Frame) (w : Workspace) (id : Nat) {f : Entry → Entry}
    (hkey : ∀ e, (f e).key = e.key)
    (h : id < w.cache.entries.length →
      F.entry w.surroundings (w.cache.entry id) (f (w.cache.entry id))) :
    F.law.moves w (w.changed id f) :=
  moves_cache F w (Cache.Advances.modify (F.refl _) hkey h)

/-- The law of a frame is one of looking if its relations admit a look, reading, and quiet changes
of the project. -/
theorem looking (F : Frame) (hlook : ∀ s e, F.entry s e (e.looked s.disk))
    (htext : ∀ s e, F.entry s e (e.withText s.disk))
    (hbuffer : ∀ s e, F.entry s e (e.withBuffer s.disk))
    (hquiet : ∀ p q : Project, p.Quiet q → F.project p q) : Looking F.law where
  config h := h.1
  dir h := h.2.1
  enter w phase := ⟨rfl, rfl, rfl, fun _ => ⟨rfl, F.project_refl _,
    Cache.Advances.refl (F.refl _) _⟩⟩
  get w name := moves_cache F w (Cache.Advances.get (F.refl _) _ name _)
  look w id := by
    refine moves_cache F w ?_
    rw [Cache.probe_eq]
    exact Cache.Advances.modify (F.refl _) (Entry.looked_key w.disk) fun _ => hlook _ _
  text w id := by
    refine moves_cache F w ?_
    have hone : Cache.Advances w.project.dir (F.entry w.surroundings) w.cache
        (w.cache.modify id (Entry.withText w.disk)) :=
      Cache.Advances.modify (F.refl _) (Entry.withText_key w.disk) fun _ => htext _ _
    refine hone.trans (F.trans _) ?_
    exact Cache.Advances.of_entries_eq (F.refl _) (Cache.entries_ensureText w.disk w.cache id)
  buffer w id := by
    refine moves_cache F w ?_
    have hone : Cache.Advances w.project.dir (F.entry w.surroundings) w.cache
        (w.cache.modify id (Entry.withBuffer w.disk)) :=
      Cache.Advances.modify (F.refl _) (Entry.withBuffer_key w.disk) fun _ => hbuffer _ _
    refine hone.trans (F.trans _) ?_
    exact Cache.Advances.of_entries_eq (F.refl _) (Cache.entries_ensureBuffer w.disk w.cache id)
  quiet w p hq := ⟨hq.config, hq.dir, rfl, fun _ => ⟨rfl, hquiet _ _ hq,
    Cache.Advances.refl (F.refl _) _⟩⟩

end Frame

/-! ## Looking and reading -/

/-- What looking and reading may do to an entry. -/
structure Entry.Read (s : Surroundings) (e e' : Entry) : Prop where
  fullName : e'.fullName = e.fullName
  key : e'.key = e.key
  script : e'.script = e.script
  sourceTime : e'.sourceTime = e.sourceTime
  diagnostics : e'.diagnostics = e.diagnostics
  references : e'.references = e.references
  infoTime : e'.infoTime = e.infoTime
  outputTime : e'.outputTime = e.outputTime
  freshness : e'.freshness = e.freshness
  seen : e.current.isSet = true → e'.current = e.current
  unseen : e.current = .unset → e'.current = .unset ∨ e'.current = s.disk.stamp e.fullName
  text : e.isTextCurrent = true → e'.text = e.text ∧ e'.textTime = e.textTime

namespace Entry

variable {s : Surroundings} {e e' e'' : Entry}

theorem isSet_of_isTextCurrent (h : e.isTextCurrent = true) : e.current.isSet = true := by
  obtain ⟨t, hcur⟩ := at_of_found (isTextCurrent_iff.mp h).1
  rw [hcur]
  rfl

theorem isTextCurrent_congr (hcur : e'.current = e.current) (htext : e'.text = e.text)
    (htime : e'.textTime = e.textTime) : e'.isTextCurrent = e.isTextCurrent := by
  unfold isTextCurrent found
  rw [hcur, htext, htime]

theorem Read.refl (s : Surroundings) (e : Entry) : Read s e e :=
  ⟨rfl, rfl, rfl, rfl, rfl, rfl, rfl, rfl, rfl, fun _ => rfl, fun h => .inl h, fun _ => ⟨rfl, rfl⟩⟩

theorem Read.isTextCurrent (h : Read s e e') (ht : e.isTextCurrent = true) :
    e'.isTextCurrent = true := by
  obtain ⟨htext, htime⟩ := h.text ht
  rw [isTextCurrent_congr (h.seen (isSet_of_isTextCurrent ht)) htext htime]
  exact ht

theorem Read.trans (h : Read s e e') (h' : Read s e' e'') : Read s e e'' where
  fullName := h'.fullName.trans h.fullName
  key := h'.key.trans h.key
  script := h'.script.trans h.script
  sourceTime := h'.sourceTime.trans h.sourceTime
  diagnostics := h'.diagnostics.trans h.diagnostics
  references := h'.references.trans h.references
  infoTime := h'.infoTime.trans h.infoTime
  outputTime := h'.outputTime.trans h.outputTime
  freshness := h'.freshness.trans h.freshness
  seen hset := by
    have heq := h.seen hset
    rw [← heq]
    exact h'.seen (by rw [heq]; exact hset)
  unseen hunset := by
    rcases h.unseen hunset with hu | hs
    · rw [← h.fullName]
      exact h'.unseen hu
    · right
      rw [h'.seen (by rw [hs]; exact Disk.stamp_isSet _ _), hs]
  text ht := by
    obtain ⟨htext, htime⟩ := h.text ht
    obtain ⟨htext', htime'⟩ := h'.text (h.isTextCurrent ht)
    exact ⟨htext'.trans htext, htime'.trans htime⟩

theorem Read.looked (s : Surroundings) (e : Entry) : Read s e (e.looked s.disk) := by
  cases hcur : e.current with
  | unset =>
    rw [looked_of_unset hcur]
    refine ⟨rfl, rfl, rfl, rfl, rfl, rfl, rfl, rfl, rfl, fun h => ?_, fun _ => .inr rfl,
      fun _ => ⟨rfl, rfl⟩⟩
    rw [hcur] at h
    exact absurd h (by simp [Stamp.isSet])
  | missing =>
    rw [looked_of_isSet (by rw [hcur]; rfl)]
    exact Read.refl s e
  | «at» t =>
    rw [looked_of_isSet (by rw [hcur]; rfl)]
    exact Read.refl s e

theorem Read.withText (s : Surroundings) (e : Entry) : Read s e (e.withText s.disk) := by
  unfold Entry.withText
  by_cases hcur : e.isTextCurrent = true
  · by_cases hfound : e.found = true
    · rw [if_neg (by simp [hfound]), if_pos hcur]
      exact Read.refl s e
    · exact absurd hcur (by simp [Entry.isTextCurrent, hfound])
  · split
    · exact ⟨rfl, rfl, rfl, rfl, rfl, rfl, rfl, rfl, rfl, fun _ => rfl, fun h => .inl h,
        fun h => absurd h hcur⟩
    · split
      · exact ⟨rfl, rfl, rfl, rfl, rfl, rfl, rfl, rfl, rfl, fun _ => rfl, fun h => .inl h,
          fun h => absurd h hcur⟩
      · exact ⟨rfl, rfl, rfl, rfl, rfl, rfl, rfl, rfl, rfl, fun _ => rfl, fun h => .inl h,
          fun h => absurd h hcur⟩

theorem Read.withBuffer (s : Surroundings) (e : Entry) : Read s e (e.withBuffer s.disk) := by
  have hother : ∀ (b : Option Bytes) (t : Stamp),
      Read s e { e with buffer := b, bufferTime := t } := fun b t =>
    ⟨rfl, rfl, rfl, rfl, rfl, rfl, rfl, rfl, rfl, fun _ => rfl, fun h => .inl h,
      fun _ => ⟨rfl, rfl⟩⟩
  unfold Entry.withBuffer
  split
  · exact hother e.buffer _
  · split
    · exact Read.refl s e
    · split
      · exact hother _ _
      · exact hother e.buffer _

theorem Read.isSourceCurrent (h : Read s e e') (hs : e.isSourceCurrent = true) :
    e'.isSourceCurrent = true := by
  obtain ⟨htext, hsource, hscript⟩ := isSourceCurrent_iff.mp hs
  obtain ⟨-, htime⟩ := h.text htext
  refine isSourceCurrent_iff.mpr ⟨h.isTextCurrent htext, ?_, ?_⟩
  · rw [h.sourceTime, htime, hsource]
  · rw [h.script]
    exact hscript

theorem Read.isInfoCurrent (h : Read s e e') (hset : e.current.isSet = true) :
    e'.isInfoCurrent = e.isInfoCurrent := by
  unfold Entry.isInfoCurrent found
  rw [h.seen hset, h.infoTime, h.references]

end Entry

/-- The frame of looking and reading. -/
def Frame.reading : Frame where
  entry := Entry.Read
  project := Project.Quiet
  refl := Entry.Read.refl
  trans _ _ _ _ h h' := Entry.Read.trans h h'
  project_refl := Project.Quiet.refl
  project_trans h h' := h.trans h'

theorem Frame.looking_reading : Looking Frame.reading.law :=
  Frame.looking Frame.reading Entry.Read.looked Entry.Read.withText Entry.Read.withBuffer
    fun _ _ h => h

/-! ## Wherever the output goes -/

/-- A workspace without a destination of its output. -/
def Workspace.aside (w : Workspace) : Workspace := { w with destination := none }

namespace Frame

variable {F : Frame}

/-- The law of a frame where the destination of the output is left alone. -/
def still (F : Frame) : Law Workspace where
  moves w w' := w'.destination = w.destination ∧ F.law.moves w.aside w'.aside
  fails _ _ := True
  refl w := ⟨rfl, F.law.refl w.aside⟩
  trans h h' := ⟨h'.1.trans h.1, F.law.trans h.2 h'.2⟩
  back _ _ := trivial
  fault _ _ := trivial

/-- Beside the destination all is as if there was none. -/
theorem moves_of_still {w w' : Workspace} (h : F.still.moves w w') : F.Moves w.aside w'.aside :=
  moves_of_law h.2 rfl

theorem looking_still (hL : Looking F.law) : Looking F.still where
  config h := h.2.1
  dir h := h.2.2.1
  enter w phase := ⟨rfl, hL.enter w.aside phase⟩
  get w name := ⟨rfl, hL.get w.aside name⟩
  look w id := ⟨rfl, hL.look w.aside id⟩
  text w id := ⟨rfl, hL.text w.aside id⟩
  buffer w id := ⟨rfl, hL.buffer w.aside id⟩
  quiet w p hq := ⟨rfl, hL.quiet w.aside p hq⟩

end Frame

/-! ## Gathering references -/

namespace Session

variable {L : Law Workspace}

/-- No more imports are found than are looked for. -/
theorem length_findImports {file : String} :
    ∀ {specifiers : List String} {deps : List (String × String)} {w w' : Workspace},
      findImports file specifiers w = .ok deps w' → deps.length ≤ specifiers.length
  | [], deps, w, w', h => by
    obtain ⟨rfl, -⟩ := (pure_ok_iff _ _ _ _).mp h
    exact Nat.le_refl _
  | specifier :: rest, deps, w, w', h => by
    obtain ⟨found, w₁, -, h⟩ := (bind_ok_iff _ _ _ _ _).mp h
    obtain ⟨others, w₂, hothers, h⟩ := (bind_ok_iff _ _ _ _ _).mp h
    have hlen := length_findImports hothers
    cases found with
    | none =>
      obtain ⟨rfl, -⟩ := (pure_ok_iff _ _ _ _).mp h
      exact Nat.le_succ_of_le hlen
    | some m =>
      obtain ⟨rfl, -⟩ := (pure_ok_iff _ _ _ _).mp h
      exact Nat.succ_le_succ hlen

/-- Gathering references changes the entry once, behind the search for the imports. -/
theorem allows_refreshReferences (hL : Looking L) {file : String} {id : Nat} {w : Workspace}
    (hrecord : ∀ deps v script refs, (w.cache.entry id).isInfoCurrent = false →
      findImports file ((((w.cache.entry id).script?.map Script.imports).getD []).map
        Import.specifier) w = .ok deps v →
      (v.cache.entry id).script = some script →
      References.gather script deps (v.project.resourceName file) = .ok refs → L.moves w v →
      L.moves w (v.changed id fun e =>
        { e with references := some refs, infoTime := e.current })) :
    L.Allows w (refreshReferences file id w) := by
  unfold refreshReferences
  refine Law.Allows.bind (obeys_entry id w) fun e t he => ?_
  obtain ⟨rfl, rfl⟩ := (entry_ok_iff _ _ _ _).mp he
  by_cases hcur : (w.cache.entry id).isInfoCurrent = true
  · simp only [hcur, Bool.not_true, Bool.false_eq_true, if_false]
    exact obeys_pure _ w
  · have hout : (w.cache.entry id).isInfoCurrent = false := by simpa using hcur
    simp only [hout, Bool.not_false, if_true]
    refine Law.Allows.bind_from (obeys_findImports hL file _ w) fun deps v hdeps hm => ?_
    have hget : (get : Step Workspace Workspace) v = .ok v v := rfl
    have hentry : entry id v = .ok (v.cache.entry id) v := (entry_ok_iff _ _ _ _).mpr ⟨rfl, rfl⟩
    rw [bind_of_ok hget, bind_of_ok hentry]
    cases hscript : (v.cache.entry id).script with
    | none => exact hm
    | some script =>
      change L.Allows w (EStateM.bind (liftM (References.gather script deps
        (v.project.resourceName file)) : Step Workspace References) _ v)
      cases hgather : References.gather script deps (v.project.resourceName file) with
      | error f => exact ⟨hm, L.fault w f⟩
      | ok refs => exact hrecord deps v script refs hout hdeps hscript hgather hm

/-- References that were gathered are current, or the entry has no script. -/
theorem refreshReferences_ok {file : String} {id : Nat} {w w' : Workspace} {u : Unit}
    (h : refreshReferences file id w = .ok u w') :
    ((w.cache.entry id).isInfoCurrent = true ∧ w' = w) ∨
    ((w.cache.entry id).isInfoCurrent = false ∧ ∃ deps v,
      findImports file ((((w.cache.entry id).script?.map Script.imports).getD []).map
        Import.specifier) w = .ok deps v ∧
      (((v.cache.entry id).script = none ∧ w' = v) ∨
      ∃ script refs, (v.cache.entry id).script = some script ∧
        References.gather script deps (v.project.resourceName file) = .ok refs ∧
        w' = v.changed id fun e => { e with references := some refs, infoTime := e.current })) := by
  unfold refreshReferences at h
  obtain ⟨e, t, he, h⟩ := (bind_ok_iff _ _ _ _ _).mp h
  obtain ⟨rfl, rfl⟩ := (entry_ok_iff _ _ _ _).mp he
  by_cases hcur : (w.cache.entry id).isInfoCurrent = true
  · simp only [hcur, Bool.not_true, Bool.false_eq_true, if_false] at h
    obtain ⟨-, rfl⟩ := (pure_ok_iff _ _ _ _).mp h
    exact .inl ⟨hcur, rfl⟩
  · have hout : (w.cache.entry id).isInfoCurrent = false := by simpa using hcur
    simp only [hout, Bool.not_false, if_true] at h
    obtain ⟨deps, v, hdeps, h⟩ := (bind_ok_iff _ _ _ _ _).mp h
    obtain ⟨u', t, hget, h⟩ := (bind_ok_iff _ _ _ _ _).mp h
    obtain ⟨rfl, rfl⟩ := (get_ok_iff _ _ _).mp hget
    obtain ⟨e, t, he, h⟩ := (bind_ok_iff _ _ _ _ _).mp h
    obtain ⟨rfl, rfl⟩ := (entry_ok_iff _ _ _ _).mp he
    refine .inr ⟨hout, deps, v, hdeps, ?_⟩
    cases hscript : (v.cache.entry id).script with
    | none =>
      rw [hscript] at h
      obtain ⟨-, rfl⟩ := (pure_ok_iff _ _ _ _).mp h
      exact .inl ⟨rfl, rfl⟩
    | some script =>
      rw [hscript] at h
      obtain ⟨refs, t, hrefs, h⟩ := (bind_ok_iff _ _ _ _ _).mp h
      obtain ⟨hgather, rfl⟩ := (lift_ok_iff _ _ _ _).mp hrefs
      exact .inr ⟨script, refs, rfl, hgather, ((modify_ok_iff _ _ _ _).mp h).symm⟩

end Session

namespace Frame

variable {F : Frame} {N K : String → Prop}

/-- What is known of an entry whose references are recorded. -/
structure Gathering (N : String → Prop) (s : Surroundings) (e : Entry) (file : String)
    (script : Script) (deps : List (String × String)) (refs : References) : Prop where
  name : N file
  key : e.key = Cache.keyOf s.dir file
  source : e.isSourceCurrent = true
  outdated : e.isInfoCurrent = false
  hasScript : e.script = some script
  few : deps.length ≤ script.imports.length
  gathered : ∃ p : Project, p.config = s.config ∧ p.dir = s.dir ∧
    References.gather script deps (p.resourceName file) = .ok refs

/-- What is known of an entry whose script is kept. -/
structure Parsing (N : String → Prop) (s : Surroundings) (e : Entry) (file : String)
    (script : Script) (ds : List Diagnostic) : Prop where
  name : N file
  key : e.key = Cache.keyOf s.dir file
  text : e.isTextCurrent = true
  outdated : e.isSourceCurrent = false
  read : Script.read file (e.text.getD "") = .ok (script, ds)

/-- What is known when the references of a script are recorded, behind the search for its imports. -/
theorem Gathering.of_findImports {w v : Workspace} {id : Nat} {file : String} {script : Script}
    {deps : List (String × String)} {refs : References} (hN : N file)
    (hfind : w.cache.find? w.project.dir file = some id)
    (hsource : (w.cache.entry id).isSourceCurrent = true)
    (hout : (w.cache.entry id).isInfoCurrent = false)
    (hdeps : Session.findImports file ((((w.cache.entry id).script?.map Script.imports).getD []).map
      Import.specifier) w = .ok deps v)
    (hscript : (v.cache.entry id).script = some script)
    (hgather : References.gather script deps (v.project.resourceName file) = .ok refs) :
    Gathering N v.surroundings (v.cache.entry id) file script deps refs := by
  have hm := moves_of_still ((Session.obeys_findImports (looking_still looking_reading) file _).ok hdeps)
  have hread : Entry.Read w.surroundings (w.cache.entry id) (v.cache.entry id) :=
    hm.cache.old id (Cache.find?_some hfind).1
  have hset : (w.cache.entry id).current.isSet = true :=
    Entry.isSet_of_isTextCurrent (Entry.isSourceCurrent_iff.mp hsource).1
  refine ⟨hN, ?_, hread.isSourceCurrent hsource, ?_, hscript, ?_, v.project, rfl, rfl, hgather⟩
  · rw [hread.key, (Cache.find?_some hfind).2]
    exact congrArg (fun dir => Cache.keyOf dir file) hm.dir.symm
  · rw [hread.isInfoCurrent hset]
    exact hout
  · have hlen := Session.length_findImports hdeps
    rw [List.length_map] at hlen
    have hsome : (w.cache.entry id).script? = some script := by
      unfold Entry.script?
      rw [if_pos hsource, ← hread.script, hscript]
    rw [hsome] at hlen
    exact hlen

/-- The law of a frame is one of loading if it is one of looking, and its relation of entries
admits that a script is kept and that references are recorded. -/
theorem loading (hL : Looking F.law)
    (hscript : ∀ s e file script ds, Parsing N s e file script ds →
      F.entry s e { e with script := some script, diagnostics := ds, sourceTime := e.textTime })
    (hrefs : ∀ s e file script deps refs, Gathering N s e file script deps refs →
      F.entry s e { e with references := some refs, infoTime := e.current }) :
    Loading F.law N where
  toLooking := hL
  script w id file sc ds hN hfind htext hout hread := by
    refine moves_modify F w id (fun _ => rfl) fun _ => hscript _ _ file sc ds ?_
    exact ⟨hN, (Cache.find?_some hfind).2, htext, hout, hread⟩
  refs w id file hN hfind hsource := by
    refine Session.allows_refreshReferences hL
      fun deps v script refs hout hdeps hscript hgather hm => F.law.trans hm ?_
    refine ⟨rfl, rfl, rfl, fun _ => ⟨rfl, F.project_refl _, ?_⟩⟩
    refine Cache.Advances.modify (F.refl _) (fun _ => rfl) fun _ => hrefs _ _ file script deps refs ?_
    exact Gathering.of_findImports hN hfind hsource hout hdeps hscript hgather

/-- The law of a frame is one of working out freshness if it is one of looking, and its relation of
entries admits marks. -/
theorem walking (hL : Looking F.law) (hmark : ∀ s e f, F.entry s e { e with freshness := f }) :
    Walking F.law where
  get := hL.get
  look := hL.look
  mark w id f := moves_modify F w id (fun _ => rfl) fun _ => hmark _ _ f
  unmark w := moves_cache F w (Cache.Advances.mapEntries (fun _ => rfl) fun _ => hmark _ _ _)

/-- The law of a frame is one of writing if it is one of looking, and its relation of projects admits
writes. -/
theorem writing (hL : Looking F.law)
    (hwrite : ∀ (p : Project) path content, F.project p (p.write path content)) :
    Writing F.law where
  toLooking := hL
  write w path content := by
    refine ⟨w.written_config path content, w.written_dir path content,
      w.written_destination path content, fun hdest => ?_⟩
    rw [Workspace.written_of_none hdest]
    exact ⟨rfl, hwrite _ _ _, Cache.Advances.refl (F.refl _) _⟩
  fails _ _ h := .inr h

/-- The law of a frame admits a layout of the atlas if its relation of projects does. -/
theorem placing (h : ∀ (p : Project) atlas, F.project p { p with atlas }) : Placing F.law :=
  fun w atlas => moves_project F w (h w.project atlas) rfl rfl

/-- The law of a frame is one of taking scripts over if it is one of looking, and its relations
admit copies, writes and kept modules. -/
theorem taking (hL : Looking F.law)
    (htook : ∀ s e, K e.key → e.isTextCurrent = true →
      s.config.bundle ≠ .none ∨ e.needsCopy = true → F.entry s e { e with outputTime := e.textTime })
    (hcopied : ∀ s e, e.needsCopy = true → F.entry s e { e with outputTime := e.current })
    (hwrite : ∀ (p : Project) path content, F.project p (p.write path content))
    (hkeep : ∀ (p : Project) id m, F.project p { p with emitted := p.emitted.insert id m }) :
    Taking F.law K where
  toWriting := writing hL hwrite
  keep _ _ _ _ := ⟨rfl, rfl, rfl, fun _ => ⟨rfl, hkeep _ _ _, Cache.Advances.refl (F.refl _) _⟩⟩
  took w id hK htext hneed := moves_modify F w id (fun _ => rfl) fun _ => htook _ _ hK htext hneed
  copied w id hneed := moves_modify F w id (fun _ => rfl) fun _ => hcopied _ _ hneed

/-- The law of a frame is one of delivering if it is one of taking scripts over, and its relation of
entries admits stamps. -/
theorem delivering (hL : Taking F.law K) (hstamp : ∀ s e, F.entry s e e.stampOutput) :
    Delivering F.law K where
  toTaking := hL
  stamp w id := moves_modify F w id (fun _ => rfl) fun _ => hstamp _ _

end Frame

end Bundler

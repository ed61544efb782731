/-
The steps of a build in lockstep.

Two workspaces that are twins stay so when the same is done in both: when a name is looked at or read,
when what was seen is asked for, when an entry is changed, when something is written or said. Numbers
of entries differ in the two, so where a step answers a number the two answers are numbers of one
name (`Workspace.Pair`), and whatever is asked of entries with such numbers has the same answer.

A pair is known together with something that both entries have, and as far as that is not lost while
a build goes on, the pair is known to the end (`stable_pair`).
-/
import Bundler.Proofs.TwinProjects

set_option autoImplicit false

namespace Bundler

open Workspace Step Coupling

/-! ## What two entries hand out -/

namespace Entry

variable {N : String → Prop} {s : Surroundings} {e e' : Entry} {disk : Disk} {old : Option Entry}

/-- The text was asked for: it is handed out if it can be read. -/
def Asked (disk : Disk) (e : Entry) : Prop :=
  e.current.isSet = true ∧ e.text? = (disk.read? e.fullName).map Text.ofBytes

/-- The bytes were asked for: they are handed out if they can be read. -/
def Grasped (disk : Disk) (e : Entry) : Prop :=
  e.current.isSet = true ∧ e.buffer? = disk.read? e.fullName

private theorem isSet_withText (h : e.current.isSet = true) :
    (e.withText disk).current.isSet = true := by
  rw [(Read.withText ⟨disk, .default, ""⟩ e).seen h]
  exact h

private theorem isSet_withBuffer (h : e.current.isSet = true) :
    (e.withBuffer disk).current.isSet = true := by
  rw [(Read.withBuffer ⟨disk, .default, ""⟩ e).seen h]
  exact h

theorem Reliable.asked (h : e.Reliable N s) (hset : e.current.isSet = true) :
    (e.withText s.disk).Asked s.disk :=
  ⟨isSet_withText hset, text?_withText h.seen hset h.legible⟩

private theorem buffer?_missing (htime : e.bufferTime = .missing) : e.buffer? = none := by
  unfold Entry.buffer? Entry.isBufferCurrent Entry.found
  rw [htime]
  cases e.current <;> simp [Stamp.time?]

/-- The bytes that are handed out once they were asked for are what can be read. -/
theorem Reliable.grasped (h : e.Reliable N s) (hset : e.current.isSet = true) :
    (e.withBuffer s.disk).Grasped s.disk := by
  refine ⟨isSet_withBuffer hset, ?_⟩
  have hname : (e.withBuffer s.disk).fullName = e.fullName := (Read.withBuffer s e).fullName
  rw [hname]
  by_cases hfound : e.found = true
  · obtain ⟨t, hcur, hmod⟩ := h.seen.at_of_found hfound
    unfold Entry.withBuffer
    rw [if_neg (by simp [hfound])]
    by_cases hcurrent : e.isBufferCurrent = true
    · rw [if_pos hcurrent]
      unfold Entry.buffer?
      rw [if_pos hcurrent]
      obtain ⟨-, htime, bytes, hbytes⟩ := Entry.isBufferCurrent_iff.mp hcurrent
      rw [hbytes]
      exact (h.graspable t bytes (htime.trans hcur) hbytes hmod).symm
    · rw [if_neg hcurrent]
      cases s.disk.read? e.fullName with
      | none => exact buffer?_missing rfl
      | some bytes =>
        unfold Entry.buffer? Entry.isBufferCurrent Entry.found
        simp [hcur, Stamp.time?]
  · have hgone : s.disk.modified? e.fullName = none := by
      rw [found_of_seen h.seen hset] at hfound
      simpa using hfound
    rw [Disk.read?_of_not_modified? hgone]
    unfold Entry.withBuffer
    rw [if_pos (by simpa using hfound)]
    exact buffer?_missing rfl

theorem isTextCurrent_eq (e : Entry) : e.isTextCurrent = e.text?.isSome := by
  unfold text?
  split
  · rename_i hcur
    obtain ⟨-, -, text, htext⟩ := isTextCurrent_iff.mp hcur
    rw [hcur, htext]
    rfl
  · rename_i hcur
    simpa using hcur

/-- Scripts that are current were read from the same text under the same name. -/
theorem Twin.script {past : Past} (h : Twin s.disk old e e') (hr : e.Reliable past.names s)
    (hr' : e'.Reliable past.names s) (hdir : s.dir = past.dir) (hkey : e'.key = e.key)
    (hs : e.isSourceCurrent = true) (hs' : e'.isSourceCurrent = true) :
    e'.script = e.script ∧ e'.diagnostics = e.diagnostics := by
  have hpiece : ∀ d : Entry, d.Reliable past.names s → d.isSourceCurrent = true →
      ∃ script, d.script = some script ∧ d.Reads past.names s script := by
    intro d hd hcur
    obtain ⟨htext, hsource, script, hscript⟩ := isSourceCurrent_iff.mp hcur
    obtain ⟨hfound, htime, -⟩ := isTextCurrent_iff.mp htext
    obtain ⟨t, hat, hmod⟩ := hd.seen.at_of_found hfound
    exact ⟨script, hscript, hd.faithful.fits.script t script (hsource.trans (htime.trans hat))
      hscript hmod⟩
  obtain ⟨script, hscript, file, bytes, hN, hfile, hbytes, hread⟩ := hpiece e hr hs
  obtain ⟨script', hscript', file', bytes', hN', hfile', hbytes', hread'⟩ := hpiece e' hr' hs'
  have hsame : file' = file := by
    refine past.one file' file hN' hN ?_
    rw [← hdir, ← hfile', ← hfile, hkey]
  rw [h.fullName, hbytes] at hbytes'
  rw [hsame, ← Option.some.inj hbytes', hread] at hread'
  obtain ⟨heq, hds⟩ := Prod.mk.inj (Except.ok.inj hread')
  exact ⟨by rw [hscript, hscript', heq], hds.symm⟩

end Entry

/-! ## Pairs of numbers -/

namespace Workspace

variable {past : Past} {w w' : Workspace} {name : String} {i i' : Nat} {P Q : Entry → Prop}

/-- The numbers of one name in two workspaces, and what both entries have. -/
structure Pair (P : Entry → Prop) (name : String) (i i' : Nat) (w w' : Workspace) : Prop where
  left : w.cache.find? w.project.dir name = some i
  right : w'.cache.find? w'.project.dir name = some i'
  holds : P (w.cache.entry i)
  holds' : P (w'.cache.entry i')

theorem Pair.mono (h : Pair P name i i' w w') (hP : ∀ e, P e → Q e) : Pair Q name i i' w w' :=
  ⟨h.left, h.right, hP _ h.holds, hP _ h.holds'⟩

theorem Pair.twin (h : Pair P name i i' w w') (ht : Twins past w w') :
    Entry.Twin w.disk (past.cache.at? (Cache.keyOf w.project.dir name)) (w.cache.entry i)
      (w'.cache.entry i') := ht.entry h.left h.right

theorem Pair.reliable (h : Pair P name i i' w w') (ht : Twins past w w') :
    (w.cache.entry i).Reliable past.names w.surroundings ∧
      (w'.cache.entry i').Reliable past.names w.surroundings := by
  refine ⟨ht.left.entries i (Cache.find?_some h.left).1, ?_⟩
  rw [← ht.surroundings]
  exact ht.right.entries i' (Cache.find?_some h.right).1

theorem Pair.key (h : Pair P name i i' w w') (ht : Twins past w w') :
    (w'.cache.entry i').key = (w.cache.entry i).key := by
  rw [(Cache.find?_some h.right).2, (Cache.find?_some h.left).2, ht.dir]

theorem stable_pair (hP : ∀ e e', Entry.Grows e e' → P e → P e') :
    past.coupling.Stable (Pair P name i i') := by
  have hone : ∀ (N : String → Prop) (w u : Workspace) (i : Nat), w.Reliable N →
      Frame.grows.law.moves w u → w.cache.find? w.project.dir name = some i → P (w.cache.entry i) →
      u.cache.find? u.project.dir name = some i ∧ P (u.cache.entry i) := by
    intro N w u i hw hm hi hPi
    have hmoves := Frame.moves_of_law hm hw.destination
    refine ⟨?_, hP _ _ (hmoves.cache.old i (Cache.find?_some hi).1) hPi⟩
    rw [hmoves.dir]
    exact hmoves.cache.find? hi
  intro w w' t t' hw hm hm' _ h
  obtain ⟨hleft, hholds⟩ := hone _ w t i hw.left hm h.left h.holds
  obtain ⟨hright, hholds'⟩ := hone _ w' t' i' hw.right hm' h.right h.holds'
  exact ⟨hleft, hright, hholds, hholds'⟩

/-- The file was looked at. -/
def Looked (e : Entry) : Prop := e.current.isSet = true

theorem stable_looked : past.coupling.Stable (Pair Looked name i i') :=
  stable_pair fun e e' hg h => by
    unfold Looked at h ⊢
    rw [hg.seen h]
    exact h

section

variable (h : Pair Looked name i i' w w') (ht : Twins past w w')

include h ht

theorem Pair.found : (w'.cache.entry i').found = (w.cache.entry i).found := by
  obtain ⟨hr, hr'⟩ := h.reliable ht
  exact (h.twin ht).found hr.seen hr'.seen h.holds h.holds'

theorem Pair.needsCopy : (w'.cache.entry i').needsCopy = (w.cache.entry i).needsCopy := by
  obtain ⟨hr, hr'⟩ := h.reliable ht
  exact (h.twin ht).needsCopy hr.seen hr'.seen h.holds h.holds'

theorem Pair.isInfoCurrent :
    (w'.cache.entry i').isInfoCurrent = (w.cache.entry i).isInfoCurrent := by
  obtain ⟨hr, hr'⟩ := h.reliable ht
  exact (h.twin ht).isInfoCurrent hr.seen hr'.seen h.holds h.holds'

theorem Pair.references? : (w'.cache.entry i').references? = (w.cache.entry i).references? := by
  obtain ⟨hr, hr'⟩ := h.reliable ht
  exact (h.twin ht).references? hr.seen hr'.seen h.holds h.holds'

end

theorem Pair.text? {disk : Disk} (h : Pair (Entry.Asked disk) name i i' w w')
    (ht : Twins past w w') : (w'.cache.entry i').text? = (w.cache.entry i).text? := by
  rw [h.holds.2, h.holds'.2, (h.twin ht).fullName]

theorem Pair.buffer? {disk : Disk} (h : Pair (Entry.Grasped disk) name i i' w w')
    (ht : Twins past w w') : (w'.cache.entry i').buffer? = (w.cache.entry i).buffer? := by
  rw [h.holds.2, h.holds'.2, (h.twin ht).fullName]

/-- The scripts of files that are loaded are the same. -/
theorem Pair.script (h : Pair (fun e => e.isSourceCurrent = true) name i i' w w')
    (ht : Twins past w w') :
    (w'.cache.entry i').script = (w.cache.entry i).script ∧
      (w'.cache.entry i').diagnostics = (w.cache.entry i).diagnostics := by
  obtain ⟨hr, hr'⟩ := h.reliable ht
  have hdir : w.surroundings.dir = past.dir := ht.dir.symm.trans ht.project.dir
  exact (h.twin ht).script hr hr' hdir (h.key ht) h.holds h.holds'

end Workspace

/-! ## Looking, reading and asking -/

namespace Past

variable {past : Past} {name : String} {i i' : Nat} {α β γ : Type} {pre : Workspace → Workspace → Prop}

/-- The number of a name. -/
theorem lockstep_get (name : String) :
    Lockstep past.coupling free (onCache fun _ dir c => c.get dir name)
      (onCache fun _ dir c => c.get dir name) fun w w' i i' => Pair (fun _ => True) name i i' w w' :=
  Lockstep.of_modifyGet (fun w => Frame.looking_grows.get w name)
    (fun w => Frame.looking_grows.get w name) fun _ _ hw _ hfine =>
      ⟨hw.got hfine.spelt, Cache.find?_get _ _ _, Cache.find?_get _ _ _, trivial, trivial⟩

/-- Entries of one name are read or looked at. -/
private theorem twins_reading {w w' : Workspace} {disk : Disk} {f : Disk → Entry → Entry}
    (hw : w.Twins past w') (hdisk : w.disk = disk) (hi : w.cache.find? w.project.dir name = some i)
    (hi' : w'.cache.find? w'.project.dir name = some i')
    (hf : ∀ s e, Entry.Reading s e (f s.disk e)) :
    Workspace.Twins past (w.changed i (f disk)) (w'.changed i' (f disk)) := by
  have hdisk' : w'.disk = disk := hw.disk.trans hdisk
  have hread : ∀ (u : Workspace) (e : Entry), u.disk = disk →
      Entry.Reading u.surroundings e (f disk e) := by
    intro u e hu
    rw [← hu]
    exact hf u.surroundings e
  exact hw.changed hi hi' (fun e => (hread w e hdisk).read.key) (fun e => (hread w e hdisk).read.key)
    (hread w _ hdisk).working (hread w' _ hdisk').working
    ((hw.entry hi hi').of_reading (hread w _ hdisk).read (hread w' _ hdisk').read)

theorem lockstep_existence (name : String) :
    Lockstep past.coupling free (existence name) (existence name)
      fun w w' i i' => Pair Looked name i i' w w' := by
  have heq : ∀ w : Workspace, { w with cache := (w.cache.existence w.disk w.project.dir name).2 }
      = (w.got name).changed (w.cache.get w.project.dir name).1 (Entry.looked w.disk) := by
    intro w
    unfold Workspace.changed
    rw [← Cache.probe_eq]
    rfl
  have hlaw : ∀ w : Workspace, Frame.grows.law.moves w
      { w with cache := (w.cache.existence w.disk w.project.dir name).2 } := fun w =>
    Frame.grows.law.trans (Frame.looking_grows.get w name) (Frame.looking_grows.look (w.got name) _)
  refine Lockstep.of_modifyGet hlaw hlaw fun w w' hw _ hfine => ?_
  have hi := Cache.find?_get w.cache w.project.dir name
  have hi' := Cache.find?_get w'.cache w'.project.dir name
  have hgot := hw.got (Fine.back (Frame.looking_grows.look (w'.got name) _) hfine).spelt
  have htwins := twins_reading (f := Entry.looked) hgot rfl hi hi' fun s e => .look e
  have hlooked : ∀ u : Workspace, Looked ((u.cache.existence u.disk u.project.dir name).2.entry
      (u.cache.existence u.disk u.project.dir name).1) := by
    intro u
    have hrun : existence name u = .ok (u.cache.existence u.disk u.project.dir name).1
        { u with cache := (u.cache.existence u.disk u.project.dir name).2 } := rfl
    exact (existence_ok hrun).2.1
  have hexistence : Pair Looked name (w.cache.existence w.disk w.project.dir name).1
      (w'.cache.existence w'.disk w'.project.dir name).1
      { w with cache := (w.cache.existence w.disk w.project.dir name).2 }
      { w' with cache := (w'.cache.existence w'.disk w'.project.dir name).2 } :=
    ⟨Cache.find?_existence _ _ _ _, Cache.find?_existence _ _ _ _,
      hlooked w, hlooked w'⟩
  refine ⟨?_, hexistence⟩
  change Workspace.Twins past { w with cache := (w.cache.existence w.disk w.project.dir name).2 }
    { w' with cache := (w'.cache.existence w'.disk w'.project.dir name).2 }
  rw [heq, heq, hw.disk]
  exact htwins

/-- What is asked of entries that answer the same. -/
theorem lockstep_entry {f f' : γ → Step Workspace β} (o : Entry → γ)
    {goal : Workspace → Workspace → β → β → Prop}
    (ho : ∀ w w', w.Twins past w' → pre w w' → o (w'.cache.entry i') = o (w.cache.entry i))
    (hf : ∀ c, Lockstep past.coupling
      (fun w w' => pre w w' ∧ o (w.cache.entry i) = c ∧ o (w'.cache.entry i') = c) (f c) (f' c) goal) :
    Lockstep past.coupling pre (entry i >>= fun e => f (o e)) (entry i' >>= fun e => f' (o e)) goal :=
  Lockstep.observe (v := fun w : Workspace => w.cache.entry i) o (fun _ => rfl) (fun _ => rfl) ho hf

/-- The same, where the rest is steady. -/
theorem lockstep_ask {f : γ → Step Workspace β} (o : Entry → γ)
    (ho : ∀ w w', w.Twins past w' → pre w w' → o (w'.cache.entry i') = o (w.cache.entry i))
    (hf : ∀ c, Steady past.coupling (f c)) :
    Lockstep past.coupling pre (entry i >>= fun e => f (o e)) (entry i' >>= fun e => f (o e)) same :=
  lockstep_entry o ho fun c => Lockstep.of_pre (hf c) fun _ _ _ _ => trivial

/-- The text of a file that was looked at. -/
theorem lockstep_ensureText :
    Lockstep past.coupling (Pair Looked name i i')
      (onCache fun disk _ c => ((), c.ensureText disk i))
      (onCache fun disk _ c => ((), c.ensureText disk i'))
      fun w w' _ _ => Pair (Entry.Asked w.disk) name i i' w w' := by
  refine Lockstep.of_modifyGet (fun w => Frame.looking_grows.text w i)
    (fun w => Frame.looking_grows.text w i') fun w w' hw hp _ => ?_
  have htwins := twins_reading (f := Entry.withText) hw rfl hp.left hp.right fun s e => .text e
  have hasked : ∀ (u : Workspace) (j : Nat), u.Reliable past.names → u.disk = w.disk →
      u.cache.find? u.project.dir name = some j → Looked (u.cache.entry j) →
      (u.cache.ensureText u.disk j).find? u.project.dir name = some j ∧
        Entry.Asked w.disk ((u.cache.ensureText u.disk j).entry j) := by
    intro u j hu hdisk hj hlooked
    have hlt := (Cache.find?_some hj).1
    refine ⟨?_, ?_⟩
    · rw [Cache.find?_eq_keys, Cache.keys_ensureText, ← Cache.find?_eq_keys]
      exact hj
    · rw [Cache.entry_ensureText u.disk hlt, ← hdisk]
      exact (hu.entries j hlt).asked hlooked
  obtain ⟨hfind, hholds⟩ := hasked w i hw.left rfl hp.left hp.holds
  obtain ⟨hfind', hholds'⟩ := hasked w' i' hw.right hw.disk hp.right hp.holds'
  refine ⟨?_, hfind, hfind', hholds, hholds'⟩
  refine htwins.of_entries (Cache.entries_ensureText w.disk w.cache i) ?_
  rw [hw.disk]
  exact Cache.entries_ensureText w.disk w'.cache i'

/-- The bytes of a file that was looked at. -/
theorem lockstep_ensureBuffer :
    Lockstep past.coupling (Pair Looked name i i')
      (onCache fun disk _ c => ((), c.ensureBuffer disk i))
      (onCache fun disk _ c => ((), c.ensureBuffer disk i'))
      fun w w' _ _ => Pair (Entry.Grasped w.disk) name i i' w w' := by
  refine Lockstep.of_modifyGet (fun w => Frame.looking_grows.buffer w i)
    (fun w => Frame.looking_grows.buffer w i') fun w w' hw hp _ => ?_
  have htwins := twins_reading (f := Entry.withBuffer) hw rfl hp.left hp.right fun s e => .buffer e
  have hgrasped : ∀ (u : Workspace) (j : Nat), u.Reliable past.names → u.disk = w.disk →
      u.cache.find? u.project.dir name = some j → Looked (u.cache.entry j) →
      (u.cache.ensureBuffer u.disk j).find? u.project.dir name = some j ∧
        Entry.Grasped w.disk ((u.cache.ensureBuffer u.disk j).entry j) := by
    intro u j hu hdisk hj hlooked
    have hlt := (Cache.find?_some hj).1
    refine ⟨?_, ?_⟩
    · rw [Cache.find?_eq_keys, Cache.keys_ensureBuffer, ← Cache.find?_eq_keys]
      exact hj
    · rw [Cache.entry_ensureBuffer u.disk hlt, ← hdisk]
      exact (hu.entries j hlt).grasped hlooked
  obtain ⟨hfind, hholds⟩ := hgrasped w i hw.left rfl hp.left hp.holds
  obtain ⟨hfind', hholds'⟩ := hgrasped w' i' hw.right hw.disk hp.right hp.holds'
  refine ⟨?_, hfind, hfind', hholds, hholds'⟩
  refine htwins.of_entries (Cache.entries_ensureBuffer w.disk w.cache i) ?_
  rw [hw.disk]
  exact Cache.entries_ensureBuffer w.disk w'.cache i'

theorem content_eq (name : String) : content name = (do
    let i ← existence name
    onCache fun disk _ c => ((), c.ensureText disk i)
    return i) := rfl

theorem lockstep_content (name : String) :
    Lockstep past.coupling free (content name) (content name)
      fun w w' i i' => Pair (Entry.Asked w.disk) name i i' w w' := by
  rw [content_eq]
  exact (lockstep_existence name).bind fun i i' =>
    lockstep_ensureText.bind fun _ _ => Lockstep.of_pure i i' fun _ _ _ h => h

/-- The same change of the entries of one name, and what both have then. -/
theorem lockstep_changeEntry {f f' : Entry → Entry} {P Q : Entry → Prop}
    (hgrows : ∀ e, Entry.Grows e (f e)) (hgrows' : ∀ e, Entry.Grows e (f' e))
    (h : ∀ w w', w.Twins past w' → pre w w' → Pair P name i i' w w' ∧
      Entry.Working past.names w.surroundings (w.cache.entry i) (f (w.cache.entry i)) ∧
      Entry.Working past.names w'.surroundings (w'.cache.entry i') (f' (w'.cache.entry i')) ∧
      Entry.Twin w.disk (past.cache.at? (Cache.keyOf w.project.dir name)) (f (w.cache.entry i))
        (f' (w'.cache.entry i')) ∧
      Q (f (w.cache.entry i)) ∧ Q (f' (w'.cache.entry i'))) :
    Lockstep past.coupling pre (changeEntry i f) (changeEntry i' f')
      fun w w' _ _ => Pair Q name i i' w w' := by
  have hpair : ∀ (w : Workspace) (j : Nat) (g : Entry → Entry), (∀ e, Entry.Grows e (g e)) →
      w.cache.find? w.project.dir name = some j → Q (g (w.cache.entry j)) →
      (w.changed j g).cache.find? (w.changed j g).project.dir name = some j ∧
        Q ((w.changed j g).cache.entry j) := by
    intro w j g hg hj hQ
    refine ⟨?_, ?_⟩
    · change (w.cache.modify j g).find? w.project.dir name = some j
      rw [Cache.find?_eq_keys, Cache.keys_modify fun e => (hg e).key, ← Cache.find?_eq_keys]
      exact hj
    · change Q ((w.cache.modify j g).entry j)
      rw [Cache.entry_modify_self g (Cache.find?_some hj).1]
      exact hQ
  refine Lockstep.of_modify (fun w => Frame.grows_changed w i (fun e => (hgrows e).key) (hgrows _))
    (fun w => Frame.grows_changed w i' (fun e => (hgrows' e).key) (hgrows' _)) fun w w' hw hpre _ => ?_
  obtain ⟨hp, hleft, hright, htwin, hQ, hQ'⟩ := h w w' hw hpre
  obtain ⟨hfind, hholds⟩ := hpair w i f hgrows hp.left hQ
  obtain ⟨hfind', hholds'⟩ := hpair w' i' f' hgrows' hp.right hQ'
  exact ⟨hw.changed hp.left hp.right (fun e => (hgrows e).key) (fun e => (hgrows' e).key) hleft
    hright htwin, hfind, hfind', hholds, hholds'⟩

/-! ## Projects, output and phases -/

/-- A step of a project that does the same with a past and without. -/
theorem steady_onProject {x : Step Project α} (h : Steady past.projects x) :
    Steady past.coupling (onProject x) :=
  have hlaw : ∀ (w : Workspace) (p : Project), Project.settled.moves w.project p →
      Frame.grows.law.moves w { w with project := p } :=
    fun w _ hp => Frame.moves_project Frame.grows w trivial hp.1 hp.2
  (Lockstep.on (C := past.projects) (D := past.coupling) (fun _ _ => rfl) (fun _ _ hw => hw.project)
    (fun _ _ _ _ hw hp => Twins.of_project hw hp) hlaw (fun _ _ => trivial) h).of_pre
    fun _ _ _ _ => trivial

theorem steady_changeProject {f : Project → Project} (h : Steady past.projects (modify f)) :
    Steady past.coupling (changeProject f) := steady_onProject h

theorem steady_say (line : String) : Steady past.coupling (say line) := by
  refine steady_changeProject (steady_modify (fun p q => ⟨q, ?_⟩) fun _ => ⟨rfl, rfl, rfl⟩)
  unfold Project.say Project.behind
  simp only [List.append_assoc]

private theorem write_behind (path : String) (content : Bytes) (p q : Project) :
    ∃ q', (p.behind past q).write path content = (p.write path content).behind past q' := by
  refine ⟨(p.behind past q).write path content, ?_⟩
  have hfailing : (p.behind past q).output.failing = p.output.failing := rfl
  unfold Project.write Output.write
  rw [hfailing]
  cases p.output.failing.lookup path with
  | none =>
    simp only
    unfold Project.behind
    simp only [List.append_assoc]
  | some reason =>
    simp only
    unfold Project.refuse Project.say Project.behind
    simp only [List.append_assoc]

private theorem write_catalogue (path : String) (content : Bytes) (p : Project) :
    (p.write path content).catalogue = p.catalogue := by
  unfold Project.write
  split <;> rfl

theorem steady_write (path : String) (content : Bytes) :
    Steady past.coupling (write path content) := by
  refine Steady.of_modify (C := past.coupling) (f := fun w => Workspace.written w path content)
    (fun w => ?_) fun w w' hw _ => ?_
  · refine ⟨w.written_config path content, w.written_dir path content,
      w.written_destination path content, fun hdest => ?_⟩
    rw [Workspace.written_of_none hdest]
    exact ⟨rfl, trivial, Cache.Advances.refl Entry.Grows.refl _⟩
  · change Workspace.Twins past (w.written path content) (w'.written path content)
    rw [Workspace.written_of_none hw.left.destination, Workspace.written_of_none hw.right.destination]
    obtain ⟨q, hq⟩ := hw.project.behind
    obtain ⟨q', hq'⟩ : ∃ q', (w'.project.behind past q).write path content
        = (w'.project.write path content).behind past q' := write_behind path content w'.project q
    refine hw.of_project ⟨⟨q', by rw [hq, hq']⟩, ?_, ?_, ?_⟩
    · rw [Project.write_config, hw.project.config]
    · rw [Project.write_dir, hw.project.dir]
    · rw [write_catalogue, hw.project.untranslated]

theorem steady_enter (phase : Phase) : Steady past.coupling (enter phase) := by
  refine Steady.of_modify (fun w => Frame.looking_grows.enter w phase) fun w w' hw _ => ?_
  exact ⟨hw.left.of_moves ⟨rfl, rfl, hw.left.destination, rfl, trivial,
      Cache.Advances.refl (fun _ => Relation.ReflTransGen.refl) _⟩,
    hw.right.of_moves ⟨rfl, rfl, hw.right.destination, rfl, trivial,
      Cache.Advances.refl (fun _ => Relation.ReflTransGen.refl) _⟩,
    hw.disk, rfl, hw.project, hw.cache⟩

/-- What both projects have is read. -/
theorem steady_read {f : γ → Step Workspace β} (o : Project → γ)
    (ho : ∀ p q, o (p.behind past q) = o p) (hf : ∀ c, Steady past.coupling (f c)) :
    Steady past.coupling (get >>= fun w => f (o w.project)) :=
  Steady.of_get (C := past.coupling) (fun w => o w.project)
    (fun _ _ hw => recalls_congr hw.project o fun q => ho _ q) hf

end Past

end Bundler

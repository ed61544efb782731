/-
What is done when a program is written.

Scripts are taken over one after the other. A script that can be read is copied then, whether it is
taken over in this cycle or was before (`Assembly.copyScript_ok`), and what was copied stays so. In a
bundle a script becomes a module under its own module id and nothing else happens to the modules;
without a bundle nothing happens to them at all. Assets and the assembly of a bundle leave the modules
and the stamps alone.

So delivering a program comes down to the writing of its files, followed by changes in the frame of
taking over (`Session.deliverProgram_ok`).
-/
import Bundler.Proofs.Delivery

set_option autoImplicit false

namespace Bundler

open Workspace Step

namespace Workspace

variable {w w' : Workspace} {K : String → Prop} {name : String}

/-- A name that was met stands for a file that can be read. -/
def CanRead (w : Workspace) (name : String) : Prop :=
  ∃ i, w.cache.find? w.project.dir name = some i ∧
    (w.disk.read? (w.cache.entry i).fullName).isSome = true

/-- A name that was met stands for a file whose output is not older. -/
def HasCopied (w : Workspace) (name : String) : Prop :=
  ∃ i, w.cache.find? w.project.dir name = some i ∧ (w.cache.entry i).Copied

/-- What can be read in the end could be read before, if it had been met. -/
theorem CanRead.of_moves {F : Frame} (h : w'.CanRead name) (hm : F.Moves w w')
    (hname : ∀ s e e', F.entry s e e' → e'.fullName = e.fullName) {i : Nat}
    (hi : w.cache.find? w.project.dir name = some i) :
    (w.disk.read? (w.cache.entry i).fullName).isSome = true := by
  obtain ⟨j, hj, hread⟩ := h
  rw [hm.dir, hm.cache.find? hi] at hj
  obtain rfl := Option.some.inj hj
  rw [hm.disk, hname _ _ _ (hm.cache.old i (Cache.find?_some hi).1)] at hread
  exact hread

theorem CanRead.of_takes (h : w'.CanRead name) (hm : (Frame.takes K).Moves w w') {i : Nat}
    (hi : w.cache.find? w.project.dir name = some i) :
    (w.disk.read? (w.cache.entry i).fullName).isSome = true :=
  h.of_moves hm (fun _ _ _ hchain => (Entry.lasts_of_taking hchain).fullName) hi

theorem HasCopied.of_takes (h : w.HasCopied name) (hm : (Frame.takes K).Moves w w') :
    w'.HasCopied name := by
  obtain ⟨i, hi, hcopied⟩ := h
  refine ⟨i, ?_, (hcopied.of_takes (hm.cache.old i (Cache.find?_some hi).1)).1⟩
  rw [hm.dir]
  exact hm.cache.find? hi

end Workspace

/-- A file that can be read is there. -/
theorem Disk.modified?_of_read? {d : Disk} {path : String} (h : (d.read? path).isSome = true) :
    ∃ t, d.modified? path = some t := by
  unfold Disk.read? at h
  split at h
  · exact absurd h (by simp)
  · rw [Option.isSome_map] at h
    obtain ⟨file, hfile⟩ := Option.isSome_iff_exists.mp h
    refine ⟨file.time, ?_⟩
    unfold Disk.modified?
    rw [hfile]
    rfl

namespace Assembly

variable {K : String → Prop} {w w' : Workspace} {u : Unit}

/-! ## Scripts that are taken over -/

/-- What taking a text over does to the modules. -/
theorem takeOver_emitted {bundled : Bool} {source output text : String}
    (h : takeOver bundled source output text w = .ok u w') (hdest : w.destination = none)
    {id : String} (hid : bundled = true → Path.moduleId source ≠ .ok id) :
    w'.project.emitted.get? id = w.project.emitted.get? id := by
  unfold takeOver at h
  cases bundled with
  | true =>
    obtain ⟨m, v, hm, hmod⟩ := (bind_ok_iff _ _ _ _ _).mp h
    obtain ⟨hmodule, rfl⟩ := (lift_ok_iff _ _ _ _).mp hm
    rw [← (modify_ok_iff _ _ _ _).mp hmod]
    simp only [OrderedMap.get?_insert]
    rw [if_neg]
    rintro rfl
    exact hid rfl hmodule
  | false =>
    have hw : w.written output (Text.toBytes text) = w' := (modify_ok_iff _ _ _ _).mp h
    rw [← hw, Workspace.written_of_none hdest]
    rw [(Project.outputs_write _ _ _).emitted]

/-- How taking over a script ends: it is not there, it has been copied, its text cannot be read, or
its text is taken over. -/
inductive Script.TakenOver (bundled : Bool) (source output : String) (w : Workspace) (i : Nat) :
    Workspace → Prop where
  | missing {w' : Workspace} {line : String} (hfound : (w.cache.entry i).found = false)
      (hsay : say line w = .ok () w') : TakenOver bundled source output w i w'
  | before (hfound : (w.cache.entry i).found = true)
      (hneed : (bundled || (w.cache.entry i).needsCopy) = false) :
      TakenOver bundled source output w i w
  | unreadable {w₁ w' : Workspace} {line : String} (hfound : (w.cache.entry i).found = true)
      (hw₁ : w₁ = { w with cache := w.cache.ensureText w.disk i })
      (htext : (w₁.cache.entry i).text? = none) (hsay : say line w₁ = .ok () w') :
      TakenOver bundled source output w i w'
  | taken {w₁ w₂ : Workspace} {text : String}
      (hneed : (bundled || (w.cache.entry i).needsCopy) = true)
      (hw₁ : w₁ = { w with cache := w.cache.ensureText w.disk i })
      (htext : (w₁.cache.entry i).text? = some text)
      (htake : takeOver bundled source output text w₁ = .ok () w₂) :
      TakenOver bundled source output w i (w₂.changed i fun e => { e with outputTime := e.textTime })

theorem copyScript_cases {source output : String} {bundled : Bool}
    (h : copyScript bundled (source, output) w = .ok u w') :
    ∃ i w₁, existence source w = .ok i w₁ ∧ Script.TakenOver bundled source output w₁ i w' := by
  unfold copyScript at h
  obtain ⟨i, w₁, hex, h⟩ := (bind_ok_iff _ _ _ _ _).mp h
  refine ⟨i, w₁, hex, ?_⟩
  obtain ⟨e, w₂, he, h⟩ := (bind_ok_iff _ _ _ _ _).mp h
  obtain ⟨rfl, rfl⟩ := (entry_ok_iff _ _ _ _).mp he
  by_cases hfound : (w₁.cache.entry i).found = true
  · simp only [hfound, Bool.not_true, Bool.false_eq_true, if_false] at h
    by_cases hneed : (bundled || (w₁.cache.entry i).needsCopy) = true
    · rw [if_pos hneed] at h
      obtain ⟨u₂, w₂, htext, h⟩ := (bind_ok_iff _ _ _ _ _).mp h
      have hw₂ := ((onCache_ok_iff _ _ _ _).mp htext).2.symm
      obtain ⟨e₂, w₃, he₂, h⟩ := (bind_ok_iff _ _ _ _ _).mp h
      obtain ⟨rfl, rfl⟩ := (entry_ok_iff _ _ _ _).mp he₂
      cases hsome : (w₂.cache.entry i).text? with
      | none =>
        rw [hsome] at h
        exact .unreadable hfound hw₂ hsome h
      | some text =>
        rw [hsome] at h
        obtain ⟨u₃, w₃, htake, h⟩ := (bind_ok_iff _ _ _ _ _).mp h
        rw [← (modify_ok_iff _ _ _ _).mp h]
        exact .taken hneed hw₂ hsome htake
    · rw [if_neg hneed] at h
      obtain ⟨-, rfl⟩ := (pure_ok_iff _ _ _ _).mp h
      exact .before hfound (by simpa using hneed)
  · simp only [hfound, Bool.not_false, if_true] at h
    exact .missing (by simpa using hfound) h

/-- The modules change at most under the id of the script, and in a bundle only. -/
private theorem emitted_of_takenOver {source output : String} {bundled : Bool} {i : Nat}
    (hdest : w.destination = none) (h : Script.TakenOver bundled source output w i w') {id : String}
    (hid : bundled = true → Path.moduleId source ≠ .ok id) :
    w'.project.emitted.get? id = w.project.emitted.get? id := by
  cases h with
  | missing _ hsay => rw [← (modify_ok_iff _ _ _ _).mp hsay]; rfl
  | before _ _ => rfl
  | unreadable _ hw₁ _ hsay =>
    rw [← (modify_ok_iff _ _ _ _).mp hsay, hw₁]
    rfl
  | taken _ hw₁ _ htake =>
    have hemitted := takeOver_emitted htake (by rw [hw₁]; exact hdest) hid
    rw [hw₁] at hemitted
    exact hemitted

/-- No entry gets another name. -/
private theorem names_of_takenOver {source output : String} {bundled : Bool} {i : Nat}
    (hi : i < w.cache.entries.length) (h : Script.TakenOver bundled source output w i w') :
    w'.cache.keys = w.cache.keys ∧ (w'.cache.entry i).fullName = (w.cache.entry i).fullName := by
  have htext : (w.cache.ensureText w.disk i).keys = w.cache.keys ∧
      ((w.cache.ensureText w.disk i).entry i).fullName = (w.cache.entry i).fullName := by
    refine ⟨Cache.keys_ensureText _ _ _, ?_⟩
    rw [Cache.entry_ensureText _ hi]
    exact (Entry.Read.withText w.surroundings _).fullName
  cases h with
  | missing _ hsay =>
    rw [← (modify_ok_iff _ _ _ _).mp hsay]
    exact ⟨rfl, rfl⟩
  | before _ _ => exact ⟨rfl, rfl⟩
  | unreadable _ hw₁ _ hsay =>
    rw [← (modify_ok_iff _ _ _ _).mp hsay, hw₁]
    exact htext
  | @taken w₁ w₂ text _ hw₁ _ htake =>
    have hi₁ : i < (w.cache.ensureText w.disk i).entries.length := by
      rw [Cache.entries_ensureText]
      simpa using hi
    have hcache : w₂.cache = w.cache.ensureText w.disk i := by rw [(takeOver_ok htake).1, hw₁]
    refine ⟨?_, ?_⟩
    · refine (Cache.keys_modify ?_).trans ?_
      · exact fun _ => rfl
      · rw [hcache]
        exact htext.1
    · change ((w₂.cache.modify i _).entry i).fullName = _
      rw [hcache, Cache.entry_modify_self _ hi₁]
      exact htext.2

/-- A script that can be read is copied in the end. -/
private theorem copied_of_takenOver {source output : String} {bundled : Bool} {i : Nat}
    (hw : w.Current) (hi : i < w.cache.entries.length)
    (hset : (w.cache.entry i).current.isSet = true)
    (hread : (w.disk.read? (w.cache.entry i).fullName).isSome = true)
    (h : Script.TakenOver bundled source output w i w') : (w'.cache.entry i).Copied := by
  cases h with
  | missing hfound _ =>
    obtain ⟨t, ht⟩ := Disk.modified?_of_read? hread
    exfalso
    rcases hw.seen i hi with hunset | hstamp
    · rw [hunset] at hset
      exact absurd hset (by simp [Stamp.isSet])
    · unfold Entry.found at hfound
      rw [hstamp, Disk.stamp_time?, ht] at hfound
      exact absurd hfound (by simp)
  | before hfound hneed =>
    simp only [Bool.or_eq_false_iff] at hneed
    exact Entry.copied_of_found hfound hneed.2
  | unreadable hfound hw₁ htext _ =>
    exfalso
    have hcur := Entry.isTextCurrent_withText hfound hread
    rw [hw₁, Cache.entry_ensureText _ hi] at htext
    unfold Entry.text? at htext
    rw [if_pos hcur] at htext
    obtain ⟨-, -, text, hsome⟩ := Entry.isTextCurrent_iff.mp hcur
    rw [htext] at hsome
    exact absurd hsome (by simp)
  | @taken w₁ w₂ text _ hw₁ htext htake =>
    have hi₁ : i < w₁.cache.entries.length := by
      rw [hw₁]
      exact Nat.lt_of_lt_of_le hi (by rw [Cache.entries_ensureText]; simp)
    have hcur : (w₁.cache.entry i).isTextCurrent = true := by
      unfold Entry.text? at htext
      by_contra hne
      rw [if_neg hne] at htext
      exact absurd htext (by simp)
    obtain ⟨hfound, htime, -⟩ := Entry.isTextCurrent_iff.mp hcur
    obtain ⟨t, ht⟩ := Entry.at_of_found hfound
    change ((w₂.cache.modify i _).entry i).Copied
    rw [(takeOver_ok htake).1, Cache.entry_modify_self _ hi₁]
    exact ⟨t, t, ht, htime.trans ht, Nat.le_refl t⟩

/-- Taking over a script: it has been met then, if it can be read it is copied, and the modules change
at most under its own id, and in a bundle only. -/
theorem copyScript_ok {script : String × String} {bundled : Bool} (hw : w.Current)
    (hbundled : bundled = (w.project.config.bundle != .none))
    (hK : K (Cache.keyOf w.project.dir script.1)) (h : copyScript bundled script w = .ok u w') :
    (Frame.takes K).Moves w w' ∧ (∃ i, w'.cache.find? w'.project.dir script.1 = some i) ∧
      (w'.CanRead script.1 → w'.HasCopied script.1) ∧
      ∀ id, (bundled = true → Path.moduleId script.1 ≠ .ok id) →
        w'.project.emitted.get? id = w.project.emitted.get? id := by
  have hlaw := allows_copyScript Frame.taking_takes script bundled w hbundled hK
  rw [h] at hlaw
  have hm := Frame.moves_of_law hlaw hw.destination
  obtain ⟨i, w₁, hex, hend⟩ := copyScript_cases h
  have hm₁ := Frame.moves_of_obeys
    (obeys_existence (Frame.taking_takes (K := K)).toLooking script.1) hw.destination hex
  obtain ⟨hfind₁, hset, hproject⟩ := existence_ok hex
  have hi := (Cache.find?_some hfind₁).1
  obtain ⟨hkeys, hname⟩ := names_of_takenOver hi hend
  have hfind : w'.cache.find? w'.project.dir script.1 = some i := by
    rw [hm.dir, Cache.find?_eq_keys, hkeys, ← hm₁.dir, ← Cache.find?_eq_keys]
    exact hfind₁
  refine ⟨hm, ⟨i, hfind⟩, fun ⟨j, hj, hread⟩ => ?_, fun id hid => ?_⟩
  · rw [hfind] at hj
    obtain rfl := Option.some.inj hj
    rw [hname, hm.disk, ← hm₁.disk] at hread
    exact ⟨i, hfind, copied_of_takenOver (hw.of_takes hm₁) hi hset hread hend⟩
  · rw [emitted_of_takenOver hm₁.destination hend hid, hproject]

/-- Taking over all scripts: they have been met then, those that can be read are copied, and the
modules change at most under their ids, and in a bundle only. -/
theorem copyDependencyJs_ok (hw : w.Current)
    (hK : ∀ source ∈ w.project.depJs.keys, K (Cache.keyOf w.project.dir source))
    (h : copyDependencyJs w = .ok u w') :
    (Frame.takes K).Moves w w' ∧
      (∀ source ∈ w.project.depJs.keys, (∃ i, w'.cache.find? w'.project.dir source = some i) ∧
        (w'.CanRead source → w'.HasCopied source)) ∧
      ∀ id, (w.project.config.bundle ≠ .none →
          ∀ source ∈ w.project.depJs.keys, Path.moduleId source ≠ .ok id) →
        w'.project.emitted.get? id = w.project.emitted.get? id := by
  have hall : ∀ (scripts : List (String × String)) (v v' : Workspace),
      (∀ script ∈ scripts, script.1 ∈ w.project.depJs.keys) → (Frame.takes K).Moves w v →
      scripts.forM (copyScript (w.project.config.bundle != .none)) v = .ok () v' →
      (Frame.takes K).Moves v v' ∧
        (∀ script ∈ scripts, (∃ i, v'.cache.find? v'.project.dir script.1 = some i) ∧
          (v'.CanRead script.1 → v'.HasCopied script.1)) ∧
        ∀ id, (w.project.config.bundle ≠ .none →
            ∀ source ∈ w.project.depJs.keys, Path.moduleId source ≠ .ok id) →
          v'.project.emitted.get? id = v.project.emitted.get? id := by
    intro scripts
    induction scripts with
    | nil =>
      intro v v' _ hm hrun
      obtain ⟨-, rfl⟩ := (pure_ok_iff _ _ _ _).mp hrun
      exact ⟨Frame.Moves.refl hm.destination, fun _ hs => absurd hs (by simp), fun _ _ => rfl⟩
    | cons script scripts ih =>
      intro v v' hmem hm hrun
      obtain ⟨u, v₁, hone, hrest⟩ := (bind_ok_iff _ _ _ _ _).mp hrun
      have hscript := hmem script List.mem_cons_self
      obtain ⟨hm₁, ⟨i, hi⟩, hcopied, hemitted⟩ := copyScript_ok (K := K) (hw.of_takes hm)
        (by rw [hm.config]) (by rw [hm.dir]; exact hK _ hscript) hone
      obtain ⟨hm', hcopied', hemitted'⟩ :=
        ih v₁ v' (fun s hs => hmem s (List.mem_cons_of_mem _ hs)) (hm.trans hm₁) hrest
      refine ⟨hm₁.trans hm', fun s hs => ?_, fun id hid => ?_⟩
      · rcases List.mem_cons.mp hs with rfl | hs
        · refine ⟨⟨i, by rw [hm'.dir]; exact hm'.cache.find? hi⟩, fun hread => ?_⟩
          exact (hcopied ⟨i, hi, hread.of_takes hm' hi⟩).of_takes hm'
        · exact hcopied' s hs
      · rw [hemitted' id hid, hemitted id fun hb => hid (by simpa using hb) _ hscript]
  unfold copyDependencyJs at h
  obtain ⟨u', w₁, henter, h⟩ := (bind_ok_iff _ _ _ _ _).mp h
  have hw₁ := (modify_ok_iff _ _ _ _).mp henter
  have hm₁ := Frame.moves_of_obeys
    (obeys_enter (Frame.taking_takes (K := K)).toLooking _) hw.destination henter
  obtain ⟨w₂, w₂', hget, h⟩ := (bind_ok_iff _ _ _ _ _).mp h
  obtain ⟨rfl, rfl⟩ := (get_ok_iff _ _ _).mp hget
  have hproject : w₁.project = w.project := by rw [← hw₁]
  simp only [hproject] at h
  obtain ⟨hm, hcopied, hemitted⟩ :=
    hall w.project.depJs.toList w₁ w' (fun _ hs => List.mem_map_of_mem hs) hm₁ h
  refine ⟨hm₁.trans hm, fun source hsource => ?_, fun id hid => ?_⟩
  · obtain ⟨script, hscript, rfl⟩ := List.mem_map.mp hsource
    exact hcopied script hscript
  · rw [hemitted id hid, hproject]

end Assembly

namespace Session

variable {s s' : Session} {program emitted : List String} {force atlasChanged : Bool}
  {overrides : FileOverrides}

/-- Assets and the assembly of the bundle: what follows the scripts that are taken over leaves the
modules alone. -/
private theorem assets_ok {K : String → Prop} {w : Workspace} {s s' : Session} {u u' : Unit}
    (hdest : s.destination = none)
    (hassets : (liftM Assembly.processAssets : Step Session Unit) s = .ok u s')
    (hassemble : (if (s'.project.config.bundle != .none) = true
      then Assembly.assemble else pure () : Step Workspace Unit) s'.toWorkspace = .ok u' w) :
    (Frame.takes K).Moves s.toWorkspace w ∧ w.project.emitted = s.project.emitted := by
  obtain ⟨w₁, hw₁, rfl⟩ := (liftWorkspace_ok_iff _ _ _ _).mp hassets
  have hm₁ := Frame.moves_of_obeys (Assembly.obeys_processAssets Frame.copying_copies) hdest hw₁
  by_cases hb : (w₁.project.config.bundle != .none) = true
  · rw [if_pos hb] at hassemble
    have hbundle : w₁.project.config.bundle ≠ .none := by simpa using hb
    have htakes := Assembly.allows_assemble (Frame.taking_takes (K := K)).toWriting w₁ hbundle
    have hwrites := Assembly.allows_assemble Frame.writing_writes w₁ hbundle
    rw [hassemble] at htakes hwrites
    have hm₂ := Frame.moves_of_law hwrites hm₁.destination
    exact ⟨hm₁.of_copies.trans (Frame.moves_of_law htakes hm₁.destination),
      hm₂.project.emitted.trans hm₁.project.emitted⟩
  · rw [if_neg hb] at hassemble
    obtain ⟨-, rfl⟩ := (pure_ok_iff _ _ _ _).mp hassemble
    exact ⟨hm₁.of_copies, hm₁.project.emitted⟩

/-- Delivering a program: its files are written, and then scripts are taken over. Those that can be
read are copied in the end, and the modules change at most under their ids, and in a bundle only. -/
theorem deliverProgram_ok (hw : s.toWorkspace.Deliverable)
    (hloaded : ∀ file ∈ program, ∃ deps, s.toWorkspace.HasLoaded file deps)
    (h : deliverProgram force program overrides atlasChanged s = .ok emitted s') :
    ∃ v w, emitProgram force atlasChanged overrides program { s.toWorkspace with phase := .emit }
        = .ok emitted v ∧ s' = { s with toWorkspace := w } ∧
      (Frame.takes fun key => ∃ source ∈ v.project.depJs.keys,
        key = Cache.keyOf v.project.dir source).Moves v w ∧
      (∀ source ∈ v.project.depJs.keys, w.CanRead source → w.HasCopied source) ∧
      ∀ id, (v.project.config.bundle ≠ .none →
          ∀ source ∈ v.project.depJs.keys, Path.moduleId source ≠ .ok id) →
        w.project.emitted.get? id = v.project.emitted.get? id := by
  unfold deliverProgram at h
  obtain ⟨u₁, s₁, henter, h⟩ := (bind_ok_iff _ _ _ _ _).mp h
  obtain ⟨w₁, hw₁, rfl⟩ := (liftWorkspace_ok_iff _ _ _ _).mp henter
  have hw₁' := (modify_ok_iff _ _ _ _).mp hw₁
  obtain ⟨emitted', s₂, hemit, h⟩ := (bind_ok_iff _ _ _ _ _).mp h
  obtain ⟨v, hv, rfl⟩ := (liftWorkspace_ok_iff _ _ _ _).mp hemit
  obtain ⟨u₃, s₃, hscripts, h⟩ := (bind_ok_iff _ _ _ _ _).mp h
  obtain ⟨w₃, hw₃, rfl⟩ := (liftWorkspace_ok_iff _ _ _ _).mp hscripts
  obtain ⟨u₄, s₄, hassets, h⟩ := (bind_ok_iff _ _ _ _ _).mp h
  obtain ⟨s₅, s₅', hget, h⟩ := (bind_ok_iff _ _ _ _ _).mp h
  obtain ⟨rfl, rfl⟩ := (get_ok_iff _ _ _).mp hget
  obtain ⟨rfl, w, hassemble, hs'⟩ : emitted' = emitted ∧ ∃ w,
      (if (s₄.project.config.bundle != .none) = true
        then Assembly.assemble else pure () : Step Workspace Unit) s₄.toWorkspace = .ok () w ∧
      s' = { s₄ with toWorkspace := w } := by
    by_cases hb : (s₄.project.config.bundle != .none) = true
    · rw [if_pos hb] at h ⊢
      obtain ⟨u₅, s₅, hrun, h⟩ := (bind_ok_iff _ _ _ _ _).mp h
      obtain ⟨w, hw, rfl⟩ := (liftWorkspace_ok_iff _ _ _ _).mp hrun
      obtain ⟨rfl, rfl⟩ := (pure_ok_iff _ _ _ _).mp h
      exact ⟨rfl, w, hw, rfl⟩
    · rw [if_neg hb] at h ⊢
      obtain ⟨rfl, rfl⟩ := (pure_ok_iff _ _ _ _).mp h
      exact ⟨rfl, s₄.toWorkspace, rfl, rfl⟩
  obtain ⟨w₄, hw₄, rfl⟩ := (liftWorkspace_ok_iff _ _ _ _).mp hassets
  have hdeliverable : w₁.Deliverable := by
    rw [← hw₁']
    exact ⟨hw.toCurrent.of_project rfl rfl rfl rfl rfl fun _ hk => hk, hw.marks⟩
  have hcurrent : v.Current := by
    obtain ⟨hm, -, -⟩ := emitProgram_ok (K := fun _ => True) hdeliverable (by
      rw [← hw₁']
      exact hloaded) hv
    exact (hdeliverable.of_delivers hm).toCurrent
  obtain ⟨hm₃, hcopied, hemitted⟩ := Assembly.copyDependencyJs_ok
    (K := fun key => ∃ source ∈ v.project.depJs.keys, key = Cache.keyOf v.project.dir source)
    hcurrent (fun source hsource => ⟨source, hsource, rfl⟩) hw₃
  obtain ⟨hm₅, hemitted₅⟩ := assets_ok
    (K := fun key => ∃ source ∈ v.project.depJs.keys, key = Cache.keyOf v.project.dir source)
    hm₃.destination hassets hassemble
  refine ⟨v, w, by rw [← hw₁'] at hv; exact hv, hs', hm₃.trans hm₅, fun source hsource hread => ?_,
    fun id hid => ?_⟩
  · obtain ⟨⟨i, hi⟩, hcopy⟩ := hcopied source hsource
    exact (hcopy ⟨i, hi, hread.of_takes hm₅ hi⟩).of_takes hm₅
  · rw [hemitted₅]
    exact hemitted id hid

end Session

end Bundler

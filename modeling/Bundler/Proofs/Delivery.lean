/-
What delivering does.

A program is written file by file, in its order, and each file is one of three: it is noted as it is,
it is written, or its output is current and it is passed over (`Session.emitProgram_keeps`). What
stays true over the three stays true over the program, and afterwards every file of it is delivered
(`Entry.Delivered`): its stamp is not older than the file, nor than the mark that the pass has set.

Then scripts are taken over and assets are copied. Both stamp a file with its own time, and both do
so only for reasons that a stamp that is not older than the file rules out, unless there is a bundle:
then every script is taken over again in every cycle. So a delivered file keeps its stamp, if it is
no script that is taken over for a bundle, and every script that can be read is stamped in the end.

Among the modules of a bundle, writing a file puts one under its module id, taking a script over puts
one under the id of the script, and nothing else is touched.
-/
import Bundler.Proofs.Sessions

set_option autoImplicit false

namespace Bundler

open Workspace Step

/-! ## Frames -/

/-- A change of a project that leaves its modules; output may come to it. -/
structure Project.Outputs (p p' : Project) : Prop extends Project.Lasting p p' where
  emitted : p'.emitted = p.emitted

theorem Project.Outputs.refl (p : Project) : p.Outputs p := ⟨Project.Lasting.refl p, rfl⟩

theorem Project.Outputs.trans {p q r : Project} (h : p.Outputs q) (h' : q.Outputs r) :
    p.Outputs r :=
  ⟨h.toLasting.trans h'.toLasting, h'.emitted.trans h.emitted⟩

theorem Project.Quiet.outputs {p p' : Project} (h : p.Quiet p') : p.Outputs p' :=
  ⟨h.lasting, h.emitted⟩

theorem Project.outputs_write (p : Project) (path : String) (content : Bytes) :
    p.Outputs (p.write path content) := by
  unfold Project.write
  split
  · exact ⟨⟨rfl, rfl, rfl, rfl, fun _ => rfl, fun _ h => h⟩, rfl⟩
  · exact ⟨⟨rfl, rfl, rfl, rfl, fun _ => rfl, fun _ h => h⟩, rfl⟩

namespace Frame

/-- The frame of writing output: entries are looked at and read. -/
def writes : Frame where
  entry := Entry.Read
  project := Project.Outputs
  refl := Entry.Read.refl
  trans _ _ _ _ h h' := Entry.Read.trans h h'
  project_refl := Project.Outputs.refl
  project_trans h h' := h.trans h'

/-- The frame of copying assets. -/
def copies : Frame :=
  chains (Entry.Taking fun _ => False) Project.Outputs Project.Outputs.refl Project.Outputs.trans

theorem writing_writes : Writing writes.law :=
  writing
    (looking writes Entry.Read.looked Entry.Read.withText Entry.Read.withBuffer
      fun _ _ h => h.outputs)
    Project.outputs_write

theorem placing_writes : Placing writes.law :=
  placing fun _ _ => ⟨⟨rfl, rfl, rfl, rfl, fun _ => rfl, fun _ h => h⟩, rfl⟩

theorem copying_copies : Copying copies.law where
  toWriting := writing
    (looking copies (fun _ e => .single (.reading (.look e)))
      (fun _ e => .single (.reading (.text e))) (fun _ e => .single (.reading (.buffer e)))
      fun _ _ h => h.outputs)
    Project.outputs_write
  copied w id hneed := by
    refine ⟨rfl, rfl, rfl, fun _ => ⟨rfl, Project.Outputs.refl _, ?_⟩⟩
    exact Cache.Advances.modify (fun _ => .refl) (fun _ => rfl) fun _ => .single (.copied hneed)

/-- Copying assets is part of what follows the writing of a program. -/
theorem Moves.of_copies {K : String → Prop} {w w' : Workspace} (h : copies.Moves w w') :
    (takes K).Moves w w' := by
  refine ⟨h.config, h.dir, h.destination, h.disk, h.project.toLasting, ?_⟩
  have hone : ∀ e e', Entry.Taking (fun _ => False) w.surroundings e e' →
      Entry.Taking K w.surroundings e e' := by
    intro e e' hone
    cases hone with
    | reading hread => exact .reading hread
    | took hK _ _ => exact absurd hK id
    | copied hneed => exact .copied hneed
  exact h.cache.mono fun e e' hchain => Relation.ReflTransGen.mono hone e e' hchain

end Frame

/-! ## Stamps -/

namespace Entry

variable {s : Surroundings} {K : String → Prop} {e e' : Entry}

/-- The file is there, and its output is not older. -/
def Copied (e : Entry) : Prop :=
  ∃ t T, e.current = .at t ∧ e.outputTime = .at T ∧ t ≤ T

/-- The output is older neither than the file nor than its mark. -/
def Delivered (e : Entry) : Prop :=
  ∃ t T, e.current = .at t ∧ e.outputTime = .at T ∧ t ≤ T ∧ ∀ v, e.freshness.time? = some v → v ≤ T

theorem Delivered.copied (h : e.Delivered) : e.Copied := by
  obtain ⟨t, T, hcur, hout, hle, -⟩ := h
  exact ⟨t, T, hcur, hout, hle⟩

theorem Copied.needsCopy (h : e.Copied) : e.needsCopy = false := by
  obtain ⟨t, T, hcur, hout, hle⟩ := h
  unfold Entry.needsCopy
  rw [hcur, hout]
  simpa [Stamp.time?] using hle

/-- A file that is not newer than its copy was copied. -/
theorem copied_of_found (hfound : e.found = true) (hneed : e.needsCopy = false) : e.Copied := by
  unfold Entry.found at hfound
  unfold Entry.needsCopy at hneed
  cases hcur : e.current with
  | unset => rw [hcur] at hfound; exact absurd hfound (by simp [Stamp.time?])
  | missing => rw [hcur] at hfound; exact absurd hfound (by simp [Stamp.time?])
  | «at» t =>
    cases hout : e.outputTime with
    | unset => rw [hcur, hout] at hneed; exact absurd hneed (by simp [Stamp.time?])
    | missing => rw [hcur, hout] at hneed; exact absurd hneed (by simp [Stamp.time?])
    | «at» T =>
      rw [hcur, hout] at hneed
      exact ⟨t, T, hcur, hout, by simpa [Stamp.time?] using hneed⟩

/-- The stamp of a file whose mark is not older than the file. -/
theorem delivered_stampOutput {t : Nat} (hcur : e.current = .at t)
    (hmark : ∀ v, e.freshness.time? = some v → t ≤ v) : e.stampOutput.Delivered := by
  unfold Entry.stampOutput
  cases hfresh : e.freshness.time? with
  | none => exact ⟨t, t, hcur, hcur, Nat.le_refl t, fun v hv => absurd (hfresh.symm.trans hv) (by simp)⟩
  | some v =>
    refine ⟨t, v, hcur, rfl, hmark v hfresh, fun u hu => ?_⟩
    exact Nat.le_of_eq (Option.some.inj (hu.symm.trans hfresh))

/-- A file that is current is delivered. -/
theorem delivered_of_isOutputCurrent {t : Nat} (hcur : e.current = .at t)
    (hmark : ∀ v, e.freshness.time? = some v → t ≤ v) (h : e.isOutputCurrent = true) :
    e.Delivered := by
  unfold Entry.isOutputCurrent at h
  cases hfresh : e.freshness.time? with
  | none => rw [hfresh] at h; exact absurd h (by simp)
  | some v =>
    cases hout : e.outputTime with
    | unset => rw [hfresh, hout] at h; exact absurd h (by simp [Stamp.time?])
    | missing => rw [hfresh, hout] at h; exact absurd h (by simp [Stamp.time?])
    | «at» T =>
      have hle : v ≤ T := by
        rw [hfresh, hout] at h
        simpa [Stamp.time?] using h
      refine ⟨t, T, hcur, hout, Nat.le_trans (hmark v hfresh) hle, fun u hu => ?_⟩
      rw [← Option.some.inj (hfresh.symm.trans hu)]
      exact hle

theorem Copied.congr (h : e.Copied) (hcur : e'.current = e.current)
    (hout : e'.outputTime = e.outputTime) : e'.Copied := by
  obtain ⟨t, T, hc, ho, hle⟩ := h
  exact ⟨t, T, hcur.trans hc, hout.trans ho, hle⟩

private theorem Copied.isSet (h : e.Copied) : e.current.isSet = true := by
  obtain ⟨t, T, hcur, -⟩ := h
  rw [hcur]
  rfl

/-- What was copied stays copied, and its stamp changes only where it is taken over for a bundle. -/
theorem Copied.of_taking (h : e.Copied) (hone : Entry.Taking K s e e') :
    e'.Copied ∧ (¬ K e.key ∨ s.config.bundle = .none → e'.outputTime = e.outputTime) := by
  cases hone with
  | reading hread =>
    exact ⟨h.congr (hread.read.seen h.isSet) hread.read.outputTime, fun _ => hread.read.outputTime⟩
  | took hK htext hneed =>
    refine ⟨?_, fun hno => ?_⟩
    · obtain ⟨t, T, hcur, -⟩ := h
      obtain ⟨-, htime, -⟩ := Entry.isTextCurrent_iff.mp htext
      exact ⟨t, t, hcur, htime.trans hcur, Nat.le_refl t⟩
    · exfalso
      rcases hno with hno | hno
      · exact hno hK
      · rcases hneed with hbundle | hneed
        · exact hbundle hno
        · rw [h.needsCopy] at hneed
          exact absurd hneed (by simp)
  | copied hneed =>
    rw [h.needsCopy] at hneed
    exact absurd hneed (by simp)

theorem Copied.of_takes (h : e.Copied) (hchain : Relation.ReflTransGen (Entry.Taking K s) e e') :
    e'.Copied ∧ (¬ K e.key ∨ s.config.bundle = .none → e'.outputTime = e.outputTime) := by
  induction hchain with
  | refl => exact ⟨h, fun _ => rfl⟩
  | @tail e₁ e₂ hchain hlast ih =>
    obtain ⟨hcopied, hsame⟩ := ih
    obtain ⟨hcopied', hsame'⟩ := hcopied.of_taking hlast
    refine ⟨hcopied', fun hno => ?_⟩
    rw [hsame' (by rw [(Entry.lasts_of_taking hchain).key]; exact hno), hsame hno]

end Entry

/-! ## Writing one file -/

/-- The workspace after some files were written. -/
def Workspace.writtenAll (w : Workspace) (files : List (String × Bytes)) : Workspace :=
  files.foldl (fun w f => w.written f.1 f.2) w

theorem Workspace.writtenAll_cons (w : Workspace) (f : String × Bytes)
    (files : List (String × Bytes)) :
    w.writtenAll (f :: files) = (w.written f.1 f.2).writtenAll files := rfl

/-- Writing files changes output and nothing that concerns entries or modules. -/
theorem Workspace.writtenAll_moves {w : Workspace} (hdest : w.destination = none)
    (files : List (String × Bytes)) :
    (w.writtenAll files).cache = w.cache ∧ (w.writtenAll files).disk = w.disk ∧
      (w.writtenAll files).destination = none ∧
      w.project.Outputs (w.writtenAll files).project := by
  induction files generalizing w with
  | nil => exact ⟨rfl, rfl, hdest, Project.Outputs.refl _⟩
  | cons f files ih =>
    rw [Workspace.writtenAll_cons]
    have hone := Workspace.written_of_none hdest f.1 f.2
    obtain ⟨hcache, hdisk, hdest', hproject⟩ := ih (w := w.written f.1 f.2)
      ((w.written_destination f.1 f.2).trans hdest)
    refine ⟨hcache.trans (w.written_cache f.1 f.2), ?_, hdest', Project.Outputs.trans ?_ hproject⟩
    · rw [hdisk, hone]
    · rw [hone]
      exact Project.outputs_write _ _ _

/-! ## What is known before a program is written -/

/-- A workspace whose files are about to be delivered: no mark is older than its file, or later than
the clock. -/
structure Workspace.Deliverable (w : Workspace) : Prop extends w.Current where
  marks : ∀ i, i < w.cache.entries.length → ∀ v, (w.cache.entry i).freshness.time? = some v →
    v ≤ w.disk.clock ∧ ∃ t, w.disk.modified? (w.cache.entry i).fullName = some t ∧ t ≤ v

theorem Workspace.Deliverable.of_delivers {K : String → Prop} {w w' : Workspace}
    (h : w.Deliverable) (hm : (Frame.delivers K).Moves w w') : w'.Deliverable := by
  obtain ⟨hcurrent, hclock⟩ := h.toCurrent.of_delivers (fun i hi v hv => (h.marks i hi v hv).1) hm
  refine ⟨hcurrent, fun i hi v hv => ⟨hclock i hi v hv, ?_⟩⟩
  rw [hm.disk]
  by_cases hold : i < w.cache.entries.length
  · obtain ⟨hlasts, hfresh⟩ := Entry.lasts_of_delivering (hm.cache.old i hold)
    rw [hfresh] at hv
    rw [hlasts.fullName]
    exact (h.marks i hold v hv).2
  · obtain ⟨name, hnew⟩ := hm.cache.new i (by omega) hi
    rw [(Entry.lasts_of_delivering hnew).2] at hv
    exact absurd hv (by simp [Entry.blank, Freshness.time?])

/-- After the pass over a program its files can be delivered. -/
theorem Workspace.Current.deliverable {w : Workspace} {c : Cache} (hw : w.Current)
    (hmarked : Cache.Marked w.disk w.project.dir true w.cache.clearFreshness c)
    (hc : { w with cache := c }.Current) : { w with cache := c }.Deliverable := by
  refine ⟨hc, fun i hi v hv => ⟨hmarked.le_clock hw.dated hv, ?_⟩⟩
  obtain ⟨t, ht, hle⟩ := hmarked.memo.own i v hv
  refine ⟨t, ?_, hle⟩
  have hi' : i < w.cache.clearFreshness.entries.length := by
    rw [← hmarked.base.length]
    exact hi
  change w.disk.modified? (c.entry i).fullName = some t
  rw [(hmarked.base.walked i hi').fullName]
  exact ht

/-- What was loaded stays so where entries keep it. -/
theorem Workspace.HasLoaded.of_advances {P : Entry → Entry → Prop} {w w' : Workspace}
    {s : Surroundings} {file : String} {deps : List String} (h : w.HasLoaded file deps)
    (hcache : Cache.Advances w.project.dir P w.cache w'.cache)
    (hdir : w'.project.dir = w.project.dir) (hP : ∀ e e', P e e' → Entry.Lasts s e e') :
    w'.HasLoaded file deps := by
  obtain ⟨i, refs, hfind, hloaded, hrefs, hdeps⟩ := h
  have hlasts := hP _ _ (hcache.old i (Cache.find?_some hfind).1)
  refine ⟨i, refs, ?_, hlasts.loaded hloaded, ?_, hdeps⟩
  · rw [hdir]
    exact hcache.find? hfind
  · rw [hlasts.references, hrefs]

theorem Workspace.HasLoaded.of_delivers {K : String → Prop} {w w' : Workspace} {file : String}
    {deps : List String} (h : w.HasLoaded file deps) (hm : (Frame.delivers K).Moves w w') :
    w'.HasLoaded file deps :=
  h.of_advances hm.cache hm.dir fun _ _ hchain => (Entry.lasts_of_delivering hchain).1

namespace Session

/-- The declarations of a written script, as a file. -/
def declarationFile (jsName : String) (written : Script.Written) : List (String × Bytes) :=
  (written.declaration.map fun text =>
    (Path.stripExtension jsName ++ ".d.ts", Text.toBytes text)).toList

/-- The files that a written script becomes where there is no bundle. -/
def filesOf (jsName : String) (written : Script.Written) : List (String × Bytes) :=
  declarationFile jsName written ++
    ((written.sourceMap.map fun text => (jsName ++ ".map", Text.toBytes text)).toList ++
      [(jsName, Text.toBytes written.js)])

variable {K : String → Prop} {w w' : Workspace} {file jsName : String} {refs : References}
  {written : Script.Written} {u : Unit}

theorem write_eq (path : String) (content : Bytes) (w : Workspace) :
    write path content w = .ok () (w.written path content) := rfl

/-- Where there is no bundle, a written script becomes files. -/
theorem deliver_eq_of_none (hb : w.project.config.bundle = .none) :
    deliver file jsName refs written w = .ok () (w.writtenAll (filesOf jsName written)) := by
  have hrest : ∀ v : Workspace, v.project.config.bundle = .none →
      deliverJs file jsName refs written v = .ok () (v.writtenAll
          ((written.sourceMap.map fun text => (jsName ++ ".map", Text.toBytes text)).toList ++
            [(jsName, Text.toBytes written.js)])) := by
    intro v hv
    have hget : (get : Step Workspace Workspace) v = .ok v v := rfl
    have hno : (v.project.config.bundle != .none) = false := by rw [hv]; rfl
    refine (bind_of_ok hget).trans ?_
    simp only [hno, Bool.false_eq_true, if_false]
    unfold writeJs
    cases written.sourceMap with
    | none => exact write_eq _ _ _
    | some text => exact (bind_of_ok (write_eq _ _ _)).trans (write_eq _ _ _)
  unfold deliver filesOf declarationFile
  cases written.declaration with
  | none => exact hrest w hb
  | some text =>
    refine (bind_of_ok (write_eq _ _ _)).trans ?_
    exact hrest _ (by rw [w.written_config]; exact hb)

/-- In a bundle, a written script becomes a module. -/
theorem deliver_ok_of_bundle (hb : w.project.config.bundle ≠ .none)
    (h : deliver file jsName refs written w = .ok u w') :
    ∃ v id m, v = w.writtenAll (declarationFile jsName written) ∧ Path.moduleId file = .ok id ∧
      m.js = written.js ∧ m.copied = false ∧
      w' = { v with project := { v.project with emitted := v.project.emitted.insert id m } } := by
  have hkeep : ∀ v : Workspace, v.project.config.bundle ≠ .none →
      deliverJs file jsName refs written v = .ok u w' →
      ∃ id m, Path.moduleId file = .ok id ∧ m.js = written.js ∧ m.copied = false ∧
        w' = { v with project := { v.project with emitted := v.project.emitted.insert id m } } := by
    intro v hv hrun
    obtain ⟨v', t, hget, hrun⟩ := (bind_ok_iff _ _ _ _ _).mp hrun
    obtain ⟨rfl, rfl⟩ := (get_ok_iff _ _ _).mp hget
    have hyes : (v.project.config.bundle != .none) = true := by simpa using hv
    rw [if_pos hyes] at hrun
    have hstore : ∀ (sourceMap : Option SourceMap), (do
        let id ← Path.moduleId file
        let deps ← (refs.files.mapM Path.moduleId : Except Fault (List String))
        changeProject fun p =>
          { p with emitted := p.emitted.insert id ⟨id, written.js, sourceMap, deps, false⟩ } :
        Step Workspace Unit) v = .ok u w' →
        ∃ id m, Path.moduleId file = .ok id ∧ m.js = written.js ∧ m.copied = false ∧
          w' = { v with project := { v.project with emitted := v.project.emitted.insert id m } } := by
      intro sourceMap hrun
      obtain ⟨id, v₂, hlift, hrun⟩ := (bind_ok_iff _ _ _ _ _).mp hrun
      obtain ⟨hid, rfl⟩ := (lift_ok_iff _ _ _ _).mp hlift
      obtain ⟨deps, v₃, hdeps, hrun⟩ := (bind_ok_iff _ _ _ _ _).mp hrun
      obtain ⟨-, rfl⟩ := (lift_ok_iff _ _ _ _).mp hdeps
      exact ⟨id, _, hid, rfl, rfl, ((modify_ok_iff _ _ _ _).mp hrun).symm⟩
    unfold keepModule at hrun
    cases htext : written.sourceMap with
    | none =>
      rw [htext] at hrun
      exact hstore none hrun
    | some text =>
      rw [htext] at hrun
      cases hmap : SourceMap.ofJson text with
      | ok m =>
        simp only [hmap] at hrun
        exact hstore (some m) hrun
      | error e =>
        simp only [hmap] at hrun
        cases hrun
  unfold deliver at h
  unfold declarationFile
  cases hdecl : written.declaration with
  | none =>
    rw [hdecl] at h
    obtain ⟨id, m, hid, hjs, hcopied, hw'⟩ := hkeep w hb h
    exact ⟨w, id, m, rfl, hid, hjs, hcopied, hw'⟩
  | some text =>
    rw [hdecl] at h
    obtain ⟨u', v, hv, h⟩ := (bind_ok_iff _ _ _ _ _).mp h
    rw [write_eq] at hv
    cases hv
    obtain ⟨id, m, hid, hjs, hcopied, hw'⟩ := hkeep _ (by rw [w.written_config]; exact hb) h
    exact ⟨_, id, m, rfl, hid, hjs, hcopied, hw'⟩

/-- Writing a file whose script and references are there: it is rendered and delivered, and its
entry is stamped. -/
theorem emitFile_ok {id : Nat} {overrides : List Override} {script : Script}
    (hrefs : (w.cache.entry id).references = some refs)
    (hscript : (w.cache.entry id).script = some script)
    (h : emitFile id file overrides w = .ok u w') :
    ∃ jsName o written p v, Path.withJsExtension file = .ok jsName ∧
      writeOptions w.project.config refs jsName = .ok o ∧
      render file script refs overrides o w.project = .ok written p ∧
      deliver file jsName refs written { w with project := p } = .ok () v ∧
      w' = v.changed id Entry.stampOutput := by
  unfold emitFile at h
  obtain ⟨jsName, w₁, hlift, h⟩ := (bind_ok_iff _ _ _ _ _).mp h
  obtain ⟨hname, rfl⟩ := (lift_ok_iff _ _ _ _).mp hlift
  obtain ⟨e, w₂, he, h⟩ := (bind_ok_iff _ _ _ _ _).mp h
  obtain ⟨rfl, rfl⟩ := (entry_ok_iff _ _ _ _).mp he
  rw [hrefs, hscript] at h
  obtain ⟨w₃, w₃', hget, h⟩ := (bind_ok_iff _ _ _ _ _).mp h
  obtain ⟨rfl, rfl⟩ := (get_ok_iff _ _ _).mp hget
  obtain ⟨o, w₄, hoptions, h⟩ := (bind_ok_iff _ _ _ _ _).mp h
  obtain ⟨ho, rfl⟩ := (lift_ok_iff _ _ _ _).mp hoptions
  obtain ⟨written, w₅, hstep, h⟩ := (bind_ok_iff _ _ _ _ _).mp h
  obtain ⟨p, hrender, rfl⟩ := (on_ok_iff _ _ _ _ _ _).mp hstep
  obtain ⟨u', v, hdeliver, h⟩ := (bind_ok_iff _ _ _ _ _).mp h
  exact ⟨jsName, o, written, p, v, hname, ho, hrender, hdeliver, ((modify_ok_iff _ _ _ _).mp h).symm⟩

/-! ## Writing a program -/

/-- What writing a program has done with its first file when it succeeds, and with what the rest was
begun: the file is noted as it is, written, or passed over. -/
theorem emitProgram_cases {force atlasChanged : Bool} {overrides : FileOverrides} {file : String}
    {files out : List String} {id : Nat} (hfind : w.cache.find? w.project.dir file = some id)
    (h : emitProgram force atlasChanged overrides (file :: files) w = .ok out w') :
    ((Path.isDeclaration file = .ok true ∨ Path.isJs file = .ok true) ∧
        emitProgram force atlasChanged overrides files (w.changed id Entry.stampOutput)
          = .ok out w') ∨
      (Path.isDeclaration file = .ok false ∧ Path.isJs file = .ok false ∧
        ((needsEmit force atlasChanged (w.cache.entry id) = true ∧ ∃ v rest,
            emitFile id file ((overrides.filter fun o => o.1 == file).map Prod.snd) w = .ok () v ∧
            emitProgram force atlasChanged overrides files v = .ok rest w' ∧ out = file :: rest) ∨
          (needsEmit force atlasChanged (w.cache.entry id) = false ∧
            emitProgram force atlasChanged overrides files w = .ok out w'))) := by
  unfold emitProgram at h
  obtain ⟨id', w₁, hget, h⟩ := (bind_ok_iff _ _ _ _ _).mp h
  obtain ⟨hid', hw₁⟩ := (onCache_ok_iff _ _ _ _).mp hget
  rw [Cache.get_of_find? hfind] at hid' hw₁
  obtain rfl : id = id' := hid'
  obtain rfl : w = w₁ := hw₁
  obtain ⟨decl, w₂, hlift, h⟩ := (bind_ok_iff _ _ _ _ _).mp h
  obtain ⟨hdecl, rfl⟩ := (lift_ok_iff _ _ _ _).mp hlift
  cases decl with
  | true =>
    obtain ⟨b, w₂, hb, h⟩ := (bind_ok_iff _ _ _ _ _).mp h
    obtain ⟨rfl, rfl⟩ := (pure_ok_iff _ _ _ _).mp hb
    obtain ⟨u, w₃, hchange, h⟩ := (bind_ok_iff _ _ _ _ _).mp h
    obtain rfl := (modify_ok_iff _ _ _ _).mp hchange
    exact .inl ⟨.inl hdecl, h⟩
  | false =>
    obtain ⟨js, w₂, hlift, h⟩ := (bind_ok_iff _ _ _ _ _).mp h
    obtain ⟨hjs, rfl⟩ := (lift_ok_iff _ _ _ _).mp hlift
    cases js with
    | true =>
      obtain ⟨u, w₃, hchange, h⟩ := (bind_ok_iff _ _ _ _ _).mp h
      obtain rfl := (modify_ok_iff _ _ _ _).mp hchange
      exact .inl ⟨.inr hjs, h⟩
    | false =>
      simp only [Bool.false_eq_true, if_false] at h
      obtain ⟨e, w₂, he, h⟩ := (bind_ok_iff _ _ _ _ _).mp h
      obtain ⟨rfl, rfl⟩ := (entry_ok_iff _ _ _ _).mp he
      refine .inr ⟨hdecl, hjs, ?_⟩
      by_cases hneed : needsEmit force atlasChanged (w.cache.entry id) = true
      · rw [if_pos hneed] at h
        obtain ⟨u, v, hemit, h⟩ := (bind_ok_iff _ _ _ _ _).mp h
        obtain ⟨rest, w₄, hrest, h⟩ := (bind_ok_iff _ _ _ _ _).mp h
        obtain ⟨rfl, rfl⟩ := (pure_ok_iff _ _ _ _).mp h
        exact .inl ⟨hneed, v, rest, hemit, hrest, rfl⟩
      · rw [if_neg hneed] at h
        exact .inr ⟨by simpa using hneed, h⟩

/-- What is true of a workspace before a program is written, and stays true when a file of it is
noted as it is, written, or passed over, is true afterwards. -/
theorem emitProgram_keeps {force atlasChanged : Bool} {overrides : FileOverrides}
    {P : List String → List String → Workspace → Prop} {w₀ w' : Workspace} {program out : List String}
    (hasIs : ∀ done out w file id, P done out w → (Frame.delivers K).Moves w₀ w → file ∈ program →
      w.cache.find? w.project.dir file = some id →
      (Path.isDeclaration file = .ok true ∨ Path.isJs file = .ok true) →
      P (done ++ [file]) out (w.changed id Entry.stampOutput))
    (hwrite : ∀ done out w w' file id overrides, P done out w → (Frame.delivers K).Moves w₀ w →
      file ∈ program → w.cache.find? w.project.dir file = some id →
      Path.isDeclaration file = .ok false → Path.isJs file = .ok false →
      needsEmit force atlasChanged (w.cache.entry id) = true →
      emitFile id file overrides w = .ok () w' → P (done ++ [file]) (out ++ [file]) w')
    (hpass : ∀ done out w file id, P done out w → (Frame.delivers K).Moves w₀ w → file ∈ program →
      w.cache.find? w.project.dir file = some id →
      Path.isDeclaration file = .ok false → Path.isJs file = .ok false →
      needsEmit force atlasChanged (w.cache.entry id) = false → P (done ++ [file]) out w)
    (hknown : ∀ file ∈ program, ∃ i, w₀.cache.find? w₀.project.dir file = some i)
    (hstart : P [] [] w₀) (hdest : w₀.destination = none)
    (h : emitProgram force atlasChanged overrides program w₀ = .ok out w') :
    P program out w' ∧ (Frame.delivers K).Moves w₀ w' := by
  suffices hfrom : ∀ (files done out more : List String) (w w' : Workspace),
      (∀ file ∈ files, file ∈ program) → P done out w → (Frame.delivers K).Moves w₀ w →
      emitProgram force atlasChanged overrides files w = .ok more w' →
      P (done ++ files) (out ++ more) w' ∧ (Frame.delivers K).Moves w₀ w' from
    hfrom program [] [] out w₀ w' (fun _ hf => hf) hstart (Frame.Moves.refl hdest) h
  clear h
  intro files
  induction files with
  | nil =>
    intro done out more w w' _ hP hm h
    obtain ⟨rfl, rfl⟩ := (pure_ok_iff _ _ _ _).mp h
    rw [List.append_nil, List.append_nil]
    exact ⟨hP, hm⟩
  | cons file files ih =>
    intro done out more w w' hmem hP hm h
    have hfile := hmem file List.mem_cons_self
    obtain ⟨id, hid⟩ := hknown file hfile
    have hmem' : ∀ f ∈ files, f ∈ program := fun f hf => hmem f (List.mem_cons_of_mem _ hf)
    have hfind : w.cache.find? w.project.dir file = some id := by
      rw [hm.dir]
      exact hm.cache.find? hid
    have happend : done ++ file :: files = (done ++ [file]) ++ files := by simp
    have hstamp : (Frame.delivers K).Moves w (w.changed id Entry.stampOutput) :=
      Frame.moves_of_law (Frame.delivering_delivers.stamp w id) hm.destination
    rw [happend]
    rcases emitProgram_cases hfind h with ⟨hkind, hrest⟩ | ⟨hdecl, hjs,
      ⟨hneed, v, rest, hemit, hrest, rfl⟩ | ⟨hneed, hrest⟩⟩
    · exact ih _ out more _ w' hmem' (hasIs done out w file id hP hm hfile hfind hkind)
        (hm.trans hstamp) hrest
    · have hmoves := Frame.moves_of_obeys
        (obeys_emitFile (Frame.delivering_delivers (K := K)) id file _) hm.destination hemit
      have hnext := hwrite done out w v file id _ hP hm hfile hfind hdecl hjs hneed hemit
      have hout : out ++ file :: rest = (out ++ [file]) ++ rest := by simp
      rw [hout]
      exact ih _ _ rest v w' hmem' hnext (hm.trans hmoves) hrest
    · exact ih _ out more w w' hmem' (hpass done out w file id hP hm hfile hfind hdecl hjs hneed) hm
        hrest

/-- Writing a file stamps its entry and leaves the other entries. -/
theorem emitFile_cache {id : Nat} {overrides : List Override} {script : Script}
    (hdest : w.destination = none) (hrefs : (w.cache.entry id).references = some refs)
    (hscript : (w.cache.entry id).script = some script)
    (h : emitFile id file overrides w = .ok u w') :
    w'.cache = w.cache.modify id Entry.stampOutput := by
  obtain ⟨jsName, o, written, p, v, -, -, hrender, hdeliver, rfl⟩ := emitFile_ok hrefs hscript h
  have hcache : v.cache = w.cache := by
    by_cases hb : p.config.bundle = .none
    · rw [deliver_eq_of_none (w := { w with project := p }) hb] at hdeliver
      cases hdeliver
      exact (Workspace.writtenAll_moves (w := { w with project := p }) hdest _).1
    · obtain ⟨v', id', m, rfl, -, -, -, rfl⟩ :=
        deliver_ok_of_bundle (w := { w with project := p }) hb hdeliver
      exact (Workspace.writtenAll_moves (w := { w with project := p }) hdest _).1
  change v.cache.modify id Entry.stampOutput = _
  rw [hcache]

/-- The entry of a loaded file: script and references are there, and it was seen. -/
theorem entry_of_hasLoaded {deps : List String} {id : Nat} (hw : w.Current)
    (hfind : w.cache.find? w.project.dir file = some id) (hl : w.HasLoaded file deps) :
    ∃ script refs t, (w.cache.entry id).Loaded ∧ (w.cache.entry id).script = some script ∧
      (w.cache.entry id).references = some refs ∧ refs.files = deps ∧
      (w.cache.entry id).current = .at t ∧
      w.disk.modified? (w.cache.entry id).fullName = some t := by
  obtain ⟨i, refs, hi, hloaded, hrefs, hdeps⟩ := hl
  rw [hfind] at hi
  obtain rfl := Option.some.inj hi
  obtain ⟨-, -, script, hscript⟩ := Entry.isSourceCurrent_iff.mp hloaded.source
  obtain ⟨hfound, -⟩ := Entry.isInfoCurrent_iff.mp hloaded.info
  obtain ⟨t, hcur, hmod⟩ := Entry.Seen.at_of_found (hw.seen id (Cache.find?_some hfind).1) hfound
  exact ⟨script, refs, t, hloaded, hscript, hrefs, hdeps, hcur, hmod⟩

/-- What is known of the entry of a file of a program when its turn comes. -/
private theorem entry_of_turn {v : Workspace} {id : Nat} (hw : w.Deliverable)
    (hloaded : ∃ deps, w.HasLoaded file deps) (hm : (Frame.delivers K).Moves w v)
    (hfind : v.cache.find? v.project.dir file = some id) :
    w.cache.find? w.project.dir file = some id ∧ id < v.cache.entries.length ∧
      (∃ script refs, (v.cache.entry id).script = some script ∧
        (v.cache.entry id).references = some refs) ∧
      ∃ t, (v.cache.entry id).current = .at t ∧
        ∀ u, (v.cache.entry id).freshness.time? = some u → t ≤ u := by
  have hv := hw.of_delivers hm
  obtain ⟨deps, hl⟩ := hloaded
  have hfind₀ : w.cache.find? w.project.dir file = some id := by
    obtain ⟨i, -, hi, -⟩ := hl
    have hi' := hm.cache.find? hi
    rw [← hm.dir, hfind] at hi'
    rw [hi, Option.some.inj hi']
  obtain ⟨script, refs, t, -, hscript, hrefs, -, hcur, hmod⟩ :=
    entry_of_hasLoaded hv.toCurrent hfind (hl.of_delivers hm)
  refine ⟨hfind₀, (Cache.find?_some hfind).1, ⟨script, refs, hscript, hrefs⟩, t, hcur,
    fun u hu => ?_⟩
  obtain ⟨-, t', ht', hle⟩ := hv.marks _ (Cache.find?_some hfind).1 u hu
  rw [hmod] at ht'
  rw [Option.some.inj ht']
  exact hle

/-- Some files of a program have been dealt with since `w`: their entries are delivered, and the
entries of other files keep their stamps. -/
structure Dealt (w : Workspace) (done : List String) (v : Workspace) : Prop where
  delivered : ∀ f ∈ done, ∀ i, w.cache.find? w.project.dir f = some i → (v.cache.entry i).Delivered
  kept : ∀ i, i < w.cache.entries.length → (∀ f ∈ done, w.cache.find? w.project.dir f ≠ some i) →
    (v.cache.entry i).outputTime = (w.cache.entry i).outputTime

/-- Dealing with one more file delivers its entry and changes no other. -/
theorem Dealt.next {done : List String} {v v' : Workspace} {id : Nat} (h : Dealt w done v)
    (hfind : w.cache.find? w.project.dir file = some id) (hdelivered : (v'.cache.entry id).Delivered)
    (hsame : ∀ i, id ≠ i → v'.cache.entry i = v.cache.entry i) : Dealt w (done ++ [file]) v' where
  delivered f hf i hi := by
    by_cases hid : id = i
    · rw [← hid]
      exact hdelivered
    · rw [hsame i hid]
      rcases List.mem_append.mp hf with hf | hf
      · exact h.delivered f hf i hi
      · rw [List.mem_singleton.mp hf, hfind] at hi
        exact absurd (Option.some.inj hi) hid
  kept i hi hno := by
    have hid : id ≠ i := by
      intro heq
      rw [heq] at hfind
      exact hno file (List.mem_append_right _ (List.mem_singleton_self _)) hfind
    rw [hsame i hid]
    exact h.kept i hi fun f hf => hno f (List.mem_append_left _ hf)

/-- A program that was written is delivered, and the entries of other files keep their stamps. -/
theorem emitProgram_ok {force atlasChanged : Bool} {overrides : FileOverrides}
    {program out : List String} (hw : w.Deliverable)
    (hloaded : ∀ file ∈ program, ∃ deps, w.HasLoaded file deps)
    (h : emitProgram force atlasChanged overrides program w = .ok out w') :
    (Frame.delivers K).Moves w w' ∧
      (∀ file ∈ program, ∀ i, w.cache.find? w.project.dir file = some i →
        (w'.cache.entry i).Delivered) ∧
      ∀ i, i < w.cache.entries.length →
        (∀ file ∈ program, w.cache.find? w.project.dir file ≠ some i) →
        (w'.cache.entry i).outputTime = (w.cache.entry i).outputTime := by
  have hknown : ∀ file ∈ program, ∃ i, w.cache.find? w.project.dir file = some i := by
    intro file hfile
    obtain ⟨deps, i, refs, hi, -⟩ := hloaded file hfile
    exact ⟨i, hi⟩
  obtain ⟨hdealt, hm⟩ := emitProgram_keeps (K := K) (P := fun done _ v => Dealt w done v)
    (fun done out v file id hP hm hfile hfind _ => by
      obtain ⟨hfind₀, hid, -, t, hcur, hmark⟩ := entry_of_turn hw (hloaded file hfile) hm hfind
      refine hP.next hfind₀ ?_ fun i hne => Cache.entry_modify_ne _ hne
      change ((v.cache.modify id Entry.stampOutput).entry id).Delivered
      rw [Cache.entry_modify_self _ hid]
      exact Entry.delivered_stampOutput hcur hmark)
    (fun done out v v' file id overrides hP hm hfile hfind _ _ _ hemit => by
      obtain ⟨hfind₀, hid, ⟨script, refs, hscript, hrefs⟩, t, hcur, hmark⟩ :=
        entry_of_turn hw (hloaded file hfile) hm hfind
      have hcache := emitFile_cache hm.destination hrefs hscript hemit
      refine hP.next hfind₀ ?_ fun i hne => ?_
      · rw [hcache, Cache.entry_modify_self _ hid]
        exact Entry.delivered_stampOutput hcur hmark
      · rw [hcache]
        exact Cache.entry_modify_ne _ hne)
    (fun done out v file id hP hm hfile hfind _ _ hneed => by
      obtain ⟨hfind₀, -, -, t, hcur, hmark⟩ := entry_of_turn hw (hloaded file hfile) hm hfind
      refine hP.next hfind₀ ?_ fun _ _ => rfl
      have hcurrent : (v.cache.entry id).isOutputCurrent = true := by
        unfold needsEmit at hneed
        simp only [Bool.or_eq_false_iff, Bool.not_eq_false'] at hneed
        exact hneed.1.2
      exact Entry.delivered_of_isOutputCurrent hcur hmark hcurrent)
    hknown ⟨by simp, fun _ _ _ => rfl⟩ hw.destination h
  exact ⟨hm, hdealt.delivered, hdealt.kept⟩

/-- Whether a file of a program is written: it is neither a declaration file nor a script as it is. -/
def isWritten (file : String) : Bool :=
  match Path.isDeclaration file, Path.isJs file with
  | .ok false, .ok false => true
  | _, _ => false

/-- Whether a file of a program is to be written by what is known in a workspace. -/
def isDueIn (force atlasChanged : Bool) (w : Workspace) (file : String) : Bool :=
  isWritten file && (w.cache.find? w.project.dir file).any fun i =>
    needsEmit force atlasChanged (w.cache.entry i)

/-- Some files of a program have been dealt with since `w`: those were written that were due then, and
the entries of files whose turn has not come are as they were. -/
structure WroteDue (force atlasChanged : Bool) (w : Workspace) (done out : List String)
    (v : Workspace) : Prop where
  out : out = done.filter (isDueIn force atlasChanged w)
  same : ∀ i, i < w.cache.entries.length →
    (w.cache.entry i).key ∉ done.map (Cache.keyOf w.project.dir) →
    v.cache.entry i = w.cache.entry i

/-- Dealing with one more file changes no entry but its own, so whether it is due can be read off the
workspace at the beginning. -/
theorem WroteDue.next {force atlasChanged : Bool} {done out more : List String} {v v' : Workspace}
    {id : Nat} (h : WroteDue force atlasChanged w done out v)
    (hfind : w.cache.find? w.project.dir file = some id)
    (hfirst : Cache.keyOf w.project.dir file ∉ done.map (Cache.keyOf w.project.dir))
    (hdue : v.cache.entry id = w.cache.entry id →
      [file].filter (isDueIn force atlasChanged w) = more)
    (hsame : ∀ i, id ≠ i → v'.cache.entry i = v.cache.entry i) :
    WroteDue force atlasChanged w (done ++ [file]) (out ++ more) v' := by
  obtain ⟨hid, hkey⟩ := Cache.find?_some hfind
  have hentry := h.same id hid (by rw [hkey]; exact hfirst)
  refine ⟨by rw [List.filter_append, hdue hentry, h.out], fun i hi hno => ?_⟩
  rw [List.map_append, List.mem_append, not_or] at hno
  have hne : id ≠ i := by
    rintro rfl
    exact hno.2 (by simp [hkey])
  rw [hsame i hne]
  exact h.same i hi hno.1

/-- Where each file of a program has an entry of its own, writing one leaves what is known of the others,
so those are written that had to be when it began. -/
theorem emitProgram_written {force atlasChanged : Bool} {overrides : FileOverrides}
    {program out : List String} (hw : w.Deliverable)
    (hloaded : ∀ file ∈ program, ∃ deps, w.HasLoaded file deps)
    (hone : (program.map (Cache.keyOf w.project.dir)).Nodup)
    (h : emitProgram force atlasChanged overrides program w = .ok out w') :
    out = program.filter (isDueIn force atlasChanged w) := by
  have hnodup : ∀ {done : List String} {file : String},
      ((done ++ [file]).map (Cache.keyOf w.project.dir)).Nodup →
      (done.map (Cache.keyOf w.project.dir)).Nodup ∧
        Cache.keyOf w.project.dir file ∉ done.map (Cache.keyOf w.project.dir) := by
    intro done file hall
    rw [List.map_append, List.nodup_append] at hall
    exact ⟨hall.1, fun hmem => hall.2.2 _ hmem _ (by simp) rfl⟩
  obtain ⟨hall, -⟩ := emitProgram_keeps (K := fun _ => False)
    (P := fun done out v => (done.map (Cache.keyOf w.project.dir)).Nodup →
      WroteDue force atlasChanged w done out v)
    (fun done out v file id hP hm hfile hfind hkind hdone => by
      obtain ⟨hdone, hfirst⟩ := hnodup hdone
      obtain ⟨hfind₀, -⟩ := entry_of_turn hw (hloaded file hfile) hm hfind
      have hnot : isWritten file = false := by
        unfold isWritten
        rcases hkind with hkind | hkind
        · rw [hkind]
        · rw [hkind]
          rcases Path.isDeclaration file with _ | _ | _ <;> rfl
      have hskip : WroteDue force atlasChanged w (done ++ [file]) (out ++ [])
          (v.changed id Entry.stampOutput) :=
        (hP hdone).next hfind₀ hfirst (fun _ => by simp [isDueIn, hnot]) fun i hne =>
          Cache.entry_modify_ne _ hne
      rwa [List.append_nil] at hskip)
    (fun done out v v' file id overrides hP hm hfile hfind hdecl hjs hneed hemit hdone => by
      obtain ⟨hdone, hfirst⟩ := hnodup hdone
      obtain ⟨hfind₀, -, ⟨script, refs, hscript, hrefs⟩, -⟩ :=
        entry_of_turn hw (hloaded file hfile) hm hfind
      have hcache := emitFile_cache hm.destination hrefs hscript hemit
      refine (hP hdone).next hfind₀ hfirst (fun heq => ?_) fun i hne => ?_
      · rw [heq] at hneed
        simp [isDueIn, isWritten, hdecl, hjs, hfind₀, hneed]
      · rw [hcache]
        exact Cache.entry_modify_ne _ hne)
    (fun done out v file id hP hm hfile hfind hdecl hjs hneed hdone => by
      obtain ⟨hdone, hfirst⟩ := hnodup hdone
      obtain ⟨hfind₀, -⟩ := entry_of_turn hw (hloaded file hfile) hm hfind
      have hskip : WroteDue force atlasChanged w (done ++ [file]) (out ++ []) v :=
        (hP hdone).next hfind₀ hfirst (fun heq => by
          rw [heq] at hneed
          simp [isDueIn, hfind₀, hneed]) fun _ _ => rfl
      rwa [List.append_nil] at hskip)
    (fun file hfile => by
      obtain ⟨deps, i, refs, hi, -⟩ := hloaded file hfile
      exact ⟨i, hi⟩)
    (fun _ => ⟨rfl, fun _ _ _ => rfl⟩) hw.destination h
  exact (hall hone).out

end Session

end Bundler

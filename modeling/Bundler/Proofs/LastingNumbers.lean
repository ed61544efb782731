/-
The numbers of messages last.

What a session may go through between two points in time is what happens around a build and builds
themselves (`Session.Onward`). All of it keeps what was noted of files in the order of time
(`Session.Onward.timely`), and none of it does anything to the catalogue of messages but use it
(`Session.Onward.catalogue`). So where a file is written, its references were gathered from the script that
is written, and a number that is put into it stands for the text that it takes the place of
(`Session.Writes.exists_prints`), then and ever after (`Session.numbers_last`).
-/
import Bundler.Proofs.Matching
import Bundler.Proofs.MessageCalls
import Bundler.Proofs.Writings

set_option autoImplicit false

namespace Bundler

open Workspace Step

/-! ## Sessions -/

namespace Workspace.Timely

variable {w w' : Workspace}

/-- Forgetting something of all entries keeps them timely. -/
theorem forget (hw : w.Timely) {f : Entry → Entry}
    (hf : ∀ e : Entry, e.Timely w.disk → (f e).Timely w.disk) :
    { w with cache := w.cache.mapEntries f }.Timely where
  dated := hw.dated
  entries i hi := by
    have hi : i < w.cache.entries.length := by simpa using hi
    change ((w.cache.mapEntries f).entry i).Timely w.disk
    rw [Cache.entry_mapEntries f hi]
    exact hf _ (hw.entries i hi)

/-- Beside the entries only the disk matters. -/
theorem congr (hw : w.Timely) (hdisk : w'.disk = w.disk) (hcache : w'.cache = w.cache) : w'.Timely :=
  ⟨hdisk ▸ hw.dated, by rw [hcache, hdisk]; exact hw.entries⟩

end Workspace.Timely

namespace Session

variable {s t u : Session}

/-- How a session goes on: the disk changes, and the output may get another place, the project may become
another one in the same directory if messages go on being numbered as before, the files may be looked at
again, everything may be asked to be built anew, and cycles run, which return or end early. -/
inductive Onward (s : Session) : Session → Prop where
  | refl : Onward s s
  | disk {t : Session} {disk : Disk} (h : Onward s t) (hd : t.disk.Changes disk)
      (destination : Option Destination) : Onward s { t with disk, destination }
  | project {t : Session} {project : Project} (h : Onward s t) (hdir : project.dir = t.project.dir)
      (hcatalogue : Catalogue.Continued t.project.catalogue project.catalogue) :
      Onward s { t with project }
  | clearProbes {t : Session} (h : Onward s t) : Onward s t.clearProbes
  | force {t : Session} (h : Onward s t) : Onward s t.forceNext
  | compiled {t : Session} (h : Onward s t) : Onward s (Step.final (compile t))

theorem Onward.possible (h : Onward s t) (hs : Possible s) : Possible t := by
  induction h with
  | refl => exact hs
  | disk _ _ destination ih => exact ih.disk _ destination
  | project _ hdir _ ih => exact ih.project _ hdir
  | clearProbes _ ih => exact ih.clearProbes
  | force _ ih => exact ih.force
  | compiled _ ih => exact ih.compiled

theorem timely_begun (hs : s.Timely) : s.begun.Timely := by
  rcases s.begun_cache with hcache | hcache
  · exact hs.congr s.begun_disk hcache
  · exact (hs.forget fun _ => Entry.Timely.forgotten).congr s.begun_disk hcache

theorem begun_catalogue (s : Session) :
    Catalogue.Continued s.project.catalogue s.begun.project.catalogue := by
  unfold begun
  cases s.isForced with
  | true => exact (Project.quiet_beginCycle s.project.clearMaps).catalogue
  | false => exact (Project.quiet_beginCycle s.project).catalogue

/-- Cycles obey the law of what is timely. -/
theorem timely_compile (s : Session) :
    Timely.Moves (fun _ => True) s.begun.toWorkspace (Step.final (compile s)).toWorkspace :=
  (allows_compile (s := s) (Workspace.Timely.overall _)).final

theorem Onward.timely (h : Onward s t) (hs : s.Timely) : t.Timely := by
  induction h with
  | refl => exact hs
  | disk _ hd _ ih => exact ih.of_changes hd rfl
  | project _ _ _ ih => exact ih.congr rfl rfl
  | clearProbes _ ih => exact ih.forget fun _ => Entry.Timely.unlooked
  | force _ ih => exact ih.congr rfl rfl
  | @compiled t _ ih => exact (timely_compile t).timely (timely_begun ih)

/-- Whatever happens, the catalogue is only used. -/
theorem Onward.catalogue (h : Onward s t) :
    Catalogue.Continued s.project.catalogue t.project.catalogue := by
  induction h with
  | refl => exact .refl _
  | disk _ _ _ ih => exact ih
  | project _ _ hcatalogue ih => exact ih.trans hcatalogue
  | clearProbes _ ih => exact ih
  | force _ ih => exact ih
  | @compiled t _ ih => exact ih.trans (t.begun_catalogue.trans (timely_compile t).catalogue)

theorem timely_start {disk : Disk} (hd : disk.Dated) (project : Project) : (start disk project).Timely :=
  ⟨hd, fun i hi => absurd hi (Nat.not_lt_zero i)⟩

/-! ## The files that are written -/

variable {file : String} {w w' : Workspace}

/-- A file is loaded where it is written, and what was noted of files is in the order of time. -/
theorem Writes.hasLoaded (hs : s.Orderly) (ht : s.Timely) (h : Writes s file w w') :
    w.Timely ∧ ∃ deps, w.HasLoaded file deps := by
  obtain ⟨force, mains, stale, program, s₁, u, hselect, hload, hfile, hmoves⟩ :=
    h.exists_loaded Timely.walking (Timely.delivering (N := fun _ => False)) Timely.placing Timely.dropped
  constructor
  · -- times stay in order all the way: selecting, loading, and what comes behind the loading
    obtain ⟨-, -, v, hstale, rfl⟩ := select_ok_iff.mp hselect
    have hselected := (obeys_staleMains (Timely.walking (N := fun _ => True)) _ _).ok hstale
    have hloaded := ((obeys_loadProgram Timely.loading mains).ok hload).1
    exact hmoves.timely (hloaded.timely (hselected.timely (timely_begun ht)))
  · -- loading has gone over all files that it lists, and behind it nothing is loaded, so they stay loaded
    rcases tours_loadProgram (orderly_select hs hselect) mains with
      ⟨t, u', hu', hwalk, hrun⟩ | ⟨f, u', hrun, -⟩
    · rw [hrun] at hload
      cases hload
      obtain ⟨⟨deps, hl⟩, -⟩ := (hu'.isClosure hwalk).loaded file hfile
      exact ⟨deps, hmoves.loaded (fun _ hno => hno) file deps hl⟩
    · rw [hrun] at hload
      cases hload

/-- A file is printed, going from `w` to `w'`: constants are set in the script of its entry, what it asks for
is set in the calls, and what is written of the script then is delivered. -/
inductive Prints (file : String) (w w' : Workspace) (script edited : Script) : Prop where
  | intro {id : Nat} {jsName : String} {refs : References} {overrides : List Override} {e e' : Editing}
      {o : Script.WriteOptions} {written : Script.Written} {p : Project} {v : Workspace}
      (hfind : w.cache.find? w.project.dir file = some id)
      (hscript : (w.cache.entry id).script = some script)
      (hrefs : (w.cache.entry id).references = some refs)
      (hconstants : applyOverrides (Editing.start script) overrides = .ok e)
      (happly : Resources.apply file refs e w.project = .ok e' p) (hedited : e'.script = edited)
      (hname : Path.withJsExtension file = .ok jsName)
      (hoptions : writeOptions w.project.config refs jsName = .ok o)
      (hwrite : edited.write o = .ok written)
      (hdeliver : deliver file jsName refs written { w with project := p } = .ok () v)
      (hstamp : w' = v.changed id Entry.stampOutput) : Prints file w w' script edited

/-- Constants are not calls. -/
theorem calls_applyOverrides : ∀ {overrides : List Override} {e e' : Editing},
    applyOverrides e overrides = .ok e' → e'.script.calls = e.script.calls
  | [], e, e', h => by
    cases h
    rfl
  | o :: overrides, e, e', h => by
    unfold applyOverrides at h
    obtain ⟨e₁, h₁, h⟩ := (except_bind_ok_iff _ _ _).mp h
    refine (calls_applyOverrides h).trans ?_
    unfold Editing.setInit at h₁
    split at h₁
    · cases h₁
    · cases h₁
      rfl

/-- A file that is written is printed, and what it looks up is there when it was. -/
theorem Writes.exists_prints (hs : s.Orderly) (ht : s.Timely) (h : Writes s file w w') :
    ∃ script edited, Prints file w w' script edited ∧
      ∀ (i : Nat) (c : Call), script.calls[i]? = some c → c.IsLookup →
        c.TurnsInto edited.calls[i]? w'.project.Denotes := by
  obtain ⟨htimely, deps, id, refs, hfind, hloaded, hrefs, -⟩ := h.hasLoaded hs ht
  obtain ⟨-, -, script, hscript⟩ := Entry.isSourceCurrent_iff.mp hloaded.source
  have hgathered := (htimely.entries id (Cache.find?_some hfind).1).gathered_of_loaded hloaded hscript hrefs
  obtain ⟨force, atlasChanged, overrides, hone⟩ : ∃ force atlasChanged overrides,
      emitOne force atlasChanged overrides file w = .ok [file] w' := by
    obtain ⟨-, -, -, -, -, -, -, -, hwritten⟩ := h
    exact ⟨_, _, _, hwritten⟩
  obtain hno | ⟨-, id', v, rfl, hfind', hemit⟩ := emitOne_ok hone
  · cases hno
  -- the file has an entry, so asking for it adds none
  rw [Cache.get_of_find? hfind] at hfind' hemit
  obtain rfl : id = id' := Option.some.inj (hfind.symm.trans hfind')
  obtain ⟨jsName, o, written, p, v, hname, hoptions, hrender, hdeliver, rfl⟩ :=
    emitFile_ok hrefs hscript hemit
  unfold render at hrender
  obtain ⟨e, q, hlift, hrender⟩ := (bind_ok_iff _ _ _ _ _).mp hrender
  obtain ⟨hconstants, rfl⟩ := (lift_ok_iff _ _ _ _).mp hlift
  obtain ⟨e', q, happly, hrender⟩ := (bind_ok_iff _ _ _ _ _).mp hrender
  obtain ⟨hwrite, rfl⟩ := (lift_ok_iff _ _ _ _).mp hrender
  refine ⟨script, e'.script,
    .intro hfind hscript hrefs hconstants happly rfl hname hoptions hwrite hdeliver rfl, ?_⟩
  -- the references are those of the script, and setting constants leaves its calls alone
  have hcalls := calls_applyOverrides hconstants
  change e.script.calls = script.calls at hcalls
  rw [← hcalls] at hgathered ⊢
  obtain ⟨e'', p', happly', hlookups⟩ := Resources.apply_messages file w.project hgathered
  rw [happly] at happly'
  cases happly'
  have hdelivered := (obeys_deliver (Timely.delivering (N := fun _ => True)).toTaking file jsName refs
    written).ok hdeliver
  exact fun i c hc hlookup => (hlookups i c hc hlookup).mono fun id key hdenotes =>
    hdenotes.continued hdelivered.catalogue

/-- Numbers of messages never become stale. Whatever is done with a catalogue, its numbers are as they should
be (`Catalogue.Numbered`), and nothing else is done with that of a session. The files that a cycle reports
were written, and each file that is written is printed, where each lookup stays as it is or gets a number,
which is written by its digits. What the number stands in place of is what it stands for in all that is to
come. -/
theorem numbers_last (acts : List Catalogue.Act) {disk : Disk} {project : Project} (hdated : disk.Dated)
    (hs : Onward (start disk project) s) :
    Catalogue.Numbered acts ∧ Catalogue.Continued project.catalogue s.project.catalogue ∧
      (∀ r t, compile s = .ok r t → ∀ file ∈ r.emitted, ∃ w w', Writes s file w w') ∧
      (∀ id < 2 ^ 32, (Expr.ofNat id).render = toString id) ∧
      ∀ file w w', Writes s file w w' → ∃ script edited, Prints file w w' script edited ∧
        ∀ (i : Nat) (c : Call), script.calls[i]? = some c → c.IsLookup →
          c.TurnsInto edited.calls[i]? fun id key =>
            ∀ u, Onward (Step.final (compile s)) u → u.project.Denotes id key := by
  refine ⟨Catalogue.numbered acts, hs.catalogue, fun r t hrun file hfile => exists_writes hrun hfile,
    fun _ hid => Expr.render_ofNat hid, fun file w w' hwrites => ?_⟩
  have horderly := (hs.possible (.start disk project)).orderly
  obtain ⟨script, edited, hprints, hlookups⟩ :=
    hwrites.exists_prints horderly (hs.timely (timely_start hdated project))
  have hlater := hwrites.later (Timely.delivering (N := fun _ => True))
  exact ⟨script, edited, hprints, fun i c hc hlookup => (hlookups i c hc hlookup).mono
    fun id key hdenotes u hu => hdenotes.continued (hlater.catalogue.trans hu.catalogue)⟩

/-- A file that looks a message up, where messages are numbered. -/
def greetingDisk : Disk := Disk.empty.write "/p/a.ts" (Text.toBytes "t(\"Hello\");\n")

def greeting : Session :=
  let config := { Config.default with main := ["a.ts"], compileMessages := true }
  start greetingDisk { Project.ofConfig config "/p" with catalogue := some .empty }

/-- The message gets the number zero, which stands for it ever after. -/
theorem numbers_last_greeting : greetingDisk.Dated ∧
    (Step.answer? (compile greeting)).map CycleReport.emitted = some ["a.ts"] ∧
    (Step.final (compile greeting)).project.output.files.get? "a.js" = some (Text.toBytes "t(0);\n") ∧
    ∃ w w' script edited, Writes greeting "a.ts" w w' ∧ Prints "a.ts" w w' script edited ∧
      ∀ (i : Nat) (c : Call), script.calls[i]? = some c → c.IsLookup →
        c.TurnsInto edited.calls[i]? fun id key =>
          ∀ u, Onward (Step.final (compile greeting)) u → u.project.Denotes id key := by
  have hdated : greetingDisk.Dated := (Disk.changes_write _ _ _).dated Disk.dated_empty
  obtain ⟨-, -, hwritten, -, hprinted⟩ :=
    numbers_last [.start "a.ts", .use ("Hello", none) false, .finish] hdated
      (.refl : Onward greeting greeting)
  have hemitted : (Step.answer? (compile greeting)).map CycleReport.emitted = some ["a.ts"] := by
    decide +kernel
  obtain ⟨r, hr, hfiles⟩ := Option.map_eq_some_iff.mp hemitted
  obtain ⟨w, w', hwrites⟩ := hwritten r _ (Step.ok_of_answer? hr) "a.ts" (hfiles ▸ List.mem_singleton_self _)
  obtain ⟨script, edited, hprints, hlookups⟩ := hprinted "a.ts" w w' hwrites
  exact ⟨hdated, hemitted, by decide +kernel, w, w', script, edited, hwrites, hprints, hlookups⟩

end Session

end Bundler

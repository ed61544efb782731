/-
What loading does.

Loading visits a file, then the files that it imports, and lists each behind its imports. What is
said about it is one invariant of a visit (`Session.Visited`): the files that are listed are loaded,
that is, text, script and references are those of the file on the disk; each of their imports was
met, unless it is a script; and a file that was met is listed, or is still being visited further up,
or could not be read, which is one of the messages then. Nothing that loading does later spoils it,
because loading never changes what is up to date.

The number of steps that loading is given counts, too: the names that were met are different, and
each is that of an entry file or of an import that an entry has recorded, so there are no more of
them than `Session.fileBound` says, and the walk is never cut short.
-/
import Bundler.Proofs.Budget

set_option autoImplicit false

namespace Bundler

open Workspace Step

/-! ## Messages -/

namespace Messages

theorem mem_add {m : Messages} {d d' : Diagnostic} :
    d' ∈ (m.add d).toList ↔ d' ∈ m.toList ∨ d' = d := by
  rw [toList_add, List.mem_append, List.mem_singleton]

theorem mem_retainFiles {m : Messages} {keep : String → Bool} {d : Diagnostic} :
    d ∈ (m.retainFiles keep).toList ↔ d ∈ m.toList ∧ keep d.file = true := List.mem_filter

theorem mem_clearFile {m : Messages} {file : String} {d : Diagnostic} :
    d ∈ (m.clearFile file).toList ↔ d ∈ m.toList ∧ d.file ≠ file := by
  unfold clearFile
  rw [mem_retainFiles]
  simp

end Messages

/-! ## Files that are loaded -/

/-- The names under which files are loaded: entry files, and imports that are no scripts. -/
def Session.Loadable (mains : List String) (file : String) : Prop :=
  file ∈ mains ∨ Path.IsSourceName file

/-- A file is loaded, and imports some files. -/
def Workspace.HasLoaded (w : Workspace) (file : String) (deps : List String) : Prop :=
  ∃ id refs, w.cache.find? w.project.dir file = some id ∧ (w.cache.entry id).Loaded ∧
    (w.cache.entry id).references = some refs ∧ refs.files = deps

/-- A name that is mentioned: that of an entry file, or of an import of a file that is loaded. -/
def Workspace.Mentions (w : Workspace) (mains : List String) (name : String) : Prop :=
  name ∈ mains ∨ ∃ file deps, w.HasLoaded file deps ∧ name ∈ deps

theorem Entry.references_of_references? {e : Entry} {refs : References}
    (h : e.references? = some refs) : e.references = some refs := by
  unfold Entry.references? at h
  split at h
  · exact h
  · exact absurd h (by simp)

theorem Entry.Loaded.references?_eq {e : Entry} (h : e.Loaded) : e.references? = e.references := by
  unfold Entry.references?
  rw [if_pos h.info]

/-- What was seen of the files stays what there is. -/
theorem Frame.Moves.seen_of_loads {N : String → Prop} {w w' : Workspace}
    (h : (Frame.loads N).Moves w w') (hseen : w.cache.Seen w.disk) : w'.cache.Seen w'.disk := by
  rw [h.disk]
  exact h.cache.keeps (P := Entry.Seen w.disk) (fun _ _ hstep hs => hstep.loads.seen hs)
    (fun _ => Entry.Seen.blank _ _ _) hseen

theorem Workspace.HasLoaded.mono {N : String → Prop} {w w' : Workspace} {file : String}
    {deps : List String} (hl : w.HasLoaded file deps) (h : (Frame.loads N).Moves w w')
    (hseen : w.cache.Seen w.disk) : w'.HasLoaded file deps := by
  obtain ⟨id, refs, hfind, hloaded, hrefs, hdeps⟩ := hl
  obtain ⟨hid, -⟩ := Cache.find?_some hfind
  have hloads := Entry.loads_of_chain (h.cache.old id hid)
  have hseen' : (w.cache.entry id).Seen w.surroundings.disk := hseen id hid
  refine ⟨id, refs, by rw [h.dir]; exact h.cache.find? hfind, hloads.loaded hseen' hloaded, ?_,
    hdeps⟩
  obtain ⟨hfound, htime, -⟩ := Entry.isInfoCurrent_iff.mp hloaded.info
  obtain ⟨t, hcur, hmod⟩ := hseen'.at_of_found hfound
  rw [(hloads.info hseen' t hmod (htime.trans hcur) (by rw [hrefs]; rfl)).2, hrefs]

theorem Workspace.Mentions.mono {N : String → Prop} {w w' : Workspace} {mains : List String}
    {name : String} (hn : w.Mentions mains name) (h : (Frame.loads N).Moves w w')
    (hseen : w.cache.Seen w.disk) : w'.Mentions mains name :=
  hn.imp_right fun ⟨file, deps, hl, hmem⟩ => ⟨file, deps, hl.mono h hseen, hmem⟩

namespace Session

variable {mains : List String}

/-- The law of loading a program: the chains of changes of its entries, and that references stay
recorded. -/
def loadingLaw (mains : List String) : Law Workspace :=
  (Frame.loads (Loadable mains)).law.and Workspace.Recorded.law

theorem loading_loadingLaw (mains : List String) :
    Bundler.Loading (loadingLaw mains) (Loadable mains) :=
  Frame.loading_loads.and (Workspace.Recorded.loading _)

private theorem keeps_recorded {w w' : Workspace} (h : (loadingLaw mains).moves w w')
    (hw : w.destination = none ∧ w.Recorded) : w'.destination = none ∧ w'.Recorded :=
  ⟨h.1.2.2.1.trans hw.1, h.2.2.2.2 hw.1 hw.2⟩

/-- A name under which a file may be loaded, where references are recorded. -/
private def Allowed (mains : List String) (w : Workspace) (file : String) : Prop :=
  (w.destination = none ∧ w.Recorded) ∧ Loadable mains file

/-- An import that is recorded and is no script may be loaded. -/
theorem loadable_of_import {w : Workspace} {id : Nat} {refs : References} {dep : String}
    (hw : w.destination = none ∧ w.Recorded) (hrefs : (w.cache.entry id).references = some refs)
    (hdep : dep ∈ refs.files) (hjs : Path.isJs dep = .ok false) : Loadable mains dep := by
  have hid : id < w.cache.entries.length := by
    by_contra hge
    unfold Cache.entry at hrefs
    rw [List.getElem?_eq_none (by omega)] at hrefs
    exact absurd hrefs (by simp [Entry.blank])
  rcases hw.2.named id hid refs hrefs dep hdep with hsource | hscript
  · exact .inr hsource
  · rw [Path.isJs_of_isScriptName hscript] at hjs
    exact absurd hjs (by simp)

private theorem allowed_of_import {w : Workspace} {file : String} {id : Nat} {refs : References}
    {dep : String} (hw : Allowed mains w file)
    (hrefs : (w.cache.entry id).references? = some refs) (hdep : dep ∈ refs.files)
    (hjs : Path.isJs dep = .ok false) : Allowed mains w dep :=
  ⟨hw.1, loadable_of_import hw.1 (Entry.references_of_references? hrefs) hdep hjs⟩

/-! ## One file -/

/-- What one step of loading leaves: entries as loading changes them, references recorded, and what
was seen of the files. -/
structure Advanced (mains : List String) (s s' : Session) : Prop where
  moves : (Frame.loads (Loadable mains)).Moves s.toWorkspace s'.toWorkspace
  recorded : s.toWorkspace.Recorded → s'.toWorkspace.Recorded

theorem Advanced.of_law {s s' : Session} (h : (loadingLaw mains).session.moves s s')
    (hdest : s.destination = none) : Advanced mains s s' :=
  ⟨Frame.moves_of_law h.1.1 hdest, h.1.2.2.2.2 hdest⟩

theorem Advanced.of_messages {s s' : Session} (h : s'.toWorkspace = s.toWorkspace)
    (hdest : s.destination = none) : Advanced mains s s' := by
  refine ⟨?_, fun hr => ?_⟩
  · rw [h]
    exact Frame.Moves.refl hdest
  · rw [h]
    exact hr

theorem Advanced.trans {s s' s'' : Session} (h : Advanced mains s s') (h' : Advanced mains s' s'') :
    Advanced mains s s'' :=
  ⟨h.moves.trans h'.moves, fun hr => h'.recorded (h.recorded hr)⟩

/-- Where the script is current the references are current already, or gathered of the imports that
are found. -/
theorem gathered_of_refreshReferences {file : String} {id : Nat} {w w' : Workspace} {u : Unit}
    (hid : id < w.cache.entries.length) (hsource : (w.cache.entry id).isSourceCurrent = true)
    (h : refreshReferences file id w = .ok u w') :
    ((w.cache.entry id).isInfoCurrent = true ∧ w' = w) ∨
    ∃ specifiers deps v script refs, findImports file specifiers w = .ok deps v ∧
      id < v.cache.entries.length ∧ (v.cache.entry id).isSourceCurrent = true ∧
      References.gather script deps (v.project.resourceName file) = .ok refs ∧
      w' = v.changed id fun e => { e with references := some refs, infoTime := e.current } := by
  rcases refreshReferences_ok h with hcur | ⟨-, deps, v, hdeps, hrest⟩
  · exact .inl hcur
  · have hmoves := Frame.moves_of_still
      ((obeys_findImports (Frame.looking_still Frame.looking_reading) file _).ok hdeps)
    have hread : Entry.Read w.surroundings (w.cache.entry id) (v.cache.entry id) :=
      hmoves.cache.old id hid
    have hsource' := hread.isSourceCurrent hsource
    rcases hrest with ⟨hnone, -⟩ | ⟨script, refs, -, hgather, rfl⟩
    · obtain ⟨-, -, script, hsome⟩ := Entry.isSourceCurrent_iff.mp hsource'
      rw [hnone] at hsome
      exact absurd hsome (by simp)
    · exact .inr ⟨_, deps, v, script, refs, hdeps, Nat.lt_of_lt_of_le hid hmoves.cache.longer,
        hsource', hgather, rfl⟩

/-- References that were brought up to date are those of the file, and the script is left as it
is. -/
theorem loaded_of_refreshReferences {file : String} {id : Nat} {w w' : Workspace} {u : Unit}
    (hid : id < w.cache.entries.length) (hsource : (w.cache.entry id).isSourceCurrent = true)
    (h : refreshReferences file id w = .ok u w') : (w'.cache.entry id).Loaded := by
  rcases gathered_of_refreshReferences hid hsource h with
    ⟨hinfo, rfl⟩ | ⟨-, -, v, script, refs, -, hid', hsource', -, rfl⟩
  · exact ⟨hsource, hinfo⟩
  · have htext' := Entry.isTextCurrent_of_isSourceCurrent hsource'
    have hentry : (v.changed id fun e =>
        { e with references := some refs, infoTime := e.current }).cache.entry id
        = { v.cache.entry id with references := some refs, infoTime := (v.cache.entry id).current } :=
      Cache.entry_modify_self _ hid'
    rw [hentry]
    refine ⟨?_, ?_⟩
    · rw [← hsource']
      rfl
    · exact Entry.isInfoCurrent_iff.mpr ⟨(Entry.isTextCurrent_iff.mp htext').1, rfl, refs, rfl⟩

/-- Bringing a file up to date: it is loaded then, or it could not be read and a message says so. -/
theorem loadFile_ok {file : String} {answer : Option (List String)} {s s' : Session}
    (hdest : s.destination = none) (hfile : Loadable mains file)
    (h : loadFile file s = .ok answer s') :
    Advanced mains s s' ∧
      ((answer = none ∧ s'.messages = s.messages.add (missingSource file)) ∨
        ∃ deps, answer = some deps ∧ s'.messages = s.messages ∧
          s'.toWorkspace.HasLoaded file deps) := by
  refine ⟨Advanced.of_law ((obeys_loadFile (loading_loadingLaw mains) hfile).ok h) hdest, ?_⟩
  obtain ⟨id, w, hfind, -, hdest₀, hcases⟩ := loadFile_cases h
  rcases hcases with
    ⟨-, w₁, w₂, -, hfind₁, -, hdest₁, hsource, hrefs, rfl, rfl⟩ | ⟨rfl, rfl⟩
  · right
    have hdest₁' : w₁.destination = none := hdest₁.trans (hdest₀.trans hdest)
    have hloaded := loaded_of_refreshReferences (Cache.find?_some hfind₁).1 hsource hrefs
    have hmoves := (loading_loadingLaw mains).refs w₁ id file hfile hfind₁ hsource
    rw [hrefs] at hmoves
    have hfind₂ : w₂.cache.find? w₂.project.dir file = some id := by
      rw [hmoves.1.2.1]
      exact (Frame.moves_of_law hmoves.1 hdest₁').cache.find? hfind₁
    obtain ⟨-, -, refs, hsome⟩ := Entry.isInfoCurrent_iff.mp hloaded.info
    refine ⟨_, rfl, rfl, id, refs, hfind₂, hloaded, hsome, ?_⟩
    rw [hloaded.references?_eq, hsome]
    rfl
  · exact .inl ⟨rfl, rfl⟩

/-! ## Walking down the imports -/

/-- What is known while a program is loaded that began with the workspace `w₀`. The files `opened`
are being visited further up. -/
structure Visited (mains : List String) (w₀ : Workspace) (s : Session) (l : Loaded)
    (opened : List String) : Prop where
  moves : (Frame.loads (Loadable mains)).Moves w₀ s.toWorkspace
  recorded : s.toWorkspace.Recorded
  seen : s.cache.Seen s.disk
  met : l.met.Nodup
  listed : (l.program.map Text.lower).Nodup
  listed_met : ∀ file ∈ l.program, Text.lower file ∈ l.met
  opened_met : ∀ m ∈ opened, m ∈ l.met
  /-- A file is listed only when its visit is over. -/
  opened_unlisted : ∀ m ∈ opened, m ∉ l.program.map Text.lower
  /-- A name that was met is that of an entry file or of an import. -/
  named : ∀ m ∈ l.met, m ∈ mains.map Text.lower ∨
    ∃ file deps, s.toWorkspace.HasLoaded file deps ∧ m ∈ deps.map Text.lower
  loadable : ∀ file ∈ l.program, Loadable mains file
  mentioned : ∀ file ∈ l.program, s.toWorkspace.Mentions mains file
  loaded : ∀ file ∈ l.program, ∃ deps, s.toWorkspace.HasLoaded file deps ∧
    ∀ dep ∈ deps, Path.isJs dep = .ok false → Text.lower dep ∈ l.met
  outcome : ∀ m ∈ l.met, m ∈ opened ∨ m ∈ l.program.map Text.lower ∨
    ∃ file, Text.lower file = m ∧ missingSource file ∈ s.messages.toList

variable {w₀ : Workspace} {s s' : Session} {l l' : Loaded} {opened : List String}

/-- What is known stays known, as long as the messages about files that were met do. -/
theorem Visited.mono (h : Visited mains w₀ s l opened) (hs : Advanced mains s s')
    (hmessages : ∀ file, Text.lower file ∈ l.met → missingSource file ∈ s.messages.toList →
      missingSource file ∈ s'.messages.toList) : Visited mains w₀ s' l opened where
  moves := h.moves.trans hs.moves
  recorded := hs.recorded h.recorded
  seen := hs.moves.seen_of_loads h.seen
  met := h.met
  listed := h.listed
  listed_met := h.listed_met
  opened_met := h.opened_met
  opened_unlisted := h.opened_unlisted
  named m hm := (h.named m hm).imp_right fun ⟨file, deps, hl, hmem⟩ =>
    ⟨file, deps, hl.mono hs.moves h.seen, hmem⟩
  loadable := h.loadable
  mentioned file hfile := (h.mentioned file hfile).mono hs.moves h.seen
  loaded file hfile := by
    obtain ⟨deps, hl, hdeps⟩ := h.loaded file hfile
    exact ⟨deps, hl.mono hs.moves h.seen, hdeps⟩
  outcome m hm := by
    rcases h.outcome m hm with hopen | hlisted | ⟨file, hlower, hmissing⟩
    · exact .inl hopen
    · exact .inr (.inl hlisted)
    · exact .inr (.inr ⟨file, hlower, hmessages file (by rw [hlower]; exact hm) hmissing⟩)

/-- An import of a loaded file that is no script may be loaded. -/
private theorem Visited.loadable_import {file dep : String} {deps : List String}
    (h : Visited mains w₀ s l opened) (hl : s.toWorkspace.HasLoaded file deps) (hdep : dep ∈ deps)
    (hjs : Path.isJs dep = .ok false) : Loadable mains dep := by
  obtain ⟨id, refs, -, -, hrefs, rfl⟩ := hl
  exact loadable_of_import ⟨h.moves.destination, h.recorded⟩ hrefs hdep hjs

/-- There are fewer names of entry files, and of imports that entries have recorded, than loading is
given steps. -/
theorem length_lt_fileBound {N : String → Prop} {w₀ w : Workspace} {names : List String}
    (hmoves : (Frame.loads N).Moves w₀ w) (hnamed : w₀.cache.Named w₀.project.dir)
    (hkeys : w₀.cache.KeysDistinct) (hnodup : names.Nodup)
    (hnames : ∀ m ∈ names, m ∈ mains.map Text.lower ∨
      ∃ file deps, w.HasLoaded file deps ∧ m ∈ deps.map Text.lower) :
    names.length < fileBound mains w₀ := by
  let imports (i : Nat) : List String :=
    (((w.cache.entry i).references.map References.files).getD []).map Text.lower
  have hcount : ∀ i, (imports i).length = (w.cache.entry i).importCount := by
    intro i
    simp only [imports]
    rw [List.length_map]
    unfold Entry.importCount
    cases (w.cache.entry i).references with
    | none => rfl
    | some refs => simp [References.files]
  have hsub : names ⊆ mains.map Text.lower ++
      (List.range w.cache.entries.length).flatMap imports := by
    intro m hm
    rw [List.mem_append]
    refine (hnames m hm).imp_right ?_
    rintro ⟨file, deps, ⟨id, refs, hfind, -, hrefs, rfl⟩, hmem⟩
    rw [List.mem_flatMap]
    refine ⟨id, List.mem_range.mpr (Cache.find?_some hfind).1, ?_⟩
    simp only [imports]
    rw [hrefs]
    exact hmem
  have hlen := (List.subperm_of_subset hnodup hsub).length_le
  rw [List.length_append, List.length_map, List.length_flatMap] at hlen
  have hsum : ((List.range w.cache.entries.length).map fun i => (imports i).length).sum
      ≤ total importsOf w₀.cache.entries + importsOn w₀.disk := by
    have hle := importCount_le hmoves hnamed hkeys
    have heq : ((List.range w.cache.entries.length).map fun i => (imports i).length).sum
        = ∑ i ∈ Finset.range w.cache.entries.length, (w.cache.entry i).importCount := by
      rw [Finset.sum_eq_multiset_sum, Finset.range_val, Multiset.range, Multiset.map_coe,
        Multiset.sum_coe]
      exact congrArg List.sum (List.map_congr_left fun i _ => hcount i)
    rw [heq]
    exact hle
  unfold fileBound
  omega

/-- Fewer names were met than loading was given steps. -/
theorem Visited.length_met (h : Visited mains w₀ s l opened) (hnamed : w₀.cache.Named w₀.project.dir)
    (hkeys : w₀.cache.KeysDistinct) : l.met.length < fileBound mains w₀ :=
  length_lt_fileBound h.moves hnamed hkeys h.met h.named

/-- What a visit of a file, or of some files, comes to. -/
structure Visits (mains : List String) (w₀ : Workspace) (s' : Session) (l l' : Loaded)
    (opened : List String) : Prop where
  visited : Visited mains w₀ s' l' opened
  met : l.met <:+ l'.met
  program : l.program <+: l'.program

/-- Visiting files one after the other, given that the visit of each is as it should be. -/
private theorem visits_imports {depth : Nat} {deps : List String} {file₀ : String}
    (hvisit : ∀ (l : Loaded) (file : String) (s s' : Session) (l' : Loaded),
      Visited mains w₀ s l opened → Loadable mains file → s.toWorkspace.Mentions mains file →
      fileBound mains w₀ ≤ depth + l.met.length → visit depth l file s = .ok l' s' →
      Visits mains w₀ s' l l' opened ∧ Text.lower file ∈ l'.met) :
    ∀ (ds : List String) (l : Loaded) (s s' : Session) (l' : Loaded),
      (∀ dep ∈ ds, dep ∈ deps) → Visited mains w₀ s l opened →
      s.toWorkspace.HasLoaded file₀ deps → fileBound mains w₀ ≤ depth + l.met.length →
      (ds.foldlM (fun l dep => do
        if ← Path.isJs dep then return l else visit depth l dep) l : Step Session Loaded) s
        = .ok l' s' →
      Visits mains w₀ s' l l' opened ∧
        (Frame.loads (Loadable mains)).Moves s.toWorkspace s'.toWorkspace ∧
        ∀ dep ∈ ds, Path.isJs dep = .ok false → Text.lower dep ∈ l'.met := by
  intro ds
  induction ds with
  | nil =>
    intro l s s' l' _ hv hfile₀ _ h
    obtain ⟨rfl, rfl⟩ := (pure_ok_iff _ _ _ _).mp h
    exact ⟨⟨hv, List.suffix_refl _, List.prefix_refl _⟩, Frame.Moves.refl hv.moves.destination,
      fun _ h => absurd h (by simp)⟩
  | cons dep ds ih =>
    intro l s s' l' hds hv hfile₀ hroom h
    have hdep : dep ∈ deps := hds dep List.mem_cons_self
    have hds' : ∀ d ∈ ds, d ∈ deps := fun d hd => hds d (List.mem_cons_of_mem _ hd)
    obtain ⟨l₁, s₁, ⟨hsaid, rfl, rfl⟩ | ⟨hsaid, hone⟩, hrest⟩ := visit_import_cases h
    · obtain ⟨hvisits, hmoves, hmet⟩ := ih l₁ s₁ s' l' hds' hv hfile₀ hroom hrest
      refine ⟨hvisits, hmoves, fun d hd hd' => ?_⟩
      rcases List.mem_cons.mp hd with rfl | hmem
      · rw [hsaid] at hd'
        exact absurd hd' (by simp)
      · exact hmet d hmem hd'
    · have hloadable := hv.loadable_import hfile₀ hdep hsaid
      obtain ⟨hvisits₁, hmet₁⟩ :=
        hvisit l dep s s₁ l₁ hv hloadable (.inr ⟨file₀, deps, hfile₀, hdep⟩) hroom hone
      have hadvanced : (Frame.loads (Loadable mains)).Moves s.toWorkspace s₁.toWorkspace := by
        have hlaw := allows_visit (A := Allowed mains)
          (fun s _ hfile => obeys_loadFile (loading_loadingLaw mains) hfile.2 s)
          (fun _ _ _ hm hfile => ⟨keeps_recorded hm hfile.1, hfile.2⟩)
          (fun _ _ _ _ _ => allowed_of_import) depth l dep s
          ⟨⟨hv.moves.destination, hv.recorded⟩, hloadable⟩
        rw [hone] at hlaw
        exact Frame.moves_of_law hlaw.1.1 hv.moves.destination
      have hlonger := hvisits₁.met.length_le
      obtain ⟨hvisits, hmoves, hmet⟩ := ih l₁ s₁ s' l' hds' hvisits₁.visited
        (hfile₀.mono hadvanced hv.seen) (by omega) hrest
      refine ⟨⟨hvisits.visited, hvisits₁.met.trans hvisits.met,
        hvisits₁.program.trans hvisits.program⟩, hadvanced.trans hmoves, fun d hd hd' => ?_⟩
      rcases List.mem_cons.mp hd with rfl | hmem
      · exact hvisits.met.subset hmet₁
      · exact hmet d hmem hd'

/-- A file that was not met before is met now, whatever comes out of its visit. -/
private theorem Visited.meet {file : String} (ht : Visited mains w₀ s l opened)
    (hnew : Text.lower file ∉ l.met)
    (hn : Text.lower file ∈ mains.map Text.lower ∨
      ∃ f deps, s.toWorkspace.HasLoaded f deps ∧ Text.lower file ∈ deps.map Text.lower)
    (more : List String) (hout : Text.lower file ∈ more ∨
      ∃ f, Text.lower f = Text.lower file ∧ missingSource f ∈ s.messages.toList)
    (hmore : ∀ m ∈ opened, m ∈ more) (hless : ∀ m ∈ more, m = Text.lower file ∨ m ∈ opened) :
    Visited mains w₀ s ⟨Text.lower file :: l.met, l.program⟩ more := by
  refine ⟨ht.moves, ht.recorded, ht.seen, List.nodup_cons.mpr ⟨hnew, ht.met⟩, ht.listed,
    fun f hf => List.mem_cons_of_mem _ (ht.listed_met f hf), ?_, ?_, ?_, ht.loadable,
    ht.mentioned, ?_, ?_⟩
  · intro m hm
    rcases hless m hm with rfl | hm
    · exact List.mem_cons_self
    · exact List.mem_cons_of_mem _ (ht.opened_met m hm)
  · intro m hm hlisted
    rcases hless m hm with rfl | hm
    · obtain ⟨f, hf, hlower⟩ := List.mem_map.mp hlisted
      exact hnew (hlower ▸ ht.listed_met f hf)
    · exact ht.opened_unlisted m hm hlisted
  · intro m hm
    rcases List.mem_cons.mp hm with rfl | hm
    · exact hn
    · exact ht.named m hm
  · intro f hf
    obtain ⟨deps, hl, hdeps⟩ := ht.loaded f hf
    exact ⟨deps, hl, fun dep hdep hjs => List.mem_cons_of_mem _ (hdeps dep hdep hjs)⟩
  · intro m hm
    rcases List.mem_cons.mp hm with rfl | hm
    · exact hout.imp_right .inr
    · exact (ht.outcome m hm).imp_left (hmore m)

/-- Bringing a file up to date that was not met before, with its messages forgotten. It cannot be
read, or it is open, and its imports are next. -/
private theorem Visited.opens {file : String} {answer : Option (List String)} {u : Session}
    (hv : Visited mains w₀ s l opened) (hfile : Loadable mains file)
    (hname : s.toWorkspace.Mentions mains file) (hnew : Text.lower file ∉ l.met)
    (h : loadFile file { s with messages := s.messages.clearFile file } = .ok answer u) :
    (Frame.loads (Loadable mains)).Moves s.toWorkspace u.toWorkspace ∧
      ((answer = none ∧ Visited mains w₀ u ⟨Text.lower file :: l.met, l.program⟩ opened) ∨
        ∃ deps, answer = some deps ∧ u.toWorkspace.HasLoaded file deps ∧
          Visited mains w₀ u ⟨Text.lower file :: l.met, l.program⟩
            (Text.lower file :: opened)) := by
  have hdest : s.destination = none := hv.moves.destination
  have hv₁ : Visited mains w₀ { s with messages := s.messages.clearFile file } l opened := by
    refine hv.mono (Advanced.of_messages rfl hdest) fun f hf hmissing => ?_
    refine Messages.mem_clearFile.mpr ⟨hmissing, fun heq => ?_⟩
    change f = file at heq
    rw [heq] at hf
    exact hnew hf
  obtain ⟨hadvanced, hanswer⟩ := loadFile_ok hv₁.moves.destination hfile h
  have hname₂ : Text.lower file ∈ mains.map Text.lower ∨
      ∃ f deps, u.toWorkspace.HasLoaded f deps ∧ Text.lower file ∈ deps.map Text.lower :=
    hname.imp List.mem_map_of_mem fun ⟨f, deps, hl, hmem⟩ =>
      ⟨f, deps, hl.mono hadvanced.moves hv₁.seen, List.mem_map_of_mem hmem⟩
  refine ⟨hadvanced.moves, ?_⟩
  rcases hanswer with ⟨rfl, hmessages⟩ | ⟨deps, rfl, hmessages, hloaded⟩
  · refine .inl ⟨rfl, ?_⟩
    have hv₂ : Visited mains w₀ u l opened := by
      refine hv₁.mono hadvanced fun f _ hmissing => ?_
      rw [hmessages]
      exact Messages.mem_add.mpr (.inl hmissing)
    refine hv₂.meet hnew hname₂ opened (.inr ⟨file, rfl, ?_⟩) (fun _ h => h) fun _ h => .inr h
    rw [hmessages]
    exact Messages.mem_add.mpr (.inr rfl)
  · have hv₂ : Visited mains w₀ u l opened :=
      hv₁.mono hadvanced fun f _ hmissing => by rw [hmessages]; exact hmissing
    exact .inr ⟨deps, rfl, hloaded, hv₂.meet hnew hname₂ _ (.inl List.mem_cons_self)
      (fun m hm => List.mem_cons_of_mem _ hm) fun m hm => List.mem_cons.mp hm⟩

/-- The visit of a file is over when its imports have been visited: it is listed behind them. -/
private theorem Visited.close {file : String} {deps : List String}
    (hv : Visited mains w₀ s l (Text.lower file :: opened)) (hfile : Loadable mains file)
    (hname : s.toWorkspace.Mentions mains file) (hnew : Text.lower file ∉ opened)
    (hloaded : s.toWorkspace.HasLoaded file deps)
    (hdeps : ∀ dep ∈ deps, Path.isJs dep = .ok false → Text.lower dep ∈ l.met) :
    Visited mains w₀ s { l with program := l.program ++ [file] } opened := by
  have hunlisted := hv.opened_unlisted (Text.lower file) List.mem_cons_self
  refine ⟨hv.moves, hv.recorded, hv.seen, hv.met, ?_, ?_, ?_, ?_, hv.named, ?_, ?_, ?_, ?_⟩
  · rw [List.map_append, List.map_singleton, List.nodup_append]
    refine ⟨hv.listed, by simp, fun m hm m' hm' heq => ?_⟩
    rw [List.mem_singleton.mp hm'] at heq
    exact hunlisted (heq ▸ hm)
  · intro f hf
    rcases List.mem_append.mp hf with hf | hf
    · exact hv.listed_met f hf
    · rw [List.mem_singleton.mp hf]
      exact hv.opened_met _ List.mem_cons_self
  · exact fun m hm => hv.opened_met m (List.mem_cons_of_mem _ hm)
  · intro m hm hlisted
    rw [List.map_append, List.map_singleton, List.mem_append] at hlisted
    rcases hlisted with hlisted | hlisted
    · exact hv.opened_unlisted m (List.mem_cons_of_mem _ hm) hlisted
    · rw [List.mem_singleton.mp hlisted] at hm
      exact hnew hm
  · intro f hf
    rcases List.mem_append.mp hf with hf | hf
    · exact hv.loadable f hf
    · rw [List.mem_singleton.mp hf]
      exact hfile
  · intro f hf
    rcases List.mem_append.mp hf with hf | hf
    · exact hv.mentioned f hf
    · rw [List.mem_singleton.mp hf]
      exact hname
  · intro f hf
    rcases List.mem_append.mp hf with hf | hf
    · exact hv.loaded f hf
    · rw [List.mem_singleton.mp hf]
      exact ⟨deps, hloaded, hdeps⟩
  · intro m hm
    rw [List.map_append, List.map_singleton]
    rcases hv.outcome m hm with hopened | hlisted | hmissing
    · rcases List.mem_cons.mp hopened with rfl | hopened
      · exact .inr (.inl (List.mem_append_right _ List.mem_cons_self))
      · exact .inl hopened
    · exact .inr (.inl (List.mem_append_left _ hlisted))
    · exact .inr (.inr hmissing)

/-- The visit of a file lists it behind its imports, or finds that it cannot be read. The induction
is on the number of steps left. Each step down marks one more name as met, so the sum of both does
not fall, and it is above the number of names that there can be. -/
theorem visit_ok (hnamed : w₀.cache.Named w₀.project.dir) (hkeys : w₀.cache.KeysDistinct) :
    ∀ (depth : Nat) (opened : List String) (l : Loaded) (file : String) (s s' : Session)
      (l' : Loaded), Visited mains w₀ s l opened → Loadable mains file →
      s.toWorkspace.Mentions mains file →
      fileBound mains w₀ ≤ depth + l.met.length → visit depth l file s = .ok l' s' →
      Visits mains w₀ s' l l' opened ∧ Text.lower file ∈ l'.met := by
  intro depth
  induction depth with
  | zero =>
    intro opened l file s s' l' hv _ _ hroom _
    have hlt := hv.length_met hnamed hkeys
    omega
  | succ depth ih =>
    intro opened l file s s' l' hv hfile hname hroom h
    rcases visit_cases h with ⟨hmet, rfl, rfl⟩ | ⟨hnew, answer, s₂, hload, hrest⟩
    · exact ⟨⟨hv, List.suffix_refl _, List.prefix_refl _⟩, hmet⟩
    · obtain ⟨hmoves₂, ⟨rfl, hv₂⟩ | ⟨deps, rfl, hloaded, hv₃⟩⟩ :=
        hv.opens hfile hname hnew hload
      · obtain ⟨-, rfl, rfl⟩ | ⟨_, _, hsome, -⟩ := hrest
        · exact ⟨⟨hv₂, List.suffix_cons _ _, List.prefix_refl _⟩, List.mem_cons_self⟩
        · exact absurd hsome (by simp)
      · obtain ⟨hnone, -⟩ | ⟨_, l₃, hsome, hfold, rfl⟩ := hrest
        · exact absurd hnone (by simp)
        obtain rfl := Option.some.inj hsome
        obtain ⟨hvisits, hmoves₃, hdeps⟩ := visits_imports (ih (Text.lower file :: opened)) deps _
          s₂ s' l₃ (fun _ h => h) hv₃ hloaded (by simp only [List.length_cons]; omega) hfold
        refine ⟨⟨?_, (List.suffix_cons _ _).trans hvisits.met,
          hvisits.program.trans (List.prefix_append _ _)⟩, hvisits.met.subset List.mem_cons_self⟩
        exact hvisits.visited.close hfile (hname.mono (hmoves₂.trans hmoves₃) hv.seen)
          (fun hm => hnew (hv.opened_met _ hm)) (hloaded.mono hmoves₃ hv₃.seen) hdeps

/-- The imports of a file one after the other, given that the visit of each is the same with so many
steps as with others. -/
private theorem imports_congr (hnamed : w₀.cache.Named w₀.project.dir)
    (hkeys : w₀.cache.KeysDistinct) {depth depth' : Nat} {file : String} {deps : List String}
    (hvisit : ∀ (l : Loaded) (dep : String) (s : Session), Visited mains w₀ s l opened →
      Loadable mains dep → s.toWorkspace.Mentions mains dep →
      fileBound mains w₀ ≤ depth + l.met.length → fileBound mains w₀ ≤ depth' + l.met.length →
      visit depth l dep s = visit depth' l dep s) :
    ∀ (ds : List String) (l : Loaded) (s : Session), (∀ dep ∈ ds, dep ∈ deps) →
      Visited mains w₀ s l opened → s.toWorkspace.HasLoaded file deps →
      fileBound mains w₀ ≤ depth + l.met.length → fileBound mains w₀ ≤ depth' + l.met.length →
      (ds.foldlM (fun l dep => do
        if ← Path.isJs dep then return l else visit depth l dep) l : Step Session Loaded) s
      = (ds.foldlM (fun l dep => do
        if ← Path.isJs dep then return l else visit depth' l dep) l : Step Session Loaded) s := by
  intro ds
  induction ds with
  | nil => exact fun _ _ _ _ _ _ _ => rfl
  | cons dep ds ih =>
    intro l s hds hv hl hroom hroom'
    rw [List.foldlM_cons, List.foldlM_cons]
    have hdep := hds dep List.mem_cons_self
    refine bind_congr_at ?_ fun l₁ s₁ hone => ?_
    · refine bind_congr_at rfl fun js s' hjs => ?_
      obtain ⟨hsaid, rfl⟩ := (lift_ok_iff _ _ _ _).mp hjs
      cases js with
      | true => rfl
      | false =>
        exact hvisit l dep s hv (hv.loadable_import hl hdep hsaid) (.inr ⟨file, deps, hl, hdep⟩)
          hroom hroom'
    · -- visiting one import opens nothing that stays open, and the names that were met stay met
      obtain ⟨hvisits, hmoves, -⟩ := visits_imports (visit_ok hnamed hkeys depth _) [dep] l
        s s₁ l₁ (by simpa using hdep) hv hl hroom (by
          rw [List.foldlM_cons]
          exact (bind_of_ok hone).trans rfl)
      have hlonger := hvisits.met.length_le
      exact ih l₁ s₁ (fun d hd => hds d (List.mem_cons_of_mem _ hd)) hvisits.visited
        (hl.mono hmoves hv.seen) (by omega) (by omega)

/-- More steps than enough change nothing. The induction is on the number of steps left of one of the
two. -/
theorem visit_congr (hnamed : w₀.cache.Named w₀.project.dir) (hkeys : w₀.cache.KeysDistinct) :
    ∀ (depth depth' : Nat) (opened : List String) (l : Loaded) (file : String) (s : Session),
      Visited mains w₀ s l opened → Loadable mains file → s.toWorkspace.Mentions mains file →
      fileBound mains w₀ ≤ depth + l.met.length → fileBound mains w₀ ≤ depth' + l.met.length →
      visit depth l file s = visit depth' l file s := by
  intro depth
  induction depth with
  | zero =>
    intro depth' opened l file s hv _ _ hroom _
    have hlt := hv.length_met hnamed hkeys
    omega
  | succ depth ih =>
    intro depth' opened l file s hv hfile hname hroom hroom'
    cases depth' with
    | zero =>
      have hlt := hv.length_met hnamed hkeys
      omega
    | succ depth' =>
      unfold visit
      by_cases hmet : l.met.contains (Text.lower file) = true
      · rw [if_pos hmet, if_pos hmet]
      · rw [if_neg hmet, if_neg hmet]
        have hnew : Text.lower file ∉ l.met := by simpa using hmet
        refine bind_congr_at rfl fun u s₁ hclear => ?_
        obtain rfl := (modify_ok_iff _ _ _ _).mp hclear
        refine bind_congr_at rfl fun answer s₂ hload => ?_
        obtain ⟨-, ⟨rfl, -⟩ | ⟨deps, rfl, hloaded, hv₂⟩⟩ := hv.opens hfile hname hnew hload
        · rfl
        · refine bind_congr_at ?_ fun _ _ _ => rfl
          exact imports_congr hnamed hkeys
            (fun l dep s => ih depth' (Text.lower file :: opened) l dep s) deps _ s₂ (fun _ h => h)
            hv₂ hloaded (by simp only [List.length_cons]; omega)
            (by simp only [List.length_cons]; omega)

/-! ## The program -/

/-- The files of a program are loaded, and it is closed under imports that are no scripts. -/
structure IsProgram (mains : List String) (w : Workspace) (program : List String) : Prop where
  listed : (program.map Text.lower).Nodup
  loadable : ∀ file ∈ program, Loadable mains file
  mentioned : ∀ file ∈ program, w.Mentions mains file
  loaded : ∀ file ∈ program, ∃ deps, w.HasLoaded file deps ∧
    ∀ dep ∈ deps, Path.isJs dep = .ok false → Text.lower dep ∈ program.map Text.lower
  mains : ∀ main ∈ mains, Text.lower main ∈ program.map Text.lower

/-- A workspace from which a program can be loaded. -/
structure Ready (w : Workspace) : Prop where
  destination : w.destination = none
  recorded : w.Recorded
  seen : w.cache.Seen w.disk
  named : w.cache.Named w.project.dir
  distinct : w.cache.KeysDistinct

/-- Loading obeys its law, however it ends. -/
theorem loadProgram_law (mains : List String) {s : Session} (hs : Ready s.toWorkspace) :
    (loadingLaw mains).session.Allows s (loadProgram mains s) :=
  allows_loadProgram (A := Allowed mains)
    (fun s _ hfile => obeys_loadFile (loading_loadingLaw mains) hfile.2 s)
    (fun _ _ _ hm hfile => ⟨keeps_recorded hm hfile.1, hfile.2⟩)
    (fun _ _ _ _ _ => allowed_of_import) s fun _ hmain =>
      ⟨⟨hs.destination, hs.recorded⟩, .inl hmain⟩

theorem Visited.start {s : Session} (hs : Ready s.toWorkspace) :
    Visited mains s.toWorkspace s ⟨[], []⟩ [] :=
  ⟨Frame.Moves.refl hs.destination, hs.recorded, hs.seen, List.nodup_nil, List.nodup_nil,
    by simp, by simp, by simp, by simp, by simp, by simp, by simp, by simp⟩

/-- The entry files one after the other; nothing is open in between. -/
private theorem visits_mains {s : Session} (hs : Ready s.toWorkspace) {depth : Nat}
    (hdepth : fileBound mains s.toWorkspace ≤ depth) :
    ∀ (ms : List String) (l l' : Loaded) (t t' : Session), (∀ m ∈ ms, m ∈ mains) →
      Visited mains s.toWorkspace t l [] → ms.foldlM (visit depth) l t = .ok l' t' →
      Visited mains s.toWorkspace t' l' [] ∧ l.met <:+ l'.met ∧
        ∀ m ∈ ms, Text.lower m ∈ l'.met := by
  intro ms
  induction ms with
  | nil =>
    intro l l' t t' _ hv hrun
    obtain ⟨rfl, rfl⟩ := (pure_ok_iff _ _ _ _).mp hrun
    exact ⟨hv, List.suffix_refl _, fun _ hm => absurd hm (by simp)⟩
  | cons m ms ih =>
    intro l l' t t' hms hv hrun
    rw [List.foldlM_cons] at hrun
    obtain ⟨l₁, t₁, hone, hrun⟩ := (bind_ok_iff _ _ _ _ _).mp hrun
    have hmain := hms m List.mem_cons_self
    obtain ⟨hvisits, hmem⟩ := visit_ok hs.named hs.distinct _ [] l m t t₁ l₁ hv (.inl hmain)
      (.inl hmain) (by omega) hone
    obtain ⟨hv', hmet, hrest⟩ := ih l₁ l' t₁ t' (fun x hx => hms x (List.mem_cons_of_mem _ hx))
      hvisits.visited hrun
    refine ⟨hv', hvisits.met.trans hmet, fun x hx => ?_⟩
    rcases List.mem_cons.mp hx with rfl | hx
    · exact hmet.subset hmem
    · exact hrest x hx

/-- Loading a program in a number of steps down at most. -/
def loadWithin (depth : Nat) (mains : List String) : Step Session (List String) := do
  let l ← mains.foldlM (visit depth) ⟨[], []⟩
  changeMessages (·.retainFiles fun file => l.met.contains (Text.lower file))
  return l.program

/-- Any number of steps that is large enough will do. -/
theorem loadProgram_eq {s : Session} (hs : Ready s.toWorkspace) {depth : Nat}
    (hdepth : fileBound mains s.toWorkspace ≤ depth) :
    loadProgram mains s = loadWithin depth mains s := by
  have hall : ∀ (ms : List String) (l : Loaded) (t : Session), (∀ m ∈ ms, m ∈ mains) →
      Visited mains s.toWorkspace t l [] →
      ms.foldlM (visit (fileBound mains s.toWorkspace)) l t = ms.foldlM (visit depth) l t := by
    intro ms
    induction ms with
    | nil => exact fun _ _ _ _ => rfl
    | cons m ms ih =>
      intro l t hms hv
      have hmain := hms m List.mem_cons_self
      rw [List.foldlM_cons, List.foldlM_cons]
      refine bind_congr_at (visit_congr hs.named hs.distinct _ _ [] l m t hv (.inl hmain)
        (.inl hmain) (by omega) (by omega)) fun l₁ t₁ hone => ?_
      obtain ⟨hvisits, -⟩ := visit_ok hs.named hs.distinct _ [] l m t t₁ l₁ hv (.inl hmain)
        (.inl hmain) (by omega) hone
      exact ih l₁ t₁ (fun x hx => hms x (List.mem_cons_of_mem _ hx)) hvisits.visited
  exact bind_congr_at (hall mains _ s (fun _ h => h) (Visited.start hs)) fun _ _ _ => rfl

/-- Loading lists files that are loaded. They are a program, or a message says that some file could
not be read. -/
theorem loadProgram_ok {s s' : Session} {program : List String} (hs : Ready s.toWorkspace)
    (h : loadProgram mains s = .ok program s') :
    Advanced mains s s' ∧ s.Keeps s' ∧ s'.cache.Seen s'.disk ∧
      (program.map Text.lower).Nodup ∧ (∀ file ∈ program, Loadable mains file) ∧
      (∀ file ∈ program, ∃ deps, s'.toWorkspace.HasLoaded file deps) ∧
      ((∃ file, missingSource file ∈ s'.messages.toList) ∨
        IsProgram mains s'.toWorkspace program) := by
  have hlaw := loadProgram_law mains hs
  rw [h] at hlaw
  have hadvanced := Advanced.of_law hlaw hs.destination
  refine ⟨hadvanced, hlaw.2, hadvanced.moves.seen_of_loads hs.seen, ?_⟩
  unfold loadProgram at h
  obtain ⟨t, s₁, hget, h⟩ := (bind_ok_iff _ _ _ _ _).mp h
  obtain ⟨rfl, rfl⟩ := (get_ok_iff _ _ _).mp hget
  obtain ⟨l, s₁, hfold, h⟩ := (bind_ok_iff _ _ _ _ _).mp h
  obtain ⟨u, s₂, hretain, h⟩ := (bind_ok_iff _ _ _ _ _).mp h
  obtain ⟨rfl, rfl⟩ := (pure_ok_iff _ _ _ _).mp h
  have hs₂ := (modify_ok_iff _ _ _ _).mp hretain
  obtain ⟨hv, -, hmains⟩ := visits_mains hs (Nat.le_refl _) mains ⟨[], []⟩ l s s₁ (fun _ h => h)
    (Visited.start hs) hfold
  have hsame : s₂.toWorkspace = s₁.toWorkspace := by rw [← hs₂]
  have hmessages : s₂.messages
      = s₁.messages.retainFiles fun file => l.met.contains (Text.lower file) := by rw [← hs₂]
  rw [hsame]
  refine ⟨hv.listed, hv.loadable, fun file hfile => ?_, ?_⟩
  · obtain ⟨deps, hl, -⟩ := hv.loaded file hfile
    exact ⟨deps, hl⟩
  · by_cases hmissing : ∃ m ∈ l.met, ∃ file, Text.lower file = m ∧
        missingSource file ∈ s₁.messages.toList
    · obtain ⟨m, hm, file, hlower, hmem⟩ := hmissing
      left
      refine ⟨file, ?_⟩
      rw [hmessages]
      refine Messages.mem_retainFiles.mpr ⟨hmem, ?_⟩
      change l.met.contains (Text.lower file) = true
      rw [hlower]
      simpa using hm
    · right
      have hlisted : ∀ m ∈ l.met, m ∈ l.program.map Text.lower := by
        intro m hm
        rcases hv.outcome m hm with hopened | hlisted | hfile
        · exact absurd hopened (by simp)
        · exact hlisted
        · exact absurd ⟨m, hm, hfile⟩ hmissing
      refine ⟨hv.listed, hv.loadable, hv.mentioned, fun file hfile => ?_, fun main hmain => ?_⟩
      · obtain ⟨deps, hl, hdeps⟩ := hv.loaded file hfile
        exact ⟨deps, hl, fun dep hdep hjs => hlisted _ (hdeps dep hdep hjs)⟩
      · exact hlisted _ (hmains main hmain)

end Session

end Bundler

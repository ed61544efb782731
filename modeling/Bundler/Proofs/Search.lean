/-
What the search for imports finds.

A file that was found has an entry, and it was there when it was looked at. Its name ends in one of
the four extensions that are tried, and if it is a script it was noted as one to be taken over.
This is said of a search first (`Workspace.Located`), and then of all references that were ever
recorded (`Workspace.Recorded`): the files that an entry imports have entries, which is what a
freshness pass needs, and as long as the references are not forgotten the scripts among them are
noted, which is what delivering needs. Every step of loading keeps it, so it holds of every
workspace that a build comes to.
-/
import Bundler.Proofs.Entries
import Bundler.Proofs.Names

set_option autoImplicit false

namespace Bundler

open Workspace Step

/-! ## Files that were found -/

/-- A file that an import was found in. -/
structure Workspace.Located (w : Workspace) (file : String) : Prop where
  named : Path.IsSourceName file ∨
    (Path.IsScriptName file ∧ file ∈ w.project.depJs.keys)
  there : ∃ id, w.cache.find? w.project.dir file = some id ∧ (w.cache.entry id).found = true

/-- The references of all entries were gathered of imports that were found. -/
structure Workspace.Recorded (w : Workspace) : Prop where
  named : ∀ i, i < w.cache.entries.length → ∀ refs, (w.cache.entry i).references = some refs →
    ∀ file ∈ refs.files, Path.IsSourceName file ∨ Path.IsScriptName file
  known : w.cache.ImportsKnown w.project.dir
  /-- Scripts are noted, unless all references were forgotten. -/
  taken : ∀ i, i < w.cache.entries.length → ∀ refs, (w.cache.entry i).references = some refs →
    (w.cache.entry i).infoTime.isSet = true → ∀ file ∈ refs.files, Path.IsScriptName file →
    file ∈ w.project.depJs.keys

namespace ModuleSearch

variable {w w' : Workspace}

/-- A file that was there stays where it is. -/
private theorem there_mono (h : Frame.reading.Moves w w') {name : String}
    (hthere : ∃ id, w.cache.find? w.project.dir name = some id ∧
      (w.cache.entry id).found = true) :
    ∃ id, w'.cache.find? w'.project.dir name = some id ∧ (w'.cache.entry id).found = true := by
  obtain ⟨id, hfind, hfound⟩ := hthere
  refine ⟨id, by rw [h.dir]; exact h.cache.find? hfind, ?_⟩
  have hread : Entry.Read w.surroundings (w.cache.entry id) (w'.cache.entry id) :=
    h.cache.old id (Cache.find?_some hfind).1
  have hset : (w.cache.entry id).current.isSet = true := by
    unfold Entry.found at hfound
    cases hcur : (w.cache.entry id).current with
    | unset =>
      rw [hcur] at hfound
      exact absurd hfound (by simp [Stamp.time?])
    | missing => rfl
    | «at» t => rfl
  unfold Entry.found at hfound ⊢
  rw [hread.seen hset]
  exact hfound

theorem Located.mono (h : Frame.reading.Moves w w') {file : String} (hl : w.Located file) :
    w'.Located file :=
  ⟨hl.named.imp_right fun ⟨hname, hkeys⟩ => ⟨hname, h.project.depJs _ hkeys⟩,
    there_mono h hl.there⟩

theorem exists?_ok {name : String} {b : Bool} (h : exists? name w = .ok b w') (hb : b = true) :
    ∃ id, w'.cache.find? w'.project.dir name = some id ∧ (w'.cache.entry id).found = true := by
  unfold exists? at h
  obtain ⟨id, v, hid, h⟩ := (bind_ok_iff _ _ _ _ _).mp h
  obtain ⟨e, v', he, h⟩ := (bind_ok_iff _ _ _ _ _).mp h
  obtain ⟨rfl, rfl⟩ := (entry_ok_iff _ _ _ _).mp he
  obtain ⟨hfound, rfl⟩ := (pure_ok_iff _ _ _ _).mp h
  obtain ⟨hanswer, rfl⟩ := (onCache_ok_iff _ _ _ _).mp hid
  refine ⟨id, ?_, hfound.trans hb⟩
  rw [← hanswer]
  exact Cache.find?_existence w.disk w.project.dir name w.cache

/-- Noting a module concerns the project alone. -/
private theorem changeProject_ok {f : Project → Project} {u : Unit}
    (h : changeProject f w = .ok u w') :
    w'.cache = w.cache ∧ w'.project = f w.project ∧ w'.destination = w.destination := by
  rw [← (modify_ok_iff _ _ _ _).mp h]
  exact ⟨rfl, rfl, rfl⟩

theorem findSource_ok {key base js : String} {relative : Bool} {m : FoundModule} :
    ∀ {exts : List String} {w w' : Workspace},
      findSource key base js relative exts w = .ok (some m) w' →
      (∃ ext ∈ exts, m.file = base ++ ext) ∧
        ∃ id, w'.cache.find? w'.project.dir m.file = some id ∧ (w'.cache.entry id).found = true
  | [], w, w', h => by
    obtain ⟨hnone, -⟩ := (pure_ok_iff _ _ _ _).mp h
    exact absurd hnone (by simp)
  | ext :: exts, w, w', h => by
    unfold findSource at h
    obtain ⟨b, v, hb, h⟩ := (bind_ok_iff _ _ _ _ _).mp h
    cases b with
    | true =>
      obtain ⟨u, v', hrecord, h⟩ := (bind_ok_iff _ _ _ _ _).mp h
      obtain ⟨hm, rfl⟩ := (pure_ok_iff _ _ _ _).mp h
      obtain ⟨hcache, hproject, -⟩ := changeProject_ok hrecord
      obtain rfl := Option.some.inj hm
      refine ⟨⟨ext, List.mem_cons_self, rfl⟩, ?_⟩
      rw [hcache, hproject]
      exact exists?_ok hb rfl
    | false =>
      obtain ⟨⟨ext', hmem, hname⟩, hthere⟩ := findSource_ok h
      exact ⟨⟨ext', List.mem_cons_of_mem _ hmem, hname⟩, hthere⟩

/-- A script that is taken over is noted. -/
private theorem recordTakenOver_ok {key base definition js : String} {relative : Bool}
    {m : FoundModule} (h : recordTakenOver key base definition js relative w = .ok m w') :
    m.file = definition ∧ js ∈ w'.project.depJs.keys ∧ w'.cache = w.cache ∧
      w'.project.dir = w.project.dir := by
  unfold recordTakenOver at h
  obtain ⟨u, v, hadd, h⟩ := (bind_ok_iff _ _ _ _ _).mp h
  obtain ⟨u', v', hrecord, h⟩ := (bind_ok_iff _ _ _ _ _).mp h
  obtain ⟨hm, rfl⟩ := (pure_ok_iff _ _ _ _).mp h
  obtain ⟨hcache, hproject, -⟩ := changeProject_ok hadd
  obtain ⟨hcache', hproject', -⟩ := changeProject_ok hrecord
  refine ⟨by rw [← hm], ?_, hcache'.trans hcache, ?_⟩
  · rw [hproject', hproject]
    exact (mem_keys_insert _ _ _ _).mpr (.inl rfl)
  · rw [hproject', hproject]
    rfl

/-- What is found under a base name is located. -/
theorem findAt_ok {key base : String} {relative : Bool} {m : FoundModule}
    (hdest : w.destination = none) (h : findAt key base relative w = .ok (some m) w') :
    w'.Located m.file := by
  have hjs : ∀ {v v' : Workspace}, v.destination = none → (do
      if ← exists? (base ++ ".js") then
        return some (← recordTakenOver key base (base ++ ".js") (base ++ ".js") relative)
      return none : Step Workspace (Option FoundModule)) v = .ok (some m) v' →
      v'.Located m.file := by
    intro v v' hv hrun
    obtain ⟨b, v₁, hb, hrun⟩ := (bind_ok_iff _ _ _ _ _).mp hrun
    cases b with
    | false =>
      obtain ⟨hnone, -⟩ := (pure_ok_iff _ _ _ _).mp hrun
      exact absurd hnone (by simp)
    | true =>
      obtain ⟨m', v₂, htaken, hrun⟩ := (bind_ok_iff _ _ _ _ _).mp hrun
      obtain ⟨hm, rfl⟩ := (pure_ok_iff _ _ _ _).mp hrun
      obtain ⟨hfile, hkeys, hcache, hdir⟩ := recordTakenOver_ok htaken
      rw [← Option.some.inj hm, hfile]
      refine ⟨.inr ⟨⟨base, rfl⟩, hkeys⟩, ?_⟩
      rw [hcache, hdir]
      exact exists?_ok hb rfl
  unfold findAt at h
  obtain ⟨found, v, hsource, h⟩ := (bind_ok_iff _ _ _ _ _).mp h
  have hv : v.destination = none := (Frame.moves_of_obeys
    (obeys_findSource Frame.looking_reading _ _ _ _ _) hdest hsource).destination
  cases found with
  | some m' =>
    obtain ⟨hm, rfl⟩ := (pure_ok_iff _ _ _ _).mp h
    obtain rfl := Option.some.inj hm
    obtain ⟨⟨ext, hext, hname⟩, hthere⟩ := findSource_ok hsource
    refine ⟨.inl ⟨base, ?_⟩, hthere⟩
    rcases List.mem_cons.mp hext with rfl | hext
    · exact .inl hname
    · obtain rfl := List.mem_singleton.mp hext
      exact .inr (.inl hname)
  | none =>
    obtain ⟨b, v₁, hdecl, h⟩ := (bind_ok_iff _ _ _ _ _).mp h
    have hv₁ : v₁.destination = none := (Frame.moves_of_obeys
      (obeys_exists? Frame.looking_reading _) hv hdecl).destination
    cases b with
    | false => exact hjs hv₁ h
    | true =>
      obtain ⟨b, v₂, hscript, h⟩ := (bind_ok_iff _ _ _ _ _).mp h
      have hmoves : Frame.reading.Moves v₁ v₂ :=
        Frame.moves_of_obeys (obeys_exists? Frame.looking_reading _) hv₁ hscript
      cases b with
      | false => exact hjs hmoves.destination h
      | true =>
        obtain ⟨m', v₃, htaken, h⟩ := (bind_ok_iff _ _ _ _ _).mp h
        obtain ⟨hm, rfl⟩ := (pure_ok_iff _ _ _ _).mp h
        obtain ⟨hfile, -, hcache, hdir⟩ := recordTakenOver_ok htaken
        rw [← Option.some.inj hm, hfile]
        refine ⟨.inl ⟨base, .inr (.inr rfl)⟩, ?_⟩
        rw [hcache, hdir]
        exact there_mono hmoves (exists?_ok hdecl rfl)

theorem findIn_ok {specifier : String} {m : FoundModule} :
    ∀ {dirs : List String} {w w' : Workspace}, w.destination = none →
      findIn specifier dirs w = .ok (some m) w' → w'.Located m.file
  | [], w, w', _, h => by
    obtain ⟨hnone, -⟩ := (pure_ok_iff _ _ _ _).mp h
    exact absurd hnone (by simp)
  | dir :: dirs, w, w', hdest, h => by
    unfold findIn at h
    obtain ⟨found, v, hat, h⟩ := (bind_ok_iff _ _ _ _ _).mp h
    cases found with
    | some m' =>
      obtain ⟨hm, rfl⟩ := (pure_ok_iff _ _ _ _).mp h
      obtain rfl := Option.some.inj hm
      exact findAt_ok hdest hat
    | none =>
      have hv : v.destination = none := (Frame.moves_of_obeys
        (obeys_findAt Frame.looking_reading _ _ _) hdest hat).destination
      exact findIn_ok hv h

private theorem orSay_ok {specifier file : String} {found answer : Option FoundModule}
    (h : orSay specifier file found w = .ok answer w') :
    answer = found ∧ (found.isSome = true → w' = w) := by
  unfold orSay at h
  cases found with
  | none =>
    obtain ⟨u, v, -, h⟩ := (bind_ok_iff _ _ _ _ _).mp h
    obtain ⟨rfl, -⟩ := (pure_ok_iff _ _ _ _).mp h
    exact ⟨rfl, fun h => absurd h (by simp)⟩
  | some m =>
    obtain ⟨rfl, rfl⟩ := (pure_ok_iff _ _ _ _).mp h
    exact ⟨rfl, fun _ => rfl⟩

private theorem findAt_orSay_ok {key base specifier file : String} {relative : Bool}
    {m : FoundModule} (hdest : w.destination = none)
    (h : (do orSay specifier file (← findAt key base relative) :
      Step Workspace (Option FoundModule)) w = .ok (some m) w') : w'.Located m.file := by
  obtain ⟨found, v, hat, h⟩ := (bind_ok_iff _ _ _ _ _).mp h
  obtain ⟨rfl, hsame⟩ := orSay_ok h
  rw [hsame rfl]
  exact findAt_ok hdest hat

theorem findRelative_ok {specifier file : String} {m : FoundModule}
    (hdest : w.destination = none) (h : findRelative specifier file w = .ok (some m) w') :
    w'.Located m.file := by
  unfold findRelative at h
  split at h
  · obtain ⟨u, v, hsay, h⟩ := (bind_ok_iff _ _ _ _ _).mp h
    exact findAt_orSay_ok ((changeProject_ok hsay).2.2.trans hdest) h
  · exact findAt_orSay_ok hdest h

theorem findPackage_ok {specifier file : String} {m : FoundModule}
    (hdest : w.destination = none) (h : findPackage specifier file w = .ok (some m) w') :
    w'.Located m.file := by
  unfold findPackage at h
  obtain ⟨id, v, hcontent, h⟩ := (bind_ok_iff _ _ _ _ _).mp h
  have hv : v.destination = none := (Frame.moves_of_obeys
    (obeys_content Frame.looking_reading _) hdest hcontent).destination
  obtain ⟨e, v', he, h⟩ := (bind_ok_iff _ _ _ _ _).mp h
  obtain ⟨-, rfl⟩ := (entry_ok_iff _ _ _ _).mp he
  cases htext : e.text? with
  | none =>
    rw [htext] at h
    obtain ⟨hnone, -⟩ := (pure_ok_iff _ _ _ _).mp h
    exact absurd hnone (by simp)
  | some text =>
    rw [htext] at h
    simp only at h
    cases hpackage : readPackage text with
    | error e =>
      rw [hpackage] at h
      obtain ⟨u, v', -, h⟩ := (bind_ok_iff _ _ _ _ _).mp h
      obtain ⟨hnone, -⟩ := (pure_ok_iff _ _ _ _).mp h
      exact absurd hnone (by simp)
    | ok main =>
      rw [hpackage] at h
      exact findAt_orSay_ok hv h

/-- What an import is found in is located. -/
theorem find_ok {specifier file : String} {m : FoundModule} (hdest : w.destination = none)
    (h : find specifier file w = .ok (some m) w') : w'.Located m.file := by
  unfold find at h
  split at h
  · exact findRelative_ok hdest h
  · obtain ⟨found, v, hin, h⟩ := (bind_ok_iff _ _ _ _ _).mp h
    cases found with
    | some m' =>
      obtain ⟨hm, rfl⟩ := (pure_ok_iff _ _ _ _).mp h
      obtain rfl := Option.some.inj hm
      exact findIn_ok hdest hin
    | none =>
      have hv : v.destination = none := (Frame.moves_of_obeys
        (obeys_findIn Frame.looking_reading _ _) hdest hin).destination
      exact findPackage_ok hv h

end ModuleSearch

/-- All imports that are found are located when the search is over. -/
theorem Session.findImports_ok {file : String} :
    ∀ {specifiers : List String} {deps : List (String × String)} {w w' : Workspace},
      w.destination = none → findImports file specifiers w = .ok deps w' →
      ∀ d ∈ deps, w'.Located d.2
  | [], deps, w, w', _, h => by
    obtain ⟨rfl, -⟩ := (pure_ok_iff _ _ _ _).mp h
    simp
  | specifier :: rest, deps, w, w', hdest, h => by
    obtain ⟨found, w₁, hfound, h⟩ := (bind_ok_iff _ _ _ _ _).mp h
    obtain ⟨others, w₂, hothers, h⟩ := (bind_ok_iff _ _ _ _ _).mp h
    have hw₁ := (Frame.moves_of_obeys
      (ModuleSearch.obeys_find Frame.looking_reading _ _) hdest hfound).destination
    have hmoves := Frame.moves_of_obeys
      (obeys_findImports Frame.looking_reading _ _) hw₁ hothers
    have ih := findImports_ok hw₁ hothers
    cases found with
    | none =>
      obtain ⟨rfl, rfl⟩ := (pure_ok_iff _ _ _ _).mp h
      exact ih
    | some m =>
      obtain ⟨rfl, rfl⟩ := (pure_ok_iff _ _ _ _).mp h
      intro d hd
      rcases List.mem_cons.mp hd with rfl | hd
      · exact ModuleSearch.Located.mono hmoves (ModuleSearch.find_ok hdest hfound)
      · exact ih d hd

theorem References.sourceDeps_gather {s : Script} {deps : List (String × String)}
    {resolve : String → Except Fault String} {refs : References}
    (h : References.gather s deps resolve = .ok refs) : refs.sourceDeps = deps := by
  unfold References.gather at h
  cases hsites : References.sitesFrom resolve 0 s.calls with
  | error f =>
    rw [hsites] at h
    exact absurd h (by simp [bind, Except.bind])
  | ok sites =>
    rw [hsites] at h
    simp only [bind, Except.bind, pure, Except.pure, Except.ok.injEq] at h
    rw [← h]

/-! ## References that were recorded -/

/-- The references of all entries are of files that an import can be found in, and these have
entries. -/
structure Workspace.Sourced (w : Workspace) : Prop where
  named : ∀ i, i < w.cache.entries.length → ∀ refs, (w.cache.entry i).references = some refs →
    ∀ file ∈ refs.files, Path.IsSourceName file ∨ Path.IsScriptName file
  known : w.cache.ImportsKnown w.project.dir

theorem Workspace.Recorded.sourced {w : Workspace} (h : w.Recorded) : w.Sourced :=
  ⟨h.named, h.known⟩

namespace Workspace.Sourced

variable {w w' : Workspace}

/-- Entries stay, and references that are new are of imports that were found. -/
theorem of_references (hr : w.Sourced)
    (hfind : ∀ name j, w.cache.find? w.project.dir name = some j →
      ∃ j', w'.cache.find? w'.project.dir name = some j')
    (hrefs : ∀ i, i < w'.cache.entries.length → ∀ refs, (w'.cache.entry i).references = some refs →
      (i < w.cache.entries.length ∧ (w.cache.entry i).references = some refs) ∨
        ∀ file ∈ refs.files, w.Located file) : w'.Sourced where
  named i hi refs h file hfile := by
    rcases hrefs i hi refs h with ⟨hlt, hold⟩ | hlocated
    · exact hr.named i hlt refs hold file hfile
    · exact (hlocated file hfile).named.imp_right And.left
  known i hi refs h file hfile := by
    rcases hrefs i hi refs h with ⟨hlt, hold⟩ | hlocated
    · obtain ⟨j, hj⟩ := hr.known i hlt refs hold file hfile
      exact hfind file j hj
    · obtain ⟨j, hj, -⟩ := (hlocated file hfile).there
      exact hfind file j hj

/-- References that the entries of an advanced cache have were there before. -/
theorem references_of_advances {dir : String} {P : Entry → Entry → Prop} {c c' : Cache}
    (hcache : Cache.Advances dir P c c') (hP : ∀ e e', P e e' → e'.references = e.references)
    {i : Nat} (hi : i < c'.entries.length) {refs : References}
    (hrefs : (c'.entry i).references = some refs) :
    i < c.entries.length ∧ (c.entry i).references = some refs := by
  by_cases hlt : i < c.entries.length
  · exact ⟨hlt, by rw [← hP _ _ (hcache.old i hlt), hrefs]⟩
  · obtain ⟨name, hnew⟩ := hcache.new i (by omega) hi
    rw [hP _ _ hnew] at hrefs
    exact absurd hrefs (by simp [Entry.blank])

theorem of_advances {P : Entry → Entry → Prop} (hr : w.Sourced)
    (hcache : Cache.Advances w.project.dir P w.cache w'.cache)
    (hP : ∀ e e', P e e' → e'.references = e.references) (hdir : w'.project.dir = w.project.dir) :
    w'.Sourced :=
  hr.of_references (fun _ j hj => ⟨j, by rw [hdir]; exact hcache.find? hj⟩)
    fun _ hi _ hrefs => .inl (references_of_advances hcache hP hi hrefs)

/-- References of imports that were found are sourced. -/
theorem of_gathered (hr : w.Sourced) {id : Nat} {refs : References}
    (hlocated : ∀ file ∈ refs.files, w.Located file) :
    (w.changed id fun e => { e with references := some refs, infoTime := e.current }).Sourced := by
  refine hr.of_references (fun name j hj => ⟨j, ?_⟩) fun i hi refs' hrefs => ?_
  · have hkeys : (w.cache.modify id fun e =>
        { e with references := some refs, infoTime := e.current }).keys = w.cache.keys :=
      Cache.keys_modify fun _ => rfl
    change (w.cache.modify id _).find? w.project.dir name = some j
    rw [Cache.find?_eq_keys, hkeys, ← Cache.find?_eq_keys]
    exact hj
  · change i < (w.cache.modify id _).entries.length at hi
    change ((w.cache.modify id _).entry i).references = some refs' at hrefs
    rw [Cache.length_modify] at hi
    rw [Cache.entry_modify _ hi] at hrefs
    by_cases hid : id = i
    · rw [if_pos hid] at hrefs
      obtain rfl := Option.some.inj hrefs
      exact .inr hlocated
    · rw [if_neg hid] at hrefs
      exact .inl ⟨hi, hrefs⟩

/-- The law that references stay sourced, where the output does not go to the disk. -/
def law : Law Workspace where
  moves w w' := w'.project.config = w.project.config ∧ w'.project.dir = w.project.dir ∧
    w'.destination = w.destination ∧ (w.destination = none → w.Sourced → w'.Sourced)
  fails _ _ := True
  refl _ := ⟨rfl, rfl, rfl, fun _ h => h⟩
  trans h h' := ⟨h'.1.trans h.1, h'.2.1.trans h.2.1, h'.2.2.1.trans h.2.2.1,
    fun hdest hr => h'.2.2.2 (h.2.2.1.trans hdest) (h.2.2.2 hdest hr)⟩
  back _ _ := trivial
  fault _ _ := trivial

/-- A frame in which entries keep their references. -/
theorem moves_of_frame (F : Frame) (hF : ∀ s e e', F.entry s e e' → e'.references = e.references)
    (h : F.law.moves w w') : law.moves w w' :=
  ⟨h.1, h.2.1, h.2.2.1, fun hdest hr =>
    have hm := Frame.moves_of_law h hdest
    hr.of_advances hm.cache (hF w.surroundings) hm.dir⟩

private theorem moves_of_reading (h : Frame.reading.law.moves w w') : law.moves w w' :=
  moves_of_frame Frame.reading (fun _ _ _ h => Entry.Read.references h) h

theorem looking : Looking law where
  config h := h.1
  dir h := h.2.1
  enter w phase := moves_of_reading (Frame.looking_reading.enter w phase)
  get w name := moves_of_reading (Frame.looking_reading.get w name)
  look w id := moves_of_reading (Frame.looking_reading.look w id)
  text w id := moves_of_reading (Frame.looking_reading.text w id)
  buffer w id := moves_of_reading (Frame.looking_reading.buffer w id)
  quiet w p hq := moves_of_reading (Frame.looking_reading.quiet w p hq)

theorem loading (N : String → Prop) : Loading law N where
  toLooking := looking
  script w id file sc ds _ _ _ _ _ := by
    refine ⟨rfl, rfl, rfl, fun _ hr => ?_⟩
    have hcache : Cache.Advances w.project.dir (fun e e' => e'.references = e.references) w.cache
        (w.cache.modify id fun e =>
          { e with script := some sc, diagnostics := ds, sourceTime := e.textTime }) :=
      Cache.Advances.modify (P := fun e e' => e'.references = e.references) (fun _ => rfl)
        (fun _ => rfl) fun _ => rfl
    exact hr.of_advances hcache (fun _ _ h => h) rfl
  refs w id file _ _ _ := by
    refine Session.allows_refreshReferences looking fun deps v script refs _ hdeps _ hgather hm => ?_
    refine law.trans hm ⟨rfl, rfl, rfl, fun hdest hr => hr.of_gathered fun name hname => ?_⟩
    have hw : w.destination = none := hm.2.2.1.symm.trans hdest
    unfold References.files at hname
    rw [References.sourceDeps_gather hgather] at hname
    obtain ⟨d, hd, rfl⟩ := List.mem_map.mp hname
    exact Session.findImports_ok hw hdeps d hd

end Workspace.Sourced

namespace Workspace.Recorded

variable {w w' : Workspace}

/-- References stay recorded where entries keep them and scripts stay noted. -/
theorem of_advances {P : Entry → Entry → Prop} (hr : w.Recorded)
    (hcache : Cache.Advances w.project.dir P w.cache w'.cache)
    (hP : ∀ e e', P e e' → e'.references = e.references ∧ e'.infoTime = e.infoTime)
    (hdir : w'.project.dir = w.project.dir)
    (hdepJs : ∀ k ∈ w.project.depJs.keys, k ∈ w'.project.depJs.keys) : w'.Recorded := by
  have hsourced := hr.sourced.of_advances hcache (fun _ _ h => (hP _ _ h).1) hdir
  refine ⟨hsourced.named, hsourced.known, fun i hi refs hrefs hset file hfile hscript => ?_⟩
  obtain ⟨hlt, hrefs'⟩ :=
    Sourced.references_of_advances hcache (fun _ _ h => (hP _ _ h).1) hi hrefs
  rw [(hP _ _ (hcache.old i hlt)).2] at hset
  exact hdepJs _ (hr.taken i hlt refs hrefs' hset file hfile hscript)

theorem of_reading (hr : w.Recorded) (h : Frame.reading.Moves w w') : w'.Recorded :=
  hr.of_advances h.cache (fun _ _ hread => ⟨hread.references, hread.infoTime⟩) h.dir h.project.depJs

/-- The law that references stay recorded, where the output does not go to the disk. -/
def law : Law Workspace where
  moves w w' := w'.project.config = w.project.config ∧ w'.project.dir = w.project.dir ∧
    w'.destination = w.destination ∧ (w.destination = none → w.Recorded → w'.Recorded)
  fails _ _ := True
  refl _ := ⟨rfl, rfl, rfl, fun _ h => h⟩
  trans h h' := ⟨h'.1.trans h.1, h'.2.1.trans h.2.1, h'.2.2.1.trans h.2.2.1,
    fun hdest hr => h'.2.2.2 (h.2.2.1.trans hdest) (h.2.2.2 hdest hr)⟩
  back _ _ := trivial
  fault _ _ := trivial

private theorem moves_of_reading (h : Frame.reading.law.moves w w') : law.moves w w' :=
  ⟨h.1, h.2.1, h.2.2.1, fun hdest hr => hr.of_reading (Frame.moves_of_law h hdest)⟩

theorem looking : Looking law where
  config h := h.1
  dir h := h.2.1
  enter w phase := moves_of_reading (Frame.looking_reading.enter w phase)
  get w name := moves_of_reading (Frame.looking_reading.get w name)
  look w id := moves_of_reading (Frame.looking_reading.look w id)
  text w id := moves_of_reading (Frame.looking_reading.text w id)
  buffer w id := moves_of_reading (Frame.looking_reading.buffer w id)
  quiet w p hq := moves_of_reading (Frame.looking_reading.quiet w p hq)

/-- References of imports that were found are recorded ones. -/
private theorem of_gathered (hr : w.Recorded) {id : Nat} {refs : References}
    (hlocated : ∀ file ∈ refs.files, w.Located file) :
    (w.changed id fun e => { e with references := some refs, infoTime := e.current }).Recorded := by
  have hsourced : (w.changed id fun e =>
      { e with references := some refs, infoTime := e.current }).Sourced :=
    hr.sourced.of_gathered hlocated
  refine ⟨hsourced.named, hsourced.known, fun i hi refs' hrefs hset file hfile hscript => ?_⟩
  change i < (w.cache.modify id _).entries.length at hi
  change ((w.cache.modify id _).entry i).infoTime.isSet = true at hset
  change ((w.cache.modify id _).entry i).references = some refs' at hrefs
  rw [Cache.length_modify] at hi
  rw [Cache.entry_modify _ hi] at hrefs hset
  by_cases hid : id = i
  · rw [if_pos hid] at hrefs
    obtain rfl := Option.some.inj hrefs
    rcases (hlocated file hfile).named with hsource | ⟨-, hkey⟩
    · -- no name is that of a source file and of a script
      have hne : Cache.keyOf w.project.dir file ≠ Cache.keyOf w.project.dir file :=
        Path.keyOf_ne_of_isSourceName hsource hscript
      exact absurd rfl hne
    · exact hkey
  · rw [if_neg hid] at hrefs hset
    exact hr.taken i hi refs' hrefs hset file hfile hscript

theorem loading (N : String → Prop) : Loading law N where
  toLooking := looking
  script w id file sc ds _ _ _ _ _ := by
    refine ⟨rfl, rfl, rfl, fun _ hr => ?_⟩
    have hcache : Cache.Advances w.project.dir
        (fun e e' => e'.references = e.references ∧ e'.infoTime = e.infoTime) w.cache
        (w.cache.modify id fun e =>
          { e with script := some sc, diagnostics := ds, sourceTime := e.textTime }) :=
      Cache.Advances.modify (fun _ => ⟨rfl, rfl⟩) (fun _ => rfl) fun _ => ⟨rfl, rfl⟩
    exact hr.of_advances hcache (fun _ _ h => h) rfl fun _ h => h
  refs w id file _ _ _ := by
    refine Session.allows_refreshReferences looking fun deps v script refs _ hdeps _ hgather hm => ?_
    refine law.trans hm ⟨rfl, rfl, rfl, fun hdest hr => hr.of_gathered fun name hname => ?_⟩
    have hw : w.destination = none := hm.2.2.1.symm.trans hdest
    unfold References.files at hname
    rw [References.sourceDeps_gather hgather] at hname
    obtain ⟨d, hd, rfl⟩ := List.mem_map.mp hname
    exact Session.findImports_ok hw hdeps d hd

end Workspace.Recorded

end Bundler

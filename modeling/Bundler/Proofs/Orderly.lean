/-
What holds of a session whatever is done to it.

The frames say what a build does where its output does not go to the disk. Most changes do not depend on
that: only writing does. So each frame has a law that holds wherever the output goes
(`Frame.still`), of everything but writing.

A session may be used in any way: the disk may become any other one between two cycles, whether it is
looked at again or not, the settings may change, and cycles may end early (`Session.Possible`). Its
entries are orderly all along (`Workspace.Orderly`): each has the name by which its file was met, no two
have one key, and the imports that are recorded have the names in which modules are found.
-/
import Bundler.Proofs.EarlyEnds
import Bundler.Proofs.Loading
import Bundler.Proofs.Overall

set_option autoImplicit false

namespace Bundler

open Workspace Step

/-! ## Loading wherever the output goes -/

/-- Loading does to entries what it does where there is no destination. -/
theorem Frame.loading_still (N : String → Prop) : Bundler.Loading (loads N).still N where
  toLooking := looking_still loading_loads.toLooking
  script w id file sc ds hN hfind htext hout hread :=
    ⟨rfl, loading_loads.script w.aside id file sc ds hN hfind htext hout hread⟩
  refs w id file hN hfind hsource := by
    refine Session.allows_refreshReferences (looking_still loading_loads.toLooking)
      fun deps v script refs hout hdeps hscript hgather hm => (loads N).still.trans hm ⟨rfl, ?_⟩
    have hgathering : Gathering N v.surroundings (v.cache.entry id) file script deps refs :=
      .of_findImports hN hfind hsource hout hdeps hscript hgather
    exact moves_modify (loads N) v.aside id (fun _ => rfl) fun _ => .single (.references hgathering)

/-! ## Orderly entries -/

/-- The entries have the names by which their files were met, different keys, and imports with names in
which modules are found. -/
structure Workspace.Orderly (w : Workspace) : Prop where
  named : w.cache.Named w.project.dir
  distinct : w.cache.KeysDistinct
  imports : ∀ i, i < w.cache.entries.length → ∀ refs, (w.cache.entry i).references = some refs →
    ∀ file ∈ refs.files, Path.IsModuleName file

/-- What an entry has to keep for the entries to stay orderly. -/
structure Entry.Keeps (e e' : Entry) : Prop where
  fullName : e'.fullName = e.fullName
  key : e'.key = e.key
  references : e'.references = e.references

namespace Workspace.Orderly

variable {w w' : Workspace}

theorem of_advances {P : Entry → Entry → Prop} (hw : w.Orderly)
    (hcache : Cache.Advances w.project.dir P w.cache w'.cache) (hP : ∀ e e', P e e' → e.Keeps e')
    (hdir : w'.project.dir = w.project.dir) : w'.Orderly where
  named := by
    rw [hdir]
    exact hcache.named (fun e e' h => ⟨(hP e e' h).fullName, (hP e e' h).key⟩) hw.named
  distinct := hcache.distinct hw.distinct
  imports i hi refs hrefs := by
    obtain ⟨hlt, hold⟩ :=
      Sourced.references_of_advances hcache (fun e e' h => (hP e e' h).references) hi hrefs
    exact hw.imports i hlt refs hold

/-- References that are recorded of imports that were found are in order. -/
theorem of_gathered (hw : w.Orderly) {id : Nat} {refs : References}
    (hnames : ∀ file ∈ refs.files, Path.IsModuleName file) :
    (w.changed id fun e => { e with references := some refs, infoTime := e.current }).Orderly := by
  have hadvances : Cache.Advances w.project.dir
      (fun e e' => e'.fullName = e.fullName ∧ e'.key = e.key) w.cache
      (w.cache.modify id fun e => { e with references := some refs, infoTime := e.current }) :=
    Cache.Advances.modify (fun _ => ⟨rfl, rfl⟩) (fun _ => rfl) fun _ => ⟨rfl, rfl⟩
  refine ⟨hadvances.named (fun _ _ h => h) hw.named, hadvances.distinct hw.distinct,
    fun i hi refs' hrefs => ?_⟩
  change i < (w.cache.modify id _).entries.length at hi
  change ((w.cache.modify id _).entry i).references = some refs' at hrefs
  rw [Cache.length_modify] at hi
  rw [Cache.entry_modify _ hi] at hrefs
  split at hrefs
  · obtain rfl := Option.some.inj hrefs
    exact hnames
  · exact hw.imports i hi refs' hrefs

/-- The law that entries stay orderly. -/
def law : Law Workspace where
  moves w w' := w'.project.config = w.project.config ∧ w'.project.dir = w.project.dir ∧
    (w.Orderly → w'.Orderly)
  fails _ _ := True
  refl _ := ⟨rfl, rfl, fun h => h⟩
  trans h h' := ⟨h'.1.trans h.1, h'.2.1.trans h.2.1, fun hw => h'.2.2 (h.2.2 hw)⟩
  back _ _ := trivial
  fault _ _ := trivial

/-- The frame of changes that keep entries orderly. -/
private def keeping : Frame where
  entry _ := Entry.Keeps
  project _ _ := True
  refl _ _ := ⟨rfl, rfl, rfl⟩
  trans _ _ _ _ h h' := ⟨h'.fullName.trans h.fullName, h'.key.trans h.key,
    h'.references.trans h.references⟩
  project_refl _ := trivial
  project_trans _ _ := trivial

private theorem moves_of_keeping (h : keeping.law.moves w.aside w'.aside) : law.moves w w' :=
  have hm := Frame.moves_of_law h rfl
  ⟨h.1, h.2.1, fun hw => hw.of_advances hm.cache (fun _ _ h => h) h.2.1⟩

private theorem looking_keeping : Looking keeping.law :=
  Frame.looking keeping
    (fun s e => ⟨(Entry.Read.looked s e).fullName, (Entry.Read.looked s e).key,
      (Entry.Read.looked s e).references⟩)
    (fun s e => ⟨(Entry.Read.withText s e).fullName, (Entry.Read.withText s e).key,
      (Entry.Read.withText s e).references⟩)
    (fun s e => ⟨(Entry.Read.withBuffer s e).fullName, (Entry.Read.withBuffer s e).key,
      (Entry.Read.withBuffer s e).references⟩)
    fun _ _ _ => trivial

private theorem delivering_keeping : Delivering keeping.law fun _ => True :=
  Frame.delivering
    (Frame.taking looking_keeping (fun _ _ _ _ _ => ⟨rfl, rfl, rfl⟩) (fun _ _ _ => ⟨rfl, rfl, rfl⟩)
      (fun _ _ _ => trivial) fun _ _ _ => trivial)
    fun _ _ => ⟨rfl, rfl, rfl⟩

theorem looking : Looking law where
  config h := h.1
  dir h := h.2.1
  enter w phase := moves_of_keeping (looking_keeping.enter w.aside phase)
  get w name := moves_of_keeping (looking_keeping.get w.aside name)
  look w id := moves_of_keeping (looking_keeping.look w.aside id)
  text w id := moves_of_keeping (looking_keeping.text w.aside id)
  buffer w id := moves_of_keeping (looking_keeping.buffer w.aside id)
  quiet w p hq := moves_of_keeping (looking_keeping.quiet w.aside p hq)

theorem isModuleName_of_findImports {file : String} {specifiers : List String}
    {deps : List (String × String)} (h : Session.findImports file specifiers w = .ok deps w') :
    ∀ d ∈ deps, Path.IsModuleName d.2 := by
  have hends : Ends (fun _ => True) (fun deps => ∀ d ∈ deps, Path.IsModuleName d.2)
      (Session.findImports file specifiers) w := Session.ends_findImports file specifiers w
  exact hends.answer deps w' h

theorem loading (N : String → Prop) : Loading law N where
  toLooking := looking
  script w id file sc ds _ _ _ _ _ :=
    moves_of_keeping (Frame.moves_modify keeping w.aside id (fun _ => rfl) fun _ => ⟨rfl, rfl, rfl⟩)
  refs w id file _ _ _ := by
    refine Session.allows_refreshReferences looking fun deps v script refs _ hdeps _ hgather hm =>
      law.trans hm ⟨rfl, rfl, fun hv => hv.of_gathered fun name hname => ?_⟩
    unfold References.files at hname
    rw [References.sourceDeps_gather hgather] at hname
    obtain ⟨d, hd, rfl⟩ := List.mem_map.mp hname
    exact isModuleName_of_findImports hdeps d hd

theorem walking : Walking law where
  get := looking.get
  look := looking.look
  mark w id f := moves_of_keeping
    ((Frame.walking looking_keeping fun _ _ _ => ⟨rfl, rfl, rfl⟩).mark w.aside id f)
  unmark w := moves_of_keeping
    ((Frame.walking looking_keeping fun _ _ _ => ⟨rfl, rfl, rfl⟩).unmark w.aside)

theorem delivering : Delivering law fun _ => True where
  toLooking := looking
  write w path content := by
    refine ⟨w.written_config path content, w.written_dir path content, fun hw => ?_⟩
    refine hw.of_advances (P := Entry.Keeps) ?_ (fun _ _ h => h) (w.written_dir path content)
    rw [w.written_cache]
    exact Cache.Advances.refl (fun _ => ⟨rfl, rfl, rfl⟩) _
  fails _ _ _ := trivial
  copied w id h := moves_of_keeping (delivering_keeping.copied w.aside id h)
  keep w id m h := moves_of_keeping (delivering_keeping.keep w.aside id m h)
  took w id hK htext hneed := moves_of_keeping (delivering_keeping.took w.aside id hK htext hneed)
  stamp w id := moves_of_keeping (delivering_keeping.stamp w.aside id)

theorem overall (mains : List String) : Overall law mains where
  loading s := (Session.obeys_loadProgram (loading fun _ => True) mains s).beneath
  walking := walking
  delivering := delivering
  placing w atlas := moves_of_keeping
    (Frame.placing (F := keeping) (fun _ _ => trivial) w.aside atlas)
  dropped w _ := moves_of_keeping (Frame.moves_project keeping w.aside trivial rfl rfl)

/-- Forgetting something of all entries leaves them orderly. -/
theorem forget (hw : w.Orderly) {f : Entry → Entry} (hf : ∀ e : Entry, e.Keeps (f e)) :
    { w with cache := w.cache.mapEntries f }.Orderly :=
  hw.of_advances (Cache.Advances.mapEntries (fun e => (hf e).key) hf) (fun _ _ h => h) rfl

/-- Beside the entries only the project directory matters. -/
theorem congr (hw : w.Orderly) (hcache : w'.cache = w.cache)
    (hdir : w'.project.dir = w.project.dir) : w'.Orderly := by
  refine ⟨?_, ?_, ?_⟩
  · rw [hcache, hdir]
    exact hw.named
  · rw [hcache]
    exact hw.distinct
  · rw [hcache]
    exact hw.imports

end Workspace.Orderly

/-! ## Sessions -/

namespace Session

variable {s t : Session}

/-- The sessions that there can be. The disk and the place of the output may change in any way, and so
may the project as long as it stays in its directory; the files may be looked at again or not;
everything may be asked to be built anew; and cycles run, which return or end early. -/
inductive Possible : Session → Prop where
  | start (disk : Disk) (project : Project) : Possible (start disk project)
  | disk {s : Session} (h : Possible s) (disk : Disk) (destination : Option Destination) :
      Possible { s with disk, destination }
  | project {s : Session} (h : Possible s) (project : Project)
      (hdir : project.dir = s.project.dir) : Possible { s with project }
  | clearProbes {s : Session} (h : Possible s) : Possible s.clearProbes
  | force {s : Session} (h : Possible s) : Possible s.forceNext
  | compiled {s : Session} (h : Possible s) : Possible (Step.final (compile s))

/-- Where a cycle has begun the entries are still orderly. -/
theorem orderly_begun (hs : s.Orderly) : s.begun.Orderly := by
  rcases s.begun_cache with hcache | hcache
  · exact hs.congr hcache s.begun_dir
  · have hforgot : { s.toWorkspace with cache := s.cache.forceRebuild }.Orderly :=
      hs.forget fun _ => ⟨rfl, rfl, rfl⟩
    exact hforgot.congr hcache s.begun_dir

/-- The entries of every session are orderly. -/
theorem Possible.orderly (h : Possible s) : s.Orderly := by
  induction h with
  | start disk project =>
    exact ⟨fun i hi => absurd hi (Nat.not_lt_zero i), fun i _ hi => absurd hi (Nat.not_lt_zero i),
      fun i hi => absurd hi (Nat.not_lt_zero i)⟩
  | disk _ disk destination ih => exact ih.congr rfl rfl
  | project _ project hdir ih => exact ih.congr rfl hdir
  | clearProbes _ ih => exact ih.forget fun _ => ⟨rfl, rfl, rfl⟩
  | force _ ih => exact ih.congr rfl rfl
  | @compiled s _ ih =>
    exact (allows_compile (s := s) (Workspace.Orderly.overall _)).final.2.2 (orderly_begun ih)

/-- The entries are orderly where the entry files have been selected. -/
theorem orderly_select {force : Bool} {mains stale : List String} (hs : s.Orderly)
    (h : select s = .ok (force, mains, stale) t) : t.Orderly := by
  obtain ⟨-, -, w, hw, rfl⟩ := select_ok_iff.mp h
  exact ((obeys_staleMains Workspace.Orderly.walking _ _).ok hw).2.2 (orderly_begun hs)

end Session

end Bundler

/-
Under which names a cycle loads files.

A cycle loads its entry files and whatever is found for their imports. What is found is recorded in
the references of the importing file, and a record that is current stays as it is to the end of the
cycle. So the names under which a cycle has loaded files can be read off where it ends: each is that
of an entry file, or an import that a current record names (`Session.builds_compile`). This makes it
possible to say of a run, by looking at the states it goes through, that it refers to every file by
one name.
-/
import Bundler.Proofs.Loading
import Bundler.Proofs.Overall

set_option autoImplicit false

namespace Bundler

open Workspace Step

/-- The imports that are named by references that are current. -/
def Workspace.imports (w : Workspace) : List String :=
  w.cache.entries.flatMap fun e => (e.references?.map References.files).getD []

theorem Workspace.mem_imports {w : Workspace} {i : Nat} {refs : References} {name : String}
    (hrefs : (w.cache.entry i).references? = some refs) (hname : name ∈ refs.files) :
    name ∈ w.imports := by
  have hi : i < w.cache.entries.length := by
    by_contra hge
    have hsome := Entry.references_of_references? hrefs
    unfold Cache.entry at hsome
    rw [List.getElem?_eq_none (by omega)] at hsome
    exact absurd hsome (by simp [Entry.blank])
  refine List.mem_flatMap.mpr ⟨w.cache.entry i, Cache.entry_mem hi, ?_⟩
  rw [hrefs]
  exact hname

/-- Where current references stay, what they name is named to the end. -/
theorem Cache.Advances.imports {dir : String} {P : Entry → Entry → Prop} {w w' : Workspace}
    (h : Cache.Advances dir P w.cache w'.cache)
    (hP : ∀ e e' refs, P e e' → e.references? = some refs → e'.references? = some refs)
    {name : String} (hname : name ∈ w.imports) : name ∈ w'.imports := by
  obtain ⟨e, he, hmem⟩ := List.mem_flatMap.mp hname
  obtain ⟨i, hi, rfl⟩ := Cache.mem_iff_entry.mp he
  cases hrefs : (w.cache.entry i).references? with
  | none =>
    rw [hrefs] at hmem
    exact absurd hmem List.not_mem_nil
  | some refs =>
    rw [hrefs] at hmem
    exact Workspace.mem_imports (hP _ _ refs (h.old i hi) hrefs) hmem

/-! ## Current references stay -/

namespace Entry

variable {N N' : String → Prop} {s : Surroundings} {e e' : Entry} {refs : References}

theorem isInfoCurrent_of_references? (h : e.references? = some refs) :
    e.isInfoCurrent = true := by
  unfold references? at h
  split at h
  · assumption
  · exact absurd h (by simp)

theorem isSet_of_isInfoCurrent (h : e.isInfoCurrent = true) : e.current.isSet = true := by
  obtain ⟨t, hcur⟩ := at_of_found (isInfoCurrent_iff.mp h).1
  rw [hcur]
  rfl

private theorem Lasts.references? (h : Lasts s e e') (hrefs : e.references? = some refs) :
    e'.references? = some refs := by
  have hset := isSet_of_isInfoCurrent (isInfoCurrent_of_references? hrefs)
  rw [references?_congr (h.set hset) h.infoTime h.references]
  exact hrefs

/-- Nothing that a build does changes references that are current. -/
theorem Building.references? (h : Building N s e e') (hrefs : e.references? = some refs) :
    e'.references? = some refs := by
  cases h with
  | loading h =>
    cases h with
    | reading h => exact h.read.lasts.references? hrefs
    | script h => exact hrefs
    | references h =>
      have hcur := isInfoCurrent_of_references? hrefs
      rw [h.outdated] at hcur
      exact absurd hcur (by simp)
  | delivering h => exact h.lasts.references? hrefs
  | mark f => exact hrefs

theorem Loading.mono (hN : ∀ name, N name → N' name) (h : Loading N s e e') : Loading N' s e e' := by
  cases h with
  | reading h => exact .reading h
  | script h => exact .script ⟨hN _ h.name, h.key, h.text, h.outdated, h.read⟩
  | references h =>
    exact .references ⟨hN _ h.name, h.key, h.source, h.outdated, h.hasScript, h.few, h.gathered⟩

theorem Building.mono (hN : ∀ name, N name → N' name) (h : Building N s e e') :
    Building N' s e e' := by
  cases h with
  | loading h => exact .loading (h.mono hN)
  | delivering h => exact .delivering h
  | mark f => exact .mark _ f

end Entry

namespace Frame

variable {N N' : String → Prop} {w w' : Workspace}

theorem law_builds_mono (hN : ∀ name, N name → N' name) (h : (builds N).law.moves w w') :
    (builds N').law.moves w w' := by
  obtain ⟨hconfig, hdir, hdest, hrest⟩ := h
  refine ⟨hconfig, hdir, hdest, fun hnone => ?_⟩
  obtain ⟨hdisk, -, hcache⟩ := hrest hnone
  exact ⟨hdisk, trivial,
    hcache.mono (Relation.ReflTransGen.mono fun _ _ => Entry.Building.mono hN)⟩

/-- What current references name is named to the end. -/
theorem Moves.imports (h : (builds N).Moves w w') {name : String} (hname : name ∈ w.imports) :
    name ∈ w'.imports :=
  h.cache.imports (fun _ _ _ hchain hrefs => Entry.chain_keeps (P := fun e => e.references? = some _)
    (fun _ _ hone he => hone.references? he) hchain hrefs) hname

end Frame

/-! ## The names of a cycle -/

/-- A law that is implied by one of delivering is one, too. -/
theorem Delivering.weaken {L L' : Law Workspace} {K : String → Prop} (h : Delivering L K)
    (hmoves : ∀ {w w'}, L.moves w w' → L'.moves w w') (hfails : ∀ w e, L'.fails w e)
    (hconfig : ∀ {w w'}, L'.moves w w' → w'.project.config = w.project.config)
    (hdir : ∀ {w w'}, L'.moves w w' → w'.project.dir = w.project.dir) : Delivering L' K where
  config := hconfig
  dir := hdir
  enter w phase := hmoves (h.enter w phase)
  get w name := hmoves (h.get w name)
  look w id := hmoves (h.look w id)
  text w id := hmoves (h.text w id)
  buffer w id := hmoves (h.buffer w id)
  quiet w p hq := hmoves (h.quiet w p hq)
  write w path content := hmoves (h.write w path content)
  fails w e _ := hfails w e
  copied w id hneed := hmoves (h.copied w id hneed)
  keep w id m hplain := hmoves (h.keep w id m hplain)
  took w id hK htext hneed := hmoves (h.took w id hK htext hneed)
  stamp w id := hmoves (h.stamp w id)

namespace Session

/-- The law of building under names each of which is that of an entry file, or an import that is
recorded in the end. -/
def namingLaw (mains : List String) : Law Workspace where
  moves w w' := ∃ N, (Frame.builds N).law.moves w w' ∧
    (w.destination = none → ∀ name, N name → name ∈ mains ∨ name ∈ w'.imports)
  fails _ _ := True
  refl w := ⟨fun _ => False, (Frame.builds _).law.refl w, fun _ _ h => h.elim⟩
  trans {w w' w''} h h' := by
    obtain ⟨N, hm, hN⟩ := h
    obtain ⟨N', hm', hN'⟩ := h'
    refine ⟨fun name => N name ∨ N' name, (Frame.builds _).law.trans
      (Frame.law_builds_mono (fun _ => .inl) hm) (Frame.law_builds_mono (fun _ => .inr) hm'),
      fun hnone name hname => ?_⟩
    have hnone' : w'.destination = none := hm.2.2.1.trans hnone
    rcases hname with hname | hname
    · exact (hN hnone name hname).imp_right (Frame.moves_of_law hm' hnone').imports
    · exact hN' hnone' name hname
  back _ _ := trivial
  fault _ _ := trivial

variable {mains : List String}

private theorem naming_of_law {w w' : Workspace} (h : (Frame.builds fun _ => False).law.moves w w') :
    (namingLaw mains).moves w w' := ⟨fun _ => False, h, fun _ _ hname => hname.elim⟩

/-- A name under which a file may be loaded. -/
private def Nameable (mains : List String) (w : Workspace) (name : String) : Prop :=
  w.destination = none → name ∈ mains ∨ name ∈ w.imports

private theorem naming_loadFile {file : String} {s : Session}
    (hfile : Nameable mains s.toWorkspace file) :
    (namingLaw mains).session.Allows s (loadFile file s) := by
  have hlaw := obeys_loadFile (Frame.loading_builds (N := fun name => name = file)) rfl s
  have hmoves : ∀ t : Session, (Frame.builds fun name => name = file).law.moves
      s.toWorkspace t.toWorkspace → (namingLaw mains).moves s.toWorkspace t.toWorkspace := by
    refine fun t hm => ⟨_, hm, fun hnone name hname => ?_⟩
    rw [hname]
    exact (hfile hnone).imp_right (Frame.moves_of_law hm hnone).imports
  cases hr : loadFile file s with
  | ok answer t =>
    rw [hr] at hlaw
    exact ⟨hmoves t hlaw.1, hlaw.2⟩
  | error e t =>
    rw [hr] at hlaw
    exact ⟨⟨hmoves t hlaw.1.1, hlaw.1.2⟩, trivial⟩

private theorem nameable_of_moves {w w' : Workspace} {name : String}
    (hm : (namingLaw mains).moves w w') (hname : Nameable mains w name) :
    Nameable mains w' name := by
  intro hnone
  obtain ⟨N, hbuild, -⟩ := hm
  have hnone' : w.destination = none := hbuild.2.2.1.symm.trans hnone
  exact (hname hnone').imp_right (Frame.moves_of_law hbuild hnone').imports

theorem overall_namingLaw (mains : List String) : Overall (namingLaw mains) mains where
  loading s := (allows_loadProgram (A := Nameable mains) (fun _ _ => naming_loadFile)
    (fun _ _ _ => nameable_of_moves) (fun _ _ _ _ _ _ hrefs hdep _ _ => .inr (Workspace.mem_imports hrefs hdep))
    s fun _ hmain _ => .inl hmain).beneath
  walking :=
    have h := Frame.walking_builds (N := fun _ => False)
    ⟨fun w name => naming_of_law (h.get w name), fun w id => naming_of_law (h.look w id),
      fun w id f => naming_of_law (h.mark w id f), fun w => naming_of_law (h.unmark w)⟩
  delivering := Frame.delivering_builds.weaken naming_of_law (fun _ _ => trivial)
    (fun hm => hm.choose_spec.1.1) fun hm => hm.choose_spec.1.2.1
  placing w atlas := naming_of_law (Frame.placing_builds w atlas)
  dropped w _ := naming_of_law (Frame.moves_project _ w trivial rfl rfl)

/-- A cycle builds. Every name under which it loads a file is that of an entry file or an import that
is recorded in the end. -/
theorem builds_compile {s : Session} {N : String → Prop} (hnone : s.begun.destination = none)
    (hmains : ∀ main ∈ s.begun.project.mains, N main)
    (himports : ∀ name ∈ (Step.final (compile s)).imports, N name) :
    (Frame.builds N).Moves s.begun.toWorkspace (Step.final (compile s)).toWorkspace := by
  obtain ⟨N', hm, hN'⟩ := (allows_compile (overall_namingLaw s.begun.project.mains)).final
  refine Frame.moves_of_law (Frame.law_builds_mono (fun name hname => ?_) hm) hnone
  rcases hN' hnone name hname with hmain | himport
  · exact hmains name hmain
  · exact himports name himport

end Session

end Bundler

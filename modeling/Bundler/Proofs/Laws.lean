/-
The laws that the steps of a build obey.

A build is long, but it is made of few changes. It looks at files and reads them, it notes things
in the project that are neither output nor modules of the bundle, and beyond that loading keeps
what it makes of a text, while delivering marks, stamps, writes and keeps modules. A law that holds
of these changes holds of whole stages: `Looking`, `Loading` and `Delivering` list the changes, each
with what the step knows at that point, and the theorems below carry a law from the changes to the
stages that are made of them. A new fact about a build is then a matter of looking at the changes.
-/
import Bundler.Proofs.Cache
import Bundler.Proofs.Numbering
import Bundler.Proofs.OutputNames
import Bundler.Proofs.Step
import Bundler.Session

set_option autoImplicit false

namespace Bundler

open Workspace Step

/-! ## The changes -/

/-- A change of a project that concerns neither its settings nor its output nor its modules.
Scripts to be taken over may be added. -/
structure Project.Quiet (p p' : Project) : Prop where
  config : p'.config = p.config
  dir : p'.dir = p.dir
  resolvers : p'.resolvers = p.resolvers
  /-- Messages may be used. -/
  catalogue : Catalogue.Continued p.catalogue p'.catalogue
  /-- Resolvers may do anything to the short names. -/
  shortening : p.resolvers = [] → p'.shortNames.enabled = p.shortNames.enabled
  output : p'.output = p.output
  emitted : p'.emitted = p.emitted
  depJs : ∀ k ∈ p.depJs.keys, k ∈ p'.depJs.keys
  /-- Sprites may be asked for, and the layout of the last ones stays. -/
  layout : p'.atlas.built = p.atlas.built
  encoder : p'.encoder = p.encoder
  /-- Assets may be added. -/
  depAssets : ∀ k ∈ p.depAssets.keys, k ∈ p'.depAssets.keys
  /-- What is noted for the output has its own name or one that is made up. -/
  named : p.Named → p'.Named

/-- The parts of a project that are the same, or change in a way of their own, in a quiet change. -/
def Project.parts (p : Project) :=
  (p.config, p.dir, p.resolvers, p.catalogue, p.shortNames, p.output, p.emitted, p.depJs,
    p.depAssets, p.bundleJs, p.atlas.built, p.encoder)

/-- A change is quiet if it concerns other parts only. -/
theorem Project.Quiet.of_parts {p p' : Project} (h : p'.parts = p.parts) : p.Quiet p' := by
  unfold parts at h
  simp only [Prod.mk.injEq] at h
  obtain ⟨hconfig, hdir, hresolvers, hcatalogue, hshort, houtput, hemitted, hjs, hassets, hbundle, hlayout,
    hencoder⟩ := h
  refine ⟨hconfig, hdir, hresolvers, hcatalogue ▸ .refl _, fun _ => congrArg _ hshort, houtput, hemitted,
    fun _ hk => ?_, hlayout, hencoder, fun _ hk => ?_,
    fun hp => hp.congr hresolvers hshort hbundle hjs hassets⟩
  · rwa [hjs]
  · rwa [hassets]

theorem Project.Quiet.refl (p : Project) : p.Quiet p := .of_parts rfl

theorem Project.Quiet.trans {p q r : Project} (h : p.Quiet q) (h' : q.Quiet r) : p.Quiet r :=
  ⟨h'.config.trans h.config, h'.dir.trans h.dir, h'.resolvers.trans h.resolvers,
    h.catalogue.trans h'.catalogue,
    fun hr => (h'.shortening (h.resolvers.trans hr)).trans (h.shortening hr),
    h'.output.trans h.output, h'.emitted.trans h.emitted, fun k hk => h'.depJs k (h.depJs k hk),
    h'.layout.trans h.layout, h'.encoder.trans h.encoder,
    fun k hk => h'.depAssets k (h.depAssets k hk), fun hp => h'.named (h.named hp)⟩

/-- The laws under which files are looked at and read, and things are noted. -/
structure Looking (L : Law Workspace) : Prop where
  config : ∀ {w w'}, L.moves w w' → w'.project.config = w.project.config
  dir : ∀ {w w'}, L.moves w w' → w'.project.dir = w.project.dir
  enter : ∀ w phase, L.moves w { w with phase }
  get : ∀ w name, L.moves w { w with cache := (w.cache.get w.project.dir name).2 }
  look : ∀ w id, L.moves w { w with cache := w.cache.probe w.disk id }
  text : ∀ w id, L.moves w { w with cache := w.cache.ensureText w.disk id }
  buffer : ∀ w id, L.moves w { w with cache := w.cache.ensureBuffer w.disk id }
  quiet : ∀ w p, w.project.Quiet p → L.moves w { w with project := p }

/-- The workspace with one entry changed. -/
def Workspace.changed (w : Workspace) (id : Nat) (f : Entry → Entry) : Workspace :=
  { w with cache := w.cache.modify id f }

/-- The workspace after a file was written. -/
def Workspace.written (w : Workspace) (path : String) (content : Bytes) : Workspace :=
  match w.destination.mapM fun t => t.put w.disk path content with
  | .ok disk => { w with disk := disk.getD w.disk, project := w.project.write path content }
  | .error e => { w with project := w.project.refuse path e.message }

theorem Workspace.written_of_none {w : Workspace} (h : w.destination = none) (path : String)
    (content : Bytes) :
    w.written path content = { w with project := w.project.write path content } := by
  unfold Workspace.written
  rw [h]
  rfl

@[simp] theorem Workspace.written_cache (w : Workspace) (path : String) (content : Bytes) :
    (w.written path content).cache = w.cache := by
  unfold Workspace.written
  split <;> rfl

@[simp] theorem Workspace.written_destination (w : Workspace) (path : String) (content : Bytes) :
    (w.written path content).destination = w.destination := by
  unfold Workspace.written
  split <;> rfl

theorem Project.write_config (p : Project) (path : String) (content : Bytes) :
    (p.write path content).config = p.config := by
  unfold Project.write
  split <;> rfl

theorem Project.write_dir (p : Project) (path : String) (content : Bytes) :
    (p.write path content).dir = p.dir := by
  unfold Project.write
  split <;> rfl

@[simp] theorem Workspace.written_config (w : Workspace) (path : String) (content : Bytes) :
    (w.written path content).project.config = w.project.config := by
  unfold Workspace.written
  split
  · exact Project.write_config w.project path content
  · rfl

@[simp] theorem Workspace.written_dir (w : Workspace) (path : String) (content : Bytes) :
    (w.written path content).project.dir = w.project.dir := by
  unfold Workspace.written
  split
  · exact Project.write_dir w.project path content
  · rfl

section

variable {L : Law Workspace}

/-! ## Looking and reading -/

theorem entry_ok_iff (id : Nat) (e : Entry) (w w' : Workspace) :
    entry id w = .ok e w' ↔ w.cache.entry id = e ∧ w = w' := by
  unfold entry
  constructor
  · intro h
    obtain ⟨v, u, hget, hpure⟩ := (bind_ok_iff _ _ _ _ _).mp h
    obtain ⟨rfl, rfl⟩ := (get_ok_iff _ _ _).mp hget
    exact (pure_ok_iff _ _ _ _).mp hpure
  · rintro ⟨rfl, rfl⟩
    rfl

theorem onCache_ok_iff {α : Type} (f : Disk → String → Cache → α × Cache) (a : α)
    (w w' : Workspace) :
    onCache f w = .ok a w' ↔ (f w.disk w.project.dir w.cache).1 = a ∧
      { w with cache := (f w.disk w.project.dir w.cache).2 } = w' :=
  modifyGet_ok_iff _ _ _ _

/-- What was seen of a name whose existence was asked for. -/
theorem existence_ok {name : String} {i : Nat} {w w' : Workspace} (h : existence name w = .ok i w') :
    w'.cache.find? w'.project.dir name = some i ∧ (w'.cache.entry i).current.isSet = true ∧
      w'.project = w.project := by
  obtain ⟨hi, hw'⟩ := (onCache_ok_iff _ _ _ _).mp h
  have hfind := Cache.find?_existence w.disk w.project.dir name w.cache
  rw [hi] at hfind
  rw [← hw']
  refine ⟨hfind, ?_, rfl⟩
  obtain ⟨hlt, -⟩ := Cache.find?_some hfind
  simp only [Cache.existence] at hi hlt ⊢
  rw [hi] at hlt ⊢
  rw [Cache.probe_eq] at hlt ⊢
  rw [Cache.entry_modify_self _ (by simpa using hlt)]
  exact Entry.isSet_looked _ _

/-- Reading a file looks at it first. -/
theorem content_ok {name : String} {i : Nat} {w w' : Workspace} (h : content name w = .ok i w') :
    ∃ w₁, existence name w = .ok i w₁ ∧
      w' = { w₁ with cache := w₁.cache.ensureText w₁.disk i } := by
  obtain ⟨hi, hw'⟩ := (onCache_ok_iff _ _ _ _).mp h
  refine ⟨{ w with cache := (w.cache.existence w.disk w.project.dir name).2 },
    (onCache_ok_iff _ _ _ _).mpr ⟨hi, rfl⟩, ?_⟩
  rw [← hw', ← hi]
  rfl

theorem obeys_onCache {α : Type} {f : Disk → String → Cache → α × Cache}
    (h : ∀ w, L.moves w { w with cache := (f w.disk w.project.dir w.cache).2 }) :
    Obeys L (onCache f) := obeys_modifyGet h

theorem obeys_entry (id : Nat) : Obeys L (entry id) :=
  obeys_get.bind fun _ => obeys_pure _

theorem obeys_enter (hL : Looking L) (phase : Phase) : Obeys L (enter phase) :=
  obeys_modify fun w => hL.enter w phase

theorem obeys_existence (hL : Looking L) (name : String) : Obeys L (existence name) :=
  obeys_onCache fun w => L.trans (hL.get w name) (hL.look _ _)

theorem obeys_content (hL : Looking L) (name : String) : Obeys L (content name) :=
  obeys_onCache fun w => L.trans (hL.get w name) (L.trans (hL.look _ _) (hL.text _ _))

theorem obeys_bytes (hL : Looking L) (name : String) : Obeys L (bytes name) :=
  obeys_onCache fun w => L.trans (hL.get w name) (L.trans (hL.look _ _) (hL.buffer _ _))

theorem obeys_exists? (hL : Looking L) (name : String) : Obeys L (exists? name) :=
  (obeys_existence hL name).bind fun _ => (obeys_entry _).bind fun _ => obeys_pure _

theorem obeys_changeProject (hL : Looking L) {f : Project → Project}
    (h : ∀ p : Project, p.Quiet (f p)) : Obeys L (changeProject f) :=
  obeys_modify fun w => hL.quiet w _ (h _)

theorem obeys_say (hL : Looking L) (line : String) : Obeys L (say line) :=
  obeys_changeProject hL fun _ => .of_parts rfl

/-- The law of steps of a project: they change it quietly. -/
def Project.quietly : Law Project where
  moves := Project.Quiet
  fails _ e := ∃ f, e = .fault f
  refl := Project.Quiet.refl
  trans := Project.Quiet.trans
  back _ h := h
  fault _ f := ⟨f, rfl⟩

theorem obeys_onProject (hL : Looking L) {α : Type} {step : Step Project α}
    (h : Obeys Project.quietly step) : Obeys L (onProject step) := by
  refine obeys_on (fun w p hq => hL.quiet w p hq) (fun w e he => ?_) h
  obtain ⟨f, rfl⟩ := he
  exact L.fault w f

/-! ## Finding modules -/

namespace ModuleSearch

theorem obeys_record (hL : Looking L) (key : String) (info : ModuleInfo) :
    Obeys L (record key info) :=
  obeys_changeProject hL fun _ => .of_parts rfl

private theorem keys_insertList {α β : Type} [DecidableEq α] (k : α) (v : β) :
    ∀ es : List (α × β), ∀ a,
      a ∈ (OrderedMap.insertList k v es).map Prod.fst ↔ a = k ∨ a ∈ es.map Prod.fst
  | [], a => by simp [OrderedMap.insertList]
  | e :: es, a => by
    unfold OrderedMap.insertList
    by_cases h : e.1 = k
    · rw [if_pos h]
      simp [h]
    · rw [if_neg h]
      simp only [List.map_cons, List.mem_cons, keys_insertList k v es a]
      exact or_left_comm

theorem mem_keys_insert {α β : Type} [DecidableEq α] (m : OrderedMap α β) (k : α) (v : β) (a : α) :
    a ∈ (m.insert k v).keys ↔ a = k ∨ a ∈ m.keys := keys_insertList k v m.toList a

theorem quiet_addDepJs (p : Project) (file : String) : p.Quiet (p.addDepJs file) :=
  ⟨rfl, rfl, rfl, .refl _, fun _ => rfl, rfl, rfl,
    fun k hk => (mem_keys_insert _ _ _ k).mpr (.inr hk), rfl, rfl, fun _ hk => hk,
    fun hp => hp.addDepJs file⟩

theorem obeys_recordTakenOver (hL : Looking L) (key base definition js : String)
    (relative : Bool) : Obeys L (recordTakenOver key base definition js relative) :=
  (obeys_changeProject hL fun p => quiet_addDepJs p js).bind fun _ =>
    (obeys_record hL _ _).bind fun _ => obeys_pure _

theorem obeys_findSource (hL : Looking L) (key base js : String) (relative : Bool)
    (exts : List String) : Obeys L (findSource key base js relative exts) := by
  induction exts with
  | nil => exact obeys_pure _
  | cons ext exts ih =>
    refine (obeys_exists? hL _).bind fun found => ?_
    split
    · exact (obeys_record hL _ _).bind fun _ => obeys_pure _
    · exact ih

theorem obeys_findAt (hL : Looking L) (key base : String) (relative : Bool) :
    Obeys L (findAt key base relative) := by
  have hjs : Obeys L (do
      if ← exists? (base ++ ".js") then
        return some (← recordTakenOver key base (base ++ ".js") (base ++ ".js") relative)
      return none) := by
    refine (obeys_exists? hL _).bind fun found => ?_
    split
    · exact (obeys_recordTakenOver hL _ _ _ _ _).bind fun _ => obeys_pure _
    · exact obeys_pure _
  unfold findAt
  refine (obeys_findSource hL _ _ _ _ _).bind fun found => ?_
  split
  · exact obeys_pure _
  · refine (obeys_exists? hL _).bind fun declared => ?_
    split
    · refine (obeys_exists? hL _).bind fun there => ?_
      split
      · exact (obeys_recordTakenOver hL _ _ _ _ _).bind fun _ => obeys_pure _
      · exact hjs
    · exact hjs

theorem obeys_findIn (hL : Looking L) (specifier : String) (dirs : List String) :
    Obeys L (findIn specifier dirs) := by
  induction dirs with
  | nil => exact obeys_pure _
  | cons dir dirs ih =>
    refine (obeys_findAt hL _ _ _).bind fun found => ?_
    split
    · exact obeys_pure _
    · exact ih

theorem obeys_orSay (hL : Looking L) (specifier file : String) (found : Option FoundModule) :
    Obeys L (orSay specifier file found) := by
  unfold orSay
  split
  · exact (obeys_say hL _).bind fun _ => obeys_pure _
  · exact obeys_pure _

theorem obeys_findRelative (hL : Looking L) (specifier file : String) :
    Obeys L (findRelative specifier file) := by
  unfold findRelative
  split
  · exact (obeys_say hL _).bind fun _ =>
      (obeys_findAt hL _ _ _).bind fun _ => obeys_orSay hL _ _ _
  · exact (obeys_findAt hL _ _ _).bind fun _ => obeys_orSay hL _ _ _

theorem obeys_findPackage (hL : Looking L) (specifier file : String) :
    Obeys L (findPackage specifier file) := by
  unfold findPackage
  refine (obeys_content hL _).bind fun id => (obeys_entry id).bind fun e => ?_
  split
  · exact obeys_pure _
  · split
    · exact (obeys_say hL _).bind fun _ => obeys_pure _
    · exact (obeys_findAt hL _ _ _).bind fun _ => obeys_orSay hL _ _ _

theorem obeys_find (hL : Looking L) (specifier file : String) : Obeys L (find specifier file) := by
  unfold find
  split
  · exact obeys_findRelative hL _ _
  · refine (obeys_findIn hL _ _).bind fun found => ?_
    split
    · exact obeys_pure _
    · exact obeys_findPackage hL _ _

end ModuleSearch

/-! ## Quiet steps of a project -/

section Quiet

theorem quiet_shorten (p : Project) (name : String) : p.Quiet (p.shorten name).2 :=
  ⟨rfl, rfl, rfl, .refl _, fun _ => (ShortNames.keeps_shorten p.shortNames name).enabled, rfl, rfl,
    fun _ h => h, rfl, rfl, fun _ h => h, fun hp => hp.shorten name⟩

theorem quiet_shortName (p : Project) (name : String) : p.Quiet (p.shortName name).2 :=
  ⟨rfl, rfl, rfl, .refl _, fun _ => (ShortNames.keeps_shortName p.shortNames name).enabled, rfl, rfl,
    fun _ h => h, rfl, rfl, fun _ h => h, fun hp => hp.shortName name⟩

/-- The start of a cycle leaves what lasts from one cycle to the next. -/
theorem Project.quiet_beginCycle (p : Project) : p.Quiet p.beginCycle := by
  have hnamed : p.Named → p.beginCycle.Named := Project.Named.beginCycle
  unfold Project.beginCycle at hnamed ⊢
  by_cases hbundle : (p.config.bundle == .none) = true
  · simp only [hbundle, if_true] at hnamed ⊢
    exact ⟨rfl, rfl, rfl, .refl _, fun _ => rfl, rfl, rfl, fun _ h => h, rfl, rfl, fun _ h => h, hnamed⟩
  · simp only [hbundle, Bool.false_eq_true, if_false] at hnamed ⊢
    have hshort := quiet_shorten { p with assetValues := .empty, cssToLink := [] } "bundle.js"
    exact ⟨hshort.config, hshort.dir, hshort.resolvers, hshort.catalogue, hshort.shortening,
      hshort.output, hshort.emitted, hshort.depJs, hshort.layout, hshort.encoder, hshort.depAssets, hnamed⟩

theorem obeys_shorten (name : String) :
    Obeys Project.quietly (modifyGet fun p => p.shorten name : Step Project String) :=
  obeys_modifyGet fun p => quiet_shorten p name

/-- An asset may be noted under a name that it may be called by. -/
private theorem quiet_addAsset {p q : Project} {name output : String} (h : p.Quiet q)
    (houtput : p.Named → Project.IsOutput name output) : p.Quiet (q.addAsset name output) :=
  ⟨h.config, h.dir, h.resolvers, h.catalogue, h.shortening, h.output, h.emitted, h.depJs, h.layout,
    h.encoder, fun k hk => (ModuleSearch.mem_keys_insert _ _ _ k).mpr (.inr (h.depAssets k hk)),
    fun hp => (h.named hp).addAsset (houtput hp)⟩

/-- An asset is noted under its output name. -/
private theorem obeys_shortenAsset {α : Type} (name : String) {next : String → Step Project α}
    (hnext : ∀ output, Obeys Project.quietly (next output)) : Obeys Project.quietly (do
      let output ← modifyGet fun p => p.shorten name
      modify fun p => p.addAsset name output
      next output) := by
  have hboth : Obeys Project.quietly (modifyGet fun p =>
      ((p.shorten name).1, (p.shorten name).2.addAsset name (p.shorten name).1) : Step Project String) :=
    obeys_modifyGet fun p => quiet_addAsset (quiet_shorten p name) fun hp => hp.isOutput_shorten name
  exact hboth.bind hnext

namespace Resources

theorem obeys_defaultName (name : String) : Obeys Project.quietly (defaultName name) := by
  refine (obeys_lift _).bind fun css => (obeys_lift _).bind fun js => ?_
  split
  · exact obeys_pure _
  · exact obeys_shorten name

/-- An asset may be called by its default name. -/
private theorem isOutput_defaultName {name output : String} {p q : Project}
    (h : defaultName name p = .ok output q) (hp : p.Named) : Project.IsOutput name output := by
  unfold defaultName at h
  obtain ⟨css, t, hcss, h⟩ := (bind_ok_iff _ _ _ _ _).mp h
  obtain ⟨-, rfl⟩ := (lift_ok_iff _ _ _ _).mp hcss
  obtain ⟨js, t, hjs, h⟩ := (bind_ok_iff _ _ _ _ _).mp h
  obtain ⟨-, rfl⟩ := (lift_ok_iff _ _ _ _).mp hjs
  split at h
  · obtain ⟨rfl, -⟩ := (pure_ok_iff _ _ _ _).mp h
    exact .inr rfl
  · obtain ⟨rfl, -⟩ := (modifyGet_ok_iff _ _ _ _).mp h
    exact hp.isOutput_shorten name

theorem obeys_collectAsset (file : String) (span : Span) (name : String) :
    Obeys Project.quietly (collectAsset file span name) := by
  refine Obeys.bind (obeys_modifyGet fun p => ?_) fun outcome => ?_
  · refine ⟨rfl, rfl, rfl, .refl _, fun hr => ?_, rfl, rfl, fun _ h => h, rfl, rfl, fun _ h => h, fun hp => ?_⟩
    · simp only [Resolver.ask, hr, Resolver.claims]
    · exact hp.of_shortNames (Resolver.sound_ask hp.resolvers p.config name hp.sound)
  · split
    · refine fun p => Law.Allows.bind_from (obeys_defaultName name p) fun output q hq hquiet => ?_
      have hadded : p.Quiet (q.addAsset name output) := quiet_addAsset hquiet (isOutput_defaultName hq)
      exact hadded.trans (.of_parts rfl)
    · exact obeys_pure _
    · refine Obeys.bind (obeys_modify fun p => ?_) fun _ => obeys_pure _
      exact .of_parts rfl

theorem obeys_collectAssets (file : String) (script : Script)
    (sites : List (Nat × Option String)) :
    Obeys Project.quietly (collectAssets file script sites) := by
  induction sites with
  | nil => exact obeys_pure _
  | cons site sites ih =>
    obtain ⟨call, name⟩ := site
    unfold collectAssets
    cases name with
    | none => exact (obeys_pure _).bind fun _ => ih.bind fun _ => obeys_pure _
    | some name =>
      exact (obeys_collectAsset _ _ _).bind fun _ => ih.bind fun _ => obeys_pure _

/-- Asking for sprites leaves the layout. -/
theorem built_foldl_add (keys : List SpriteKey) (a : Atlas) :
    (keys.foldl Atlas.add a).built = a.built := by
  induction keys generalizing a with
  | nil => rfl
  | cons key keys ih =>
    rw [List.foldl_cons, ih]
    unfold Atlas.add
    split <;> rfl

theorem quiet_collectSprites (refs : References) (p : Project) :
    p.Quiet (collectSprites refs p) := by
  unfold collectSprites
  split
  · exact Project.Quiet.refl p
  · exact .of_parts (by simp only [Project.parts, built_foldl_add])

theorem quiet_collectMessages (file : String) (refs : References) (p : Project) :
    p.Quiet (collectMessages file refs p) := by
  unfold collectMessages
  split
  · exact Project.Quiet.refl p
  · exact .of_parts rfl

theorem obeys_collect (file : String) (script : Script) (refs : References) :
    Obeys Project.quietly (collect file script refs) :=
  Obeys.bind (obeys_modify fun p => quiet_collectSprites refs p) fun _ =>
    Obeys.bind (obeys_modify fun p => quiet_collectMessages file refs p) fun _ =>
      obeys_collectAssets file script refs.assets

theorem quiet_settle (p : Project) (pending : List Pending) : p.Quiet (settle p pending).1 := by
  induction pending generalizing p with
  | nil => exact Project.Quiet.refl p
  | cons a as ih =>
    have hone : p.Quiet (settleOne p a).1 := by
      unfold settleOne
      split
      · exact .of_parts rfl
      · exact Project.Quiet.refl p
    exact hone.trans (ih _)

theorem obeys_applySprite (e : Editing) (site : Nat × SpriteUse) :
    Obeys Project.quietly (applySprite e site) := by
  obtain ⟨call, s⟩ := site
  unfold applySprite
  simp only
  split
  · exact obeys_pure _
  · rename_i name _
    refine obeys_get.bind fun p => ?_
    split
    · split
      · exact obeys_pure _
      · exact obeys_lift _
    · exact obeys_shortenAsset name fun _ => obeys_lift _

/-- Setting a call to the number of its message is a use of the message, if it does anything. -/
theorem applyMessage_run {state state' : Catalogue × Editing} {site : Nat × MessageUse}
    (h : applyMessage state site = .ok state') : ∃ acts, state'.1 = state.1.run acts := by
  obtain ⟨catalogue, e⟩ := state
  obtain ⟨call, m⟩ := site
  unfold applyMessage at h
  simp only at h
  cases hmessage : m.message with
  | none =>
    rw [hmessage] at h
    cases h
    exact ⟨[], rfl⟩
  | some text =>
    rw [hmessage] at h
    simp only at h
    split at h
    · cases h
      exact ⟨[], rfl⟩
    · obtain ⟨e₁, -, h⟩ := (except_bind_ok_iff _ _ _).mp h
      obtain ⟨c, -, h⟩ := (except_bind_ok_iff _ _ _).mp h
      refine ⟨[.use (text, m.hint) m.withParams], ?_⟩
      split at h
      · obtain ⟨e₂, -, h⟩ := (except_bind_ok_iff _ _ _).mp h
        cases h
        rfl
      · cases h
        rfl

theorem foldlM_applyMessage_run : ∀ {sites : List (Nat × MessageUse)}
    {state state' : Catalogue × Editing}, sites.foldlM applyMessage state = .ok state' →
    ∃ acts, state'.1 = state.1.run acts
  | [], state, state', h => by
    cases h
    exact ⟨[], rfl⟩
  | site :: sites, state, state', h => by
    rw [List.foldlM_cons] at h
    obtain ⟨next, hfirst, hrest⟩ := (except_bind_ok_iff _ _ _).mp h
    obtain ⟨acts, hacts⟩ := applyMessage_run hfirst
    obtain ⟨more, hmore⟩ := foldlM_applyMessage_run hrest
    exact ⟨acts ++ more, by rw [hmore, hacts, Catalogue.run_append]⟩

theorem obeys_applyMessages (file : String) (refs : References) (e : Editing) :
    Obeys Project.quietly (applyMessages file refs e) := by
  unfold applyMessages
  intro p
  refine Law.Allows.bind (obeys_get p) fun q t hq => ?_
  obtain ⟨rfl, rfl⟩ := (get_ok_iff q p t).mp hq
  cases hcat : p.catalogue with
  | none => exact obeys_pure _ p
  | some catalogue =>
    simp only
    split
    · exact obeys_pure _ p
    · refine Law.Allows.bind (obeys_lift _ p) fun r t hr => ?_
      obtain ⟨hfold, rfl⟩ := (lift_ok_iff _ r p t).mp hr
      obtain ⟨catalogue', e'⟩ := r
      obtain ⟨acts, hacts⟩ := foldlM_applyMessage_run hfold
      have hcontinued : Catalogue.Continued p.catalogue (some catalogue'.finishFile) := by
        refine ⟨.start file :: acts ++ [.finish], ?_⟩
        rw [hcat, Option.map_some, Catalogue.run_concat]
        exact congrArg some (congrArg Catalogue.finishFile hacts)
      have hnamed : p.Named → { p with catalogue := some catalogue'.finishFile }.Named := fun hp =>
        hp.congr rfl rfl rfl rfl rfl
      exact ⟨rfl, rfl, rfl, hcontinued, fun _ => rfl, rfl, rfl, fun _ h => h, rfl, rfl, fun _ h => h, hnamed⟩

theorem obeys_apply (file : String) (refs : References) (e : Editing) :
    Obeys Project.quietly (apply file refs e) :=
  (obeys_foldlM (fun e site => obeys_applySprite e site) _ _).bind fun _ =>
    obeys_get.bind fun _ => (obeys_lift _).bind fun _ =>
      (obeys_applyMessages _ _ _).bind fun _ => obeys_lift _

end Resources

theorem Page.obeys_expandPiece (piece : Page.Piece) :
    Obeys Project.quietly (Page.expandPiece piece) := by
  cases piece with
  | text cs => exact obeys_pure _
  | asset name =>
    exact obeys_shortenAsset _ fun _ => obeys_pure _

theorem Page.obeys_expandHead : Obeys Project.quietly Page.expandHead := by
  unfold Page.expandHead
  refine obeys_get.bind fun p => ?_
  split
  · exact obeys_modify fun _ => .of_parts rfl
  · exact (obeys_mapM Page.obeys_expandPiece _).bind fun _ => obeys_modify fun _ =>
      .of_parts rfl

theorem Stylesheet.obeys_mapUrls (css : String) {target : String → Step Project String}
    (h : ∀ url, Obeys Project.quietly (target url)) :
    Obeys Project.quietly (Stylesheet.mapUrls css target) := by
  refine (obeys_mapM (fun piece => ?_) _).bind fun _ => obeys_pure _
  cases piece with
  | text cs => exact obeys_pure _
  | url quote content written =>
    unfold Stylesheet.mapPiece
    simp only
    split
    · exact (h _).bind fun _ => obeys_pure _
    · exact obeys_pure _

theorem Stylesheet.obeys_concatenate (sources : List (String × String))
    {target : String → String → Step Project String}
    (h : ∀ url sheet, Obeys Project.quietly (target url sheet)) :
    Obeys Project.quietly (Stylesheet.concatenate sources target) :=
  (obeys_mapM (fun _ => Stylesheet.obeys_mapUrls _ fun _ => h _ _) _).bind fun _ => obeys_pure _

theorem Assembly.obeys_mergedReference (url sheet : String) :
    Obeys Project.quietly (Assembly.mergedReference url sheet) :=
  obeys_shortenAsset _ fun _ => (obeys_modifyGet fun p => quiet_shortName p _).bind fun _ => obeys_pure _

theorem Assembly.obeys_plainReference (url sheet : String) :
    Obeys Project.quietly (Assembly.plainReference url sheet) := by
  have hquiet : ∀ (p : Project) (file : String),
      p.Quiet { p with depAssets := p.depAssets.insertNew file file } := by
    intro p file
    unfold OrderedMap.insertNew
    split
    · exact Project.Quiet.refl p
    · exact quiet_addAsset (Project.Quiet.refl p) fun _ => .inr rfl
  exact Obeys.bind (obeys_modify fun p => hquiet p _) fun _ => obeys_pure _

namespace Session

theorem obeys_render (file : String) (script : Script) (refs : References)
    (overrides : List Override) (o : Script.WriteOptions) :
    Obeys Project.quietly (render file script refs overrides o) :=
  (obeys_lift _).bind fun _ => (Resources.obeys_apply _ _ _).bind fun _ => obeys_lift _

end Session

end Quiet

end

end Bundler

/-
What a build notes to be delivered beside the scripts that it writes.

A project notes three things while it is built: scripts that are taken over, assets, and the style
sheets that a page has to link. Each is noted at a few places of the code, and whatever else a build
does leaves all three alone. `Project.Adds J A C M` says of a change which scripts, assets and links it
may add at most, and this is carried from the steps of a project to the stages of a build. What a
stage adds is then to be seen at the places where it notes something: a script at an import
(`ModuleSearch.find_adds`), an asset at a call, in the page head or in a style sheet.

Nothing here is about the cache. A law of the cache holds beside these, and the two together say that
what was noted is something that a file still mentions.
-/
import Bundler.Proofs.Stages

set_option autoImplicit false

namespace Bundler

open Workspace Step

/-! ## Changes of a project -/

/-- A script is copied into a module of a bundle. -/
def Project.Copies (p : Project) (id : String) : Prop :=
  ∃ m, (id, m) ∈ p.emitted.toList ∧ m.copied = true

/-- A change of a project that adds at most scripts in `J`, assets in `A`, links in `C` and copied
modules in `M`. No script and no asset is dropped. -/
structure Project.Adds (J A C M : String → Prop) (p p' : Project) : Prop where
  keptJs : ∀ js ∈ p.depJs.keys, js ∈ p'.depJs.keys
  kept : ∀ name ∈ p.depAssets.keys, name ∈ p'.depAssets.keys
  depJs : ∀ js ∈ p'.depJs.keys, js ∈ p.depJs.keys ∨ J js
  depAssets : ∀ name ∈ p'.depAssets.keys, name ∈ p.depAssets.keys ∨ A name
  cssToLink : ∀ css ∈ p'.cssToLink, css ∈ p.cssToLink ∨ C css
  copied : ∀ id, p'.Copies id → p.Copies id ∨ M id
  /-- Where no asset may be added, none gets another output. -/
  same : (∀ name, ¬A name) → p'.depAssets = p.depAssets

variable {J A C M J' A' C' M' : String → Prop}

theorem Project.Adds.of_eq {p p' : Project} (hjs : p'.depJs = p.depJs)
    (hassets : p'.depAssets = p.depAssets) (hcss : p'.cssToLink = p.cssToLink)
    (hemitted : p'.emitted = p.emitted) : Project.Adds J A C M p p' := by
  refine ⟨fun js h => ?_, fun name h => ?_, fun js h => .inl ?_, fun name h => .inl ?_,
    fun css h => .inl ?_, fun id h => .inl ?_, fun _ => hassets⟩
  · rwa [hjs]
  · rwa [hassets]
  · rwa [hjs] at h
  · rwa [hassets] at h
  · rwa [hcss] at h
  · unfold Project.Copies at h
    rwa [hemitted] at h

theorem Project.Adds.trans {p q r : Project} (h : Project.Adds J A C M p q)
    (h' : Project.Adds J A C M q r) : Project.Adds J A C M p r where
  keptJs js hjs := h'.keptJs js (h.keptJs js hjs)
  kept name hname := h'.kept name (h.kept name hname)
  depJs js hjs := (h'.depJs js hjs).elim (h.depJs js) .inr
  depAssets name hname := (h'.depAssets name hname).elim (h.depAssets name) .inr
  cssToLink css hcss := (h'.cssToLink css hcss).elim (h.cssToLink css) .inr
  copied id hid := (h'.copied id hid).elim (h.copied id) .inr
  same hA := (h'.same hA).trans (h.same hA)

theorem Project.Adds.mono {p p' : Project} (h : Project.Adds J A C M p p')
    (hJ : ∀ js, J js → J' js) (hA : ∀ name, A name → A' name) (hC : ∀ css, C css → C' css)
    (hM : ∀ id, M id → M' id) : Project.Adds J' A' C' M' p p' where
  keptJs := h.keptJs
  kept := h.kept
  depJs js hjs := (h.depJs js hjs).imp_right (hJ js)
  depAssets name hname := (h.depAssets name hname).imp_right (hA name)
  cssToLink css hcss := (h.cssToLink css hcss).imp_right (hC css)
  copied id hid := (h.copied id hid).imp_right (hM id)
  same hA' := h.same fun name hname => hA' name (hA name hname)

theorem Project.Adds.mono_scripts {p p' : Project} (h : Project.Adds J A C M p p')
    (hJ : ∀ js, J js → J' js) : Project.Adds J' A C M p p' :=
  h.mono hJ (fun _ h => h) (fun _ h => h) fun _ h => h

/-- The law of steps of a project that add at most scripts in `J`, assets in `A`, links in `C` and
copied modules in `M`. -/
def Project.adding (J A C M : String → Prop) : Law Project where
  moves := Project.Adds J A C M
  fails _ _ := True
  refl _ := .of_eq rfl rfl rfl rfl
  trans := Project.Adds.trans
  back _ _ := trivial
  fault _ _ := trivial

/-- The law of steps of a workspace that do. -/
def Workspace.adding (J A C M : String → Prop) : Law Workspace where
  moves w w' := Project.Adds J A C M w.project w'.project
  fails _ _ := True
  refl _ := .of_eq rfl rfl rfl rfl
  trans := Project.Adds.trans
  back _ _ := trivial
  fault _ _ := trivial

theorem OrderedMap.mem_keys_insertNew {α β : Type} [DecidableEq α] {m : OrderedMap α β} {k : α}
    {v : β} {a : α} (h : a ∈ (m.insertNew k v).keys) : a = k ∨ a ∈ m.keys := by
  unfold OrderedMap.insertNew at h
  split at h
  · exact .inr h
  · exact (ModuleSearch.mem_keys_insert m k v a).mp h

/-- A module that is kept counts as copied if it is. -/
theorem Project.adds_emitted (p : Project) {id : String} {m : Module}
    (h : m.copied = true → M id) :
    Project.Adds J A C M p { p with emitted := p.emitted.insert id m } where
  keptJs _ hjs := hjs
  kept _ hname := hname
  depJs _ hjs := .inl hjs
  depAssets _ hname := .inl hname
  cssToLink _ hcss := .inl hcss
  copied id' hid := by
    obtain ⟨m', hmem, hcopied⟩ := hid
    rcases OrderedMap.mem_insert hmem with heq | hold
    · obtain ⟨rfl, rfl⟩ := Prod.mk.inj heq
      exact .inr (h hcopied)
    · exact .inl ⟨m', hold, hcopied⟩
  same _ := rfl

theorem OrderedMap.keys_insertNew {α β : Type} [DecidableEq α] {m : OrderedMap α β} (k : α)
    (v : β) {a : α} (h : a ∈ m.keys) : a ∈ (m.insertNew k v).keys := by
  unfold OrderedMap.insertNew
  split
  · exact h
  · exact (ModuleSearch.mem_keys_insert m k v a).mpr (.inr h)

theorem Project.adds_addAsset (p : Project) {name : String} (output : String) (h : A name) :
    Project.Adds J A C M p (p.addAsset name output) where
  keptJs _ hjs := hjs
  kept a ha := (ModuleSearch.mem_keys_insert _ _ _ _).mpr (.inr ha)
  depJs _ hjs := .inl hjs
  depAssets a ha := by
    rcases (ModuleSearch.mem_keys_insert p.depAssets name output a).mp ha with rfl | hold
    · exact .inr h
    · exact .inl hold
  cssToLink _ hcss := .inl hcss
  copied _ hid := .inl hid
  same hA := absurd h (hA name)

/-! ## Steps of a project -/

section Steps

theorem adding_shorten (name : String) :
    Obeys (Project.adding J A C M) (modifyGet fun p => p.shorten name : Step Project String) :=
  obeys_modifyGet fun _ => .of_eq rfl rfl rfl rfl

private theorem adding_addAsset {name : String} (output : String) (h : A name) :
    Obeys (Project.adding J A C M) (modify fun p => p.addAsset name output : Step Project PUnit) :=
  obeys_modify fun p => p.adds_addAsset output h

namespace Resources

private theorem adding_collectAsset (file : String) (span : Span) {name : String} (h : A name) :
    Obeys (Project.adding J A C M) (collectAsset file span name) := by
  refine Obeys.bind (obeys_modifyGet fun p => .of_eq rfl rfl rfl rfl) fun outcome => ?_
  split
  · have hdefault : Obeys (Project.adding J A C M) (defaultName name) := by
      refine (obeys_lift _).bind fun css => (obeys_lift _).bind fun js => ?_
      split
      · exact obeys_pure _
      · exact adding_shorten name
    refine hdefault.bind fun output => Obeys.bind (obeys_modify fun p => ?_) fun _ => obeys_pure _
    exact (p.adds_addAsset output h).trans (.of_eq rfl rfl rfl rfl)
  · exact obeys_pure _
  · exact Obeys.bind (obeys_modify fun p => .of_eq rfl rfl rfl rfl) fun _ => obeys_pure _

private theorem adding_collectAssets (file : String) (script : Script) :
    ∀ sites : List (Nat × Option String), (∀ call name, (call, some name) ∈ sites → A name) →
      Obeys (Project.adding J A C M) (collectAssets file script sites)
  | [], _ => obeys_pure _
  | (call, name) :: sites, h => by
    have ih := adding_collectAssets file script sites fun call name hmem =>
      h call name (List.mem_cons_of_mem _ hmem)
    unfold collectAssets
    cases name with
    | none => exact (obeys_pure _).bind fun _ => ih.bind fun _ => obeys_pure _
    | some name =>
      exact (adding_collectAsset file _ (h call name List.mem_cons_self)).bind fun _ =>
        ih.bind fun _ => obeys_pure _

/-- The first pass over a script notes assets that its calls name. -/
theorem adding_collect (file : String) (script : Script) (refs : References)
    (h : ∀ call name, (call, some name) ∈ refs.assets → A name) :
    Obeys (Project.adding J A C M) (collect file script refs) := by
  refine Obeys.bind (obeys_modify fun p => ?_) fun _ => Obeys.bind (obeys_modify fun p => ?_)
    fun _ => adding_collectAssets file script refs.assets h
  · unfold collectSprites
    split <;> exact .of_eq rfl rfl rfl rfl
  · unfold collectMessages
    split <;> exact .of_eq rfl rfl rfl rfl

theorem adds_settle (p : Project) (pending : List Pending) :
    Project.Adds J A C M p (settle p pending).1 := by
  induction pending generalizing p with
  | nil => exact .of_eq rfl rfl rfl rfl
  | cons a as ih =>
    have hone : Project.Adds J A C M p (settleOne p a).1 := by
      unfold settleOne
      split <;> exact .of_eq rfl rfl rfl rfl
    exact hone.trans (ih _)

private theorem adding_applySprite (e : Editing) (site : Nat × SpriteUse)
    (h : ∀ name, site.2.name = some name → A name) :
    Obeys (Project.adding J A C M) (applySprite e site) := by
  obtain ⟨call, s⟩ := site
  unfold applySprite
  simp only
  split
  · exact obeys_pure _
  · rename_i name hname
    refine obeys_get.bind fun p => ?_
    split
    · split
      · exact obeys_pure _
      · exact obeys_lift _
    · exact (adding_shorten name).bind fun output =>
        (adding_addAsset output (h name hname)).bind fun _ => obeys_lift _

private theorem adding_applyMessages (file : String) (refs : References) (e : Editing) :
    Obeys (Project.adding J A C M) (applyMessages file refs e) := by
  unfold applyMessages
  intro p
  refine Law.Allows.bind (obeys_get p) fun q t hq => ?_
  obtain ⟨rfl, rfl⟩ := (get_ok_iff q p t).mp hq
  cases p.catalogue with
  | none => exact obeys_pure _ p
  | some catalogue =>
    simp only
    split
    · exact obeys_pure _ p
    · refine Law.Allows.bind (obeys_lift _ p) fun r t hr => ?_
      obtain ⟨-, rfl⟩ := (lift_ok_iff _ r p t).mp hr
      exact .of_eq rfl rfl rfl rfl

/-- The second pass over a script notes assets that its sprites name. -/
theorem adding_apply (file : String) (refs : References) (e : Editing)
    (h : ∀ site ∈ refs.sprites, ∀ name, site.2.name = some name → A name) :
    Obeys (Project.adding J A C M) (apply file refs e) := by
  have hsprites : ∀ (sites : List (Nat × SpriteUse)) (e : Editing),
      (∀ site ∈ sites, ∀ name, site.2.name = some name → A name) →
      Obeys (Project.adding J A C M) (sites.foldlM applySprite e) := by
    intro sites
    induction sites with
    | nil => exact fun e _ => obeys_pure e
    | cons site sites ih =>
      exact fun e hsites => (adding_applySprite e site (hsites site List.mem_cons_self)).bind
        fun e' => ih e' fun s hs => hsites s (List.mem_cons_of_mem _ hs)
  exact (hsprites refs.sprites e h).bind fun _ => obeys_get.bind fun _ => (obeys_lift _).bind
    fun _ => (adding_applyMessages _ _ _).bind fun _ => obeys_lift _

end Resources

theorem Session.adding_render (file : String) (script : Script) (refs : References)
    (overrides : List Override) (o : Script.WriteOptions)
    (h : ∀ site ∈ refs.sprites, ∀ name, site.2.name = some name → A name) :
    Obeys (Project.adding J A C M) (render file script refs overrides o) :=
  (obeys_lift _).bind fun _ => (Resources.adding_apply _ _ _ h).bind fun _ => obeys_lift _

/-- A law over a list, where the step may use that its element is one of the list. -/
theorem Step.obeys_mapM_of_mem {σ α β : Type} {L : Law σ} {f : α → Step σ β} :
    ∀ as : List α, (∀ a ∈ as, Obeys L (f a)) → Obeys L (as.mapM f)
  | [], _ => obeys_pure []
  | a :: as, h => by
    rw [List.mapM_cons]
    exact (h a List.mem_cons_self).bind fun b =>
      (obeys_mapM_of_mem as fun c hc => h c (List.mem_cons_of_mem _ hc)).bind fun bs =>
        obeys_pure (b :: bs)

theorem Step.obeys_forM_of_mem {σ α : Type} {L : Law σ} {f : α → Step σ PUnit} :
    ∀ as : List α, (∀ a ∈ as, Obeys L (f a)) → Obeys L (as.forM f)
  | [], _ => obeys_pure _
  | a :: as, h => (h a List.mem_cons_self).bind fun _ =>
    obeys_forM_of_mem as fun b hb => h b (List.mem_cons_of_mem _ hb)

/-- Filling in the page head notes the assets that the template names. -/
theorem Page.adding_expandHead (p : Project) (h : ∀ template, p.config.htmlHead = some template →
    ∀ name, Page.Piece.asset name ∈ Page.pieces template → A (String.ofList name)) :
    (Project.adding J A C M).Allows p (Page.expandHead p) := by
  unfold Page.expandHead
  refine Law.Allows.bind (obeys_get p) fun q t hq => ?_
  obtain ⟨rfl, rfl⟩ := (get_ok_iff q p t).mp hq
  have hset : ∀ head, Obeys (Project.adding J A C M)
      (modify fun p => { p with htmlHead := head } : Step Project PUnit) := fun head =>
    obeys_modify fun _ => .of_eq rfl rfl rfl rfl
  cases htemplate : p.config.htmlHead with
  | none => exact hset "" p
  | some template =>
    refine (obeys_mapM_of_mem _ fun piece hpiece => ?_).bind (fun texts => hset _) p
    cases piece with
    | text cs => exact obeys_pure _
    | asset name =>
      exact (adding_shorten _).bind fun output =>
        (adding_addAsset output (h template htemplate name hpiece)).bind fun _ => obeys_pure _

/-- Mapping the references of a style sheet asks for the references into the project only. -/
theorem Stylesheet.obeys_mapUrls_of_mem {L : Law Project} (css : String)
    {target : String → Step Project String}
    (h : ∀ quote content written, Piece.url quote content written ∈ pieces css.toList →
      isInternal (Text.trim content) = true → Obeys L (target (String.ofList (Text.trim content)))) :
    Obeys L (mapUrls css target) := by
  refine (obeys_mapM_of_mem _ fun piece hpiece => ?_).bind fun _ => obeys_pure _
  cases piece with
  | text cs => exact obeys_pure _
  | url quote content written =>
    unfold mapPiece
    simp only
    split
    · rename_i hinternal
      exact (h quote content written hpiece hinternal).bind fun _ => obeys_pure _
    · exact obeys_pure _

theorem Stylesheet.obeys_concatenate_of_mem {L : Law Project} (sources : List (String × String))
    {target : String → String → Step Project String}
    (h : ∀ source ∈ sources, ∀ quote content written,
      Piece.url quote content written ∈ pieces source.2.toList →
      isInternal (Text.trim content) = true →
      Obeys L (target (String.ofList (Text.trim content)) source.1)) :
    Obeys L (concatenate sources target) :=
  (obeys_mapM_of_mem sources fun source hsource =>
    obeys_mapUrls_of_mem source.2 (h source hsource)).bind fun _ => obeys_pure _

theorem Assembly.adding_mergedReference {url sheet : String} (h : A (target url sheet).1) :
    Obeys (Project.adding J A C M) (mergedReference url sheet) :=
  (adding_shorten _).bind fun output => (adding_addAsset output h).bind fun _ =>
    Obeys.bind (obeys_modifyGet fun _ => .of_eq rfl rfl rfl rfl) fun _ => obeys_pure _

theorem Assembly.adding_plainReference {url sheet : String} (h : A (target url sheet).1) :
    Obeys (Project.adding J A C M) (plainReference url sheet) := by
  refine Obeys.bind (obeys_modify fun p => ?_) fun _ => obeys_pure _
  refine ⟨fun _ hjs => hjs, fun _ hname => OrderedMap.keys_insertNew _ _ hname,
    fun _ hjs => .inl hjs, fun name hname => ?_, fun _ hcss => .inl hcss, fun _ hid => .inl hid,
    fun hA => absurd h (hA _)⟩
  rcases OrderedMap.mem_keys_insertNew hname with rfl | hold
  · exact .inr h
  · exact .inl hold

end Steps

/-! ## Steps of a workspace -/

section Workspaces

theorem adding_onProject {α : Type} {step : Step Project α}
    (h : Obeys (Project.adding J A C M) step) : Obeys (Workspace.adding J A C M) (onProject step) :=
  obeys_on (fun _ _ hadds => hadds) (fun _ _ _ => trivial) h

/-- The cache has no part in what is noted. -/
theorem adding_onCache {α : Type} (f : Disk → String → Cache → α × Cache) :
    Obeys (Workspace.adding J A C M) (onCache f) := obeys_onCache fun _ => .of_eq rfl rfl rfl rfl

theorem adding_changeEntry (id : Nat) (f : Entry → Entry) :
    Obeys (Workspace.adding J A C M) (changeEntry id f) := obeys_modify fun _ => .of_eq rfl rfl rfl rfl

theorem adding_enter (phase : Phase) : Obeys (Workspace.adding J A C M) (enter phase) :=
  obeys_modify fun _ => .of_eq rfl rfl rfl rfl

theorem adding_say (line : String) : Obeys (Workspace.adding J A C M) (say line) :=
  obeys_modify fun _ => .of_eq rfl rfl rfl rfl

theorem adding_write (path : String) (content : Bytes) :
    Obeys (Workspace.adding J A C M) (write path content) := by
  refine obeys_modify fun w => ?_
  change Project.Adds J A C M w.project (w.written path content).project
  unfold Workspace.written
  split
  · simp only [Project.write]
    split <;> exact .of_eq rfl rfl rfl rfl
  · exact .of_eq rfl rfl rfl rfl

theorem walking_adding : Walking (Workspace.adding J A C M) where
  get _ _ := .of_eq rfl rfl rfl rfl
  look _ _ := .of_eq rfl rfl rfl rfl
  mark _ _ _ := .of_eq rfl rfl rfl rfl
  unmark _ := .of_eq rfl rfl rfl rfl

/-! ### The search for modules -/

namespace ModuleSearch

private theorem adding_exists? (name : String) :
    Obeys (Workspace.adding J A C M) (exists? name) :=
  (adding_onCache _).bind fun _ => (obeys_entry _).bind fun _ => obeys_pure _

private theorem adding_findSource (key base js : String) (relative : Bool) (exts : List String) :
    Obeys (Workspace.adding J A C M) (findSource key base js relative exts) := by
  induction exts with
  | nil => exact obeys_pure _
  | cons ext exts ih =>
    refine (adding_exists? _).bind fun found => ?_
    split
    · exact Obeys.bind (obeys_modify fun _ => .of_eq rfl rfl rfl rfl) fun _ => obeys_pure _
    · exact ih

/-- A file that says what a script exports: the script itself, or the declaration file beside it. -/
def Declares (file js : String) : Prop := file = js ∨ ∃ base, file = base ++ ".d.ts" ∧ js = base ++ ".js"

/-- The scripts that a search may note where it ends with an answer. -/
def Takes (found : Option FoundModule) (js : String) : Prop :=
  ∃ m, found = some m ∧ Declares m.file js

private theorem recordTakenOver_adds {key base definition js : String} {relative : Bool}
    {m : FoundModule} {w w' : Workspace} (hjs : Declares definition js)
    (h : recordTakenOver key base definition js relative w = .ok m w') :
    Project.Adds (Takes (some m)) A C M w.project w'.project := by
  unfold recordTakenOver at h
  obtain ⟨u, v, hadd, h⟩ := (bind_ok_iff _ _ _ _ _).mp h
  obtain ⟨u', v', hrecord, h⟩ := (bind_ok_iff _ _ _ _ _).mp h
  obtain ⟨hm, rfl⟩ := (pure_ok_iff _ _ _ _).mp h
  rw [← (modify_ok_iff _ _ _ _).mp hrecord, ← (modify_ok_iff _ _ _ _).mp hadd]
  refine ⟨fun j hj => (mem_keys_insert _ _ _ _).mpr (.inr hj), fun _ hname => hname, fun j hj => ?_,
    fun _ hname => .inl hname, fun _ hcss => .inl hcss, fun _ hid => .inl hid, fun _ => rfl⟩
  rcases (mem_keys_insert _ _ _ _).mp hj with rfl | hold
  · exact .inr ⟨m, rfl, by rw [← hm]; exact hjs⟩
  · exact .inl hold

/-- A search under a base name notes a script only for the module that it finds. -/
theorem findAt_adds {key base : String} {relative : Bool} {found : Option FoundModule}
    {w w' : Workspace} (h : findAt key base relative w = .ok found w') :
    Project.Adds (Takes found) A C M w.project w'.project := by
  have hjs : ∀ {v v' : Workspace}, (do
      if ← exists? (base ++ ".js") then
        return some (← recordTakenOver key base (base ++ ".js") (base ++ ".js") relative)
      return none : Step Workspace (Option FoundModule)) v = .ok found v' →
      Project.Adds (Takes found) A C M v.project v'.project := by
    intro v v' hrun
    obtain ⟨b, v₁, hb, hrun⟩ := (bind_ok_iff _ _ _ _ _).mp hrun
    refine ((adding_exists? _).ok hb).trans ?_
    cases b with
    | false =>
      obtain ⟨-, rfl⟩ := (pure_ok_iff _ _ _ _).mp hrun
      exact .of_eq rfl rfl rfl rfl
    | true =>
      obtain ⟨m, v₂, htaken, hrun⟩ := (bind_ok_iff _ _ _ _ _).mp hrun
      obtain ⟨rfl, rfl⟩ := (pure_ok_iff _ _ _ _).mp hrun
      exact recordTakenOver_adds (.inl rfl) htaken
  unfold findAt at h
  obtain ⟨source, v, hsource, h⟩ := (bind_ok_iff _ _ _ _ _).mp h
  refine ((adding_findSource _ _ _ _ _).ok hsource).trans ?_
  cases source with
  | some m =>
    obtain ⟨-, rfl⟩ := (pure_ok_iff _ _ _ _).mp h
    exact .of_eq rfl rfl rfl rfl
  | none =>
    obtain ⟨declared, v₁, hdecl, h⟩ := (bind_ok_iff _ _ _ _ _).mp h
    refine ((adding_exists? _).ok hdecl).trans ?_
    cases declared with
    | false => exact hjs h
    | true =>
      obtain ⟨there, v₂, hthere, h⟩ := (bind_ok_iff _ _ _ _ _).mp h
      refine ((adding_exists? _).ok hthere).trans ?_
      cases there with
      | false => exact hjs h
      | true =>
        obtain ⟨m, v₃, htaken, h⟩ := (bind_ok_iff _ _ _ _ _).mp h
        obtain ⟨rfl, rfl⟩ := (pure_ok_iff _ _ _ _).mp h
        exact recordTakenOver_adds (.inr ⟨base, rfl, rfl⟩) htaken

private theorem findIn_adds {specifier : String} {found : Option FoundModule} :
    ∀ {dirs : List String} {w w' : Workspace}, findIn specifier dirs w = .ok found w' →
      Project.Adds (Takes found) A C M w.project w'.project
  | [], w, w', h => by
    obtain ⟨-, rfl⟩ := (pure_ok_iff _ _ _ _).mp h
    exact .of_eq rfl rfl rfl rfl
  | dir :: dirs, w, w', h => by
    unfold findIn at h
    obtain ⟨first, v, hat, h⟩ := (bind_ok_iff _ _ _ _ _).mp h
    have hfirst : Project.Adds (Takes first) A C M w.project v.project := findAt_adds hat
    cases first with
    | some m =>
      obtain ⟨rfl, rfl⟩ := (pure_ok_iff _ _ _ _).mp h
      exact hfirst
    | none =>
      refine Project.Adds.trans (hfirst.mono_scripts fun js htakes => ?_)
        (findIn_adds h)
      obtain ⟨m, hm, -⟩ := htakes
      exact absurd hm (by simp)

/-- What is said about an import leaves the answer as it is. -/
private theorem findAt_orSay_adds {key base specifier file : String} {relative : Bool}
    {found : Option FoundModule} {w w' : Workspace}
    (h : (do orSay specifier file (← findAt key base relative) :
      Step Workspace (Option FoundModule)) w = .ok found w') :
    Project.Adds (Takes found) A C M w.project w'.project := by
  obtain ⟨answer, v, hat, h⟩ := (bind_ok_iff _ _ _ _ _).mp h
  have hadds : Project.Adds (Takes answer) A C M w.project v.project := findAt_adds hat
  unfold orSay at h
  split at h
  · obtain ⟨u, v', hsay, h⟩ := (bind_ok_iff _ _ _ _ _).mp h
    obtain ⟨rfl, rfl⟩ := (pure_ok_iff _ _ _ _).mp h
    exact hadds.trans ((adding_say _).ok hsay)
  · obtain ⟨rfl, rfl⟩ := (pure_ok_iff _ _ _ _).mp h
    exact hadds

private theorem findRelative_adds {specifier file : String} {found : Option FoundModule}
    {w w' : Workspace} (h : findRelative specifier file w = .ok found w') :
    Project.Adds (Takes found) A C M w.project w'.project := by
  unfold findRelative at h
  split at h
  · obtain ⟨u, v, hsay, h⟩ := (bind_ok_iff _ _ _ _ _).mp h
    exact Project.Adds.trans ((adding_say _).ok hsay) (findAt_orSay_adds h)
  · exact findAt_orSay_adds h

private theorem findPackage_adds {specifier file : String} {found : Option FoundModule}
    {w w' : Workspace} (h : findPackage specifier file w = .ok found w') :
    Project.Adds (Takes found) A C M w.project w'.project := by
  unfold findPackage at h
  obtain ⟨id, v, hcontent, h⟩ := (bind_ok_iff _ _ _ _ _).mp h
  refine Project.Adds.trans ((adding_onCache _).ok hcontent) ?_
  obtain ⟨e, v', he, h⟩ := (bind_ok_iff _ _ _ _ _).mp h
  obtain ⟨-, rfl⟩ := (entry_ok_iff _ _ _ _).mp he
  cases htext : e.text? with
  | none =>
    rw [htext] at h
    obtain ⟨-, rfl⟩ := (pure_ok_iff _ _ _ _).mp h
    exact .of_eq rfl rfl rfl rfl
  | some text =>
    rw [htext] at h
    simp only at h
    cases hpackage : readPackage text with
    | error e =>
      rw [hpackage] at h
      obtain ⟨u, v', hsay, h⟩ := (bind_ok_iff _ _ _ _ _).mp h
      obtain ⟨-, rfl⟩ := (pure_ok_iff _ _ _ _).mp h
      exact (adding_say _).ok hsay
    | ok main =>
      rw [hpackage] at h
      exact findAt_orSay_adds h

/-- A search notes a script only for the module that it finds. -/
theorem find_adds {specifier file : String} {found : Option FoundModule} {w w' : Workspace}
    (h : find specifier file w = .ok found w') :
    Project.Adds (Takes found) A C M w.project w'.project := by
  unfold find at h
  split at h
  · exact findRelative_adds h
  · obtain ⟨first, v, hin, h⟩ := (bind_ok_iff _ _ _ _ _).mp h
    have hfirst : Project.Adds (Takes first) A C M w.project v.project := findIn_adds hin
    cases first with
    | some m =>
      obtain ⟨rfl, rfl⟩ := (pure_ok_iff _ _ _ _).mp h
      exact hfirst
    | none =>
      refine Project.Adds.trans (hfirst.mono_scripts fun js htakes => ?_)
        (findPackage_adds h)
      obtain ⟨m, hm, -⟩ := htakes
      exact absurd hm (by simp)

end ModuleSearch

/-- The search for imports notes scripts for those that it finds. -/
theorem Session.findImports_adds {file : String} :
    ∀ {specifiers : List String} {deps : List (String × String)} {w w' : Workspace},
      findImports file specifiers w = .ok deps w' →
      Project.Adds (fun js => ∃ d ∈ deps, ModuleSearch.Declares d.2 js) A C M w.project w'.project
  | [], deps, w, w', h => by
    obtain ⟨-, rfl⟩ := (pure_ok_iff _ _ _ _).mp h
    exact .of_eq rfl rfl rfl rfl
  | specifier :: rest, deps, w, w', h => by
    obtain ⟨found, w₁, hfound, h⟩ := (bind_ok_iff _ _ _ _ _).mp h
    obtain ⟨others, w₂, hothers, h⟩ := (bind_ok_iff _ _ _ _ _).mp h
    have hone : Project.Adds (ModuleSearch.Takes found) A C M w.project w₁.project :=
      ModuleSearch.find_adds hfound
    have hrest := findImports_adds hothers
    cases found with
    | none =>
      obtain ⟨rfl, rfl⟩ := (pure_ok_iff _ _ _ _).mp h
      refine Project.Adds.trans (hone.mono_scripts fun js htakes => ?_) hrest
      obtain ⟨m, hm, -⟩ := htakes
      exact absurd hm (by simp)
    | some m =>
      obtain ⟨rfl, rfl⟩ := (pure_ok_iff _ _ _ _).mp h
      refine Project.Adds.trans (hone.mono_scripts fun js htakes => ?_)
        (hrest.mono_scripts fun js hjs => ?_)
      · obtain ⟨m', hm, hdecl⟩ := htakes
        obtain rfl := Option.some.inj hm
        exact ⟨_, List.mem_cons_self, hdecl⟩
      · obtain ⟨d, hd, hdecl⟩ := hjs
        exact ⟨d, List.mem_cons_of_mem _ hd, hdecl⟩

/-! ### Stages that note nothing -/

namespace Session

theorem adding_prepareOverrides (program : List String) :
    Obeys (Workspace.adding J A C M) (prepareOverrides program) :=
  obeys_get.bind fun _ => (obeys_mapM (obeys_moduleOverrides adding_say program) _).bind fun _ =>
    obeys_pure _

private theorem adding_imageSizes (names : List String) :
    Obeys (Workspace.adding J A C M) (imageSizes names) := by
  induction names with
  | nil => exact obeys_pure _
  | cons name names ih =>
    exact (adding_onCache _).bind fun id => (obeys_entry id).bind fun _ => ih.bind fun _ =>
      obeys_pure _

theorem adding_buildAtlas : Obeys (Workspace.adding J A C M) buildAtlas := by
  have hencode : ∀ image output,
      Obeys (Workspace.adding J A C M) (encodeAtlas image output) := by
    intro image output
    unfold encodeAtlas
    refine obeys_get.bind fun w => ?_
    split
    · exact obeys_pure _
    · simp only
      split
      · exact adding_write _ _
      · exact obeys_throw fun _ => trivial
  unfold buildAtlas
  refine obeys_get.bind fun w => ?_
  simp only
  split
  · exact obeys_pure _
  · refine (adding_imageSizes _).bind fun sizes => (obeys_lift _).bind fun r => ?_
    have hatlas : Obeys (Workspace.adding J A C M) (changeProject fun p => { p with atlas := r.2 }) :=
      obeys_modify fun _ => .of_eq rfl rfl rfl rfl
    have hpng : ∀ output : String, Obeys (Workspace.adding J A C M)
        (changeProject fun p => { p with bundlePng := some output }) := fun _ =>
      obeys_modify fun _ => .of_eq rfl rfl rfl rfl
    exact hatlas.bind fun _ => (adding_onProject (adding_shorten _)).bind fun output =>
      (hpng output).bind fun _ => (hencode _ _).bind fun _ => obeys_pure _

theorem adding_deliver (file jsName : String) (refs : References) (written : Script.Written) :
    Obeys (Workspace.adding J A C M) (deliver file jsName refs written) := by
  have hinsert : ∀ (id js : String) (sourceMap : Option SourceMap) (deps : List String),
      Obeys (Workspace.adding J A C M) (changeProject fun p =>
        { p with emitted := p.emitted.insert id ⟨id, js, sourceMap, deps, false⟩ }) :=
    fun id js sourceMap deps => obeys_modify fun w =>
      w.project.adds_emitted fun h => absurd h (by simp)
  have hkeep : Obeys (Workspace.adding J A C M) (keepModule file refs written) := by
    unfold keepModule
    simp only
    split
    · exact (obeys_pure _).bind fun _ => (obeys_lift _).bind fun _ => (obeys_lift _).bind fun _ =>
        hinsert _ _ _ _
    · split
      · exact (obeys_pure _).bind fun _ => (obeys_lift _).bind fun _ => (obeys_lift _).bind fun _ =>
          hinsert _ _ _ _
      · exact (obeys_throw fun _ => trivial).bind fun _ => (obeys_lift _).bind fun _ =>
          (obeys_lift _).bind fun _ => hinsert _ _ _ _
  have hrest : Obeys (Workspace.adding J A C M) (deliverJs file jsName refs written) := by
    refine obeys_get.bind fun w => ?_
    split
    · exact hkeep
    · unfold writeJs
      cases written.sourceMap with
      | none => exact adding_write _ _
      | some text => exact (adding_write _ _).bind fun _ => adding_write _ _
  unfold deliver
  cases written.declaration with
  | none => exact hrest
  | some text => exact (adding_write _ _).bind fun _ => hrest

end Session

namespace Assembly

/-- A script that is taken over becomes a copied module at most. -/
private theorem adding_takeOver (bundled : Bool) {source : String} (output text : String)
    (h : ∀ id, Path.moduleId source = .ok id → M id) :
    Obeys (Workspace.adding J A C M) (takeOver bundled source output text) := by
  unfold takeOver
  split
  · intro w
    refine Law.Allows.bind (obeys_lift _ w) fun id t hlift => ?_
    obtain ⟨hid, rfl⟩ := (lift_ok_iff _ _ _ _).mp hlift
    exact w.project.adds_emitted fun _ => h id hid
  · exact adding_write _ _

/-- Scripts are copied if they are noted. -/
theorem adding_copyDependencyJs (w : Workspace)
    (h : ∀ js ∈ w.project.depJs.keys, ∀ id, Path.moduleId js = .ok id → M id) :
    (Workspace.adding J A C M).Allows w (copyDependencyJs w) := by
  have hscript : ∀ bundled, ∀ script ∈ w.project.depJs.toList,
      Obeys (Workspace.adding J A C M) (copyScript bundled script) := by
    intro bundled script hmem
    unfold copyScript
    refine (adding_onCache _).bind fun id => (obeys_entry id).bind fun e => ?_
    split
    · exact adding_say _
    · split
      · refine (adding_onCache _).bind fun _ => (obeys_entry id).bind fun e => ?_
        split
        · exact adding_say _
        · exact (adding_takeOver _ _ _ (h script.1 (List.mem_map_of_mem hmem))).bind fun _ =>
            adding_changeEntry _ _
      · exact obeys_pure _
  unfold copyDependencyJs
  refine Law.Allows.bind (adding_enter _ w) fun u t ht => ?_
  obtain rfl := (modify_ok_iff _ _ _ _).mp ht
  refine Law.Allows.bind (obeys_get _) fun v t hget => ?_
  obtain ⟨rfl, rfl⟩ := (get_ok_iff _ _ _).mp hget
  exact obeys_forM_of_mem w.project.depJs.toList (hscript _) _

theorem adding_findSheets (names : List String) :
    Obeys (Workspace.adding J A C M) (findSheets names) := by
  induction names with
  | nil => exact obeys_pure _
  | cons name names ih =>
    unfold findSheets
    refine (obeys_lift _).bind fun css => ?_
    split
    · refine (adding_onCache _).bind fun id => (obeys_entry id).bind fun e => ih.bind fun rest => ?_
      split <;> exact obeys_pure _
    · exact ih

theorem adding_sheetText (id : Nat) : Obeys (Workspace.adding J A C M) (sheetText id) :=
  (adding_onCache _).bind fun _ => (obeys_entry id).bind fun _ => obeys_pure _

theorem adding_sheetTexts (sheets : List Sheet) :
    Obeys (Workspace.adding J A C M) (sheetTexts sheets) := by
  induction sheets with
  | nil => exact obeys_pure _
  | cons s ss ih =>
    refine (adding_sheetText s.id).bind fun text => ih.bind fun rest => ?_
    split <;> exact obeys_pure _

theorem adding_copyAsset (asset : String × String) :
    Obeys (Workspace.adding J A C M) (copyAsset asset) := by
  have hrest : ∀ id bytes, ∀ elsewhere : Bool, Obeys (Workspace.adding J A C M) (do
      if !elsewhere then write asset.2 bytes
      changeEntry id fun e => { e with outputTime := e.current }) := by
    intro id bytes elsewhere
    split
    · exact (adding_write _ _).bind fun _ => adding_changeEntry _ _
    · exact adding_changeEntry _ _
  unfold copyAsset
  refine (adding_onCache _).bind fun id => (obeys_entry id).bind fun e => ?_
  split
  · exact adding_say _
  · split
    · refine (adding_onCache _).bind fun _ => (obeys_entry id).bind fun e => ?_
      split
      · exact adding_say _
      · refine (obeys_lift _).bind fun css => ?_
        split
        · exact (obeys_pure _).bind (hrest id _)
        · exact (obeys_lift _).bind (hrest id _)
    · exact obeys_pure _

theorem adding_assemble : Obeys (Workspace.adding J A C M) assemble := by
  have hscripts : ∀ names, Obeys (Workspace.adding J A C M) (scriptAssets names) := by
    intro names
    induction names with
    | nil => exact obeys_pure _
    | cons name names ih =>
      unfold scriptAssets
      refine (obeys_lift _).bind fun js => ?_
      split
      · exact (adding_onCache _).bind fun id => (adding_onCache _).bind fun _ =>
          (obeys_entry id).bind fun _ => ih.bind fun _ => obeys_pure _
      · exact ih
  unfold assemble
  refine (adding_enter _).bind fun _ => obeys_get.bind fun v => ?_
  simp only
  split
  · exact obeys_pure _
  · refine (obeys_lift _).bind fun entries => (hscripts _).bind fun blobs => ?_
    split
    · exact obeys_pure _
    · exact obeys_get.bind fun _ => adding_write _ _
    · unfold writeFast
      refine (adding_onProject (obeys_modifyGet fun _ => .of_eq rfl rfl rfl rfl)).bind fun short =>
        obeys_get.bind fun w => ?_
      simp only
      split
      · exact obeys_throw fun _ => trivial
      · exact (adding_write _ _).bind fun _ => adding_write _ _

end Assembly

end Workspaces

end Bundler

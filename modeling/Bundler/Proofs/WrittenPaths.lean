/-
Where a cycle writes.

Most names of written files are names of files that were found: of those in the program, of scripts
that are taken over, and of assets. The others are made up, and made up names lead into the output
directory. So a cycle writes nowhere but to its targets (`Project.Target`), and if the names that they
come from are inner, everything that it writes is inner (`Session.InRoot.writes_inner`), and on the disk nothing
outside of the output directory is changed (`Session.InRoot.outside_stays`).

The condition on the names is needed. A file outside of the directory of a project keeps a name that
leads there, and what is made of the file goes beside it.

For this the output must go to no directory of its own, whose name may be any, in all cycles
(`Session.InRoot`).
-/
import Bundler.Proofs.Edits
import Bundler.Proofs.InnerPaths
import Bundler.Proofs.Overall

set_option autoImplicit false

namespace Bundler

open Workspace Step

variable {α β : Type} {program : List String}

/-! ## Targets -/

/-- The paths to which a build may write, by what a project notes and the program that is built. -/
inductive Project.Target (p : Project) (program : List String) : String → Prop where
  /-- The bundle, its style sheet and its image, and assets under short names. -/
  | own {path : String} (h : ShortNames.Own path) : Target p program path
  | ownMap {path : String} (h : ShortNames.Own path) : Target p program (path ++ ".map")
  | script {file js : String} (h : file ∈ program) (hjs : Path.withJsExtension file = .ok js)
      (hbundle : p.config.bundle = .none) : Target p program js
  | scriptMap {file js : String} (h : file ∈ program) (hjs : Path.withJsExtension file = .ok js)
      (hbundle : p.config.bundle = .none) : Target p program (js ++ ".map")
  | declaration {file js : String} (h : file ∈ program) (hjs : Path.withJsExtension file = .ok js)
      (hdeclaration : p.config.declaration = true) :
      Target p program (Path.stripExtension js ++ ".d.ts")
  | takenOver {file : String} (h : file ∈ p.depJs.keys) (hbundle : p.config.bundle = .none) :
      Target p program file
  | asset {name : String} (h : name ∈ p.depAssets.keys) : Target p program name

namespace Project

variable {p p' : Project} {path name output : String}

/-- Targets stay targets when more is found. -/
theorem Target.mono (h : p.Target program path) (hconfig : p'.config = p.config)
    (hjs : ∀ k ∈ p.depJs.keys, k ∈ p'.depJs.keys)
    (hassets : ∀ k ∈ p.depAssets.keys, k ∈ p'.depAssets.keys) : p'.Target program path := by
  cases h with
  | own h => exact .own h
  | ownMap h => exact .ownMap h
  | script h hfile hbundle => exact .script h hfile (hconfig ▸ hbundle)
  | scriptMap h hfile hbundle => exact .scriptMap h hfile (hconfig ▸ hbundle)
  | declaration h hfile hdeclaration => exact .declaration h hfile (hconfig ▸ hdeclaration)
  | takenOver h hbundle => exact .takenOver (hjs _ h) (hconfig ▸ hbundle)
  | asset h => exact .asset (hassets _ h)

/-- What an asset may be called is a target. -/
theorem Target.of_isOutput (h : IsOutput name output) (hname : name ∈ p.depAssets.keys) :
    p.Target program output := by
  rcases h with hown | rfl
  · exact .own hown
  · exact .asset hname

/-- The names of found files that targets come from. -/
inductive NamesOutput (p : Project) (program : List String) : String → Prop where
  | source {file : String} (h : file ∈ program)
      (hwritten : p.config.bundle = .none ∨ p.config.declaration = true) : NamesOutput p program file
  | takenOver {file : String} (h : file ∈ p.depJs.keys) (hbundle : p.config.bundle = .none) :
      NamesOutput p program file
  | asset {name : String} (h : name ∈ p.depAssets.keys) : NamesOutput p program name

/-- A target is inner if the name that it comes from is. -/
theorem Target.inner (h : p.Target program path)
    (hnames : ∀ name, p.NamesOutput program name → Path.Inner name) : Path.Inner path := by
  cases h with
  | own h => exact Path.inner_of_own h
  | ownMap h => exact (Path.inner_of_own h).map
  | script h hjs hbundle => exact (hnames _ (.source h (.inl hbundle))).withJsExtension hjs
  | scriptMap h hjs hbundle => exact ((hnames _ (.source h (.inl hbundle))).withJsExtension hjs).map
  | declaration h hjs hdeclaration =>
    exact ((hnames _ (.source h (.inr hdeclaration))).withJsExtension hjs).declaration
  | takenOver h hbundle => exact hnames _ (.takenOver h hbundle)
  | asset h => exact hnames _ (.asset h)

end Project

/-- A write changes what was written and what is said. -/
theorem Project.write_eq (p : Project) (path : String) (content : Bytes) :
    ∃ output log, p.write path content = { p with output, log } ∧
      ∀ e ∈ output.writes, e ∈ p.output.writes ∨ e = (path, content) := by
  unfold Project.write Output.write
  cases p.output.failing.lookup path with
  | some reason => exact ⟨_, _, rfl, fun _ h => .inl h⟩
  | none =>
    refine ⟨_, _, rfl, fun e he => ?_⟩
    exact (List.mem_append.mp he).imp_right List.mem_singleton.mp

/-! ## Steps that write to targets -/

/-- A change of a workspace in which files are written to targets only. -/
structure Workspace.Aimed (program : List String) (w w' : Workspace) : Prop where
  config : w'.project.config = w.project.config
  dir : w'.project.dir = w.project.dir
  destination : w'.destination = w.destination
  depJs : ∀ k ∈ w.project.depJs.keys, k ∈ w'.project.depJs.keys
  depAssets : ∀ k ∈ w.project.depAssets.keys, k ∈ w'.project.depAssets.keys
  named : w.project.Named → w'.project.Named
  writes : ∀ e ∈ w'.project.output.writes,
    e ∈ w.project.output.writes ∨ w'.project.Target program e.1
  fills : ∀ t ∈ w.destination, t.Fills (w'.project.Target program) w.disk w'.disk

namespace Workspace.Aimed

variable {w w' w'' : Workspace}

theorem of_same (hproject : w'.project = w.project) (hdest : w'.destination = w.destination)
    (hdisk : w'.disk = w.disk) : w.Aimed program w' where
  config := congrArg _ hproject
  dir := congrArg _ hproject
  destination := hdest
  depJs _ hk := by rwa [hproject]
  depAssets _ hk := by rwa [hproject]
  named hw := by rwa [hproject]
  writes e he := .inl (by rwa [← hproject])
  fills t _ := by
    rw [hdisk]
    exact .refl

theorem of_quiet {p : Project} (h : w.project.Quiet p) :
    w.Aimed program { w with project := p } where
  config := h.config
  dir := h.dir
  destination := rfl
  depJs := h.depJs
  depAssets := h.depAssets
  named := h.named
  writes e he := .inl (by rwa [← h.output])
  fills _ _ := .refl

theorem target {path : String} (h : w.Aimed program w') (hpath : w.project.Target program path) :
    w'.project.Target program path :=
  hpath.mono h.config h.depJs h.depAssets

theorem trans (h : w.Aimed program w') (h' : w'.Aimed program w'') : w.Aimed program w'' where
  config := h'.config.trans h.config
  dir := h'.dir.trans h.dir
  destination := h'.destination.trans h.destination
  depJs k hk := h'.depJs k (h.depJs k hk)
  depAssets k hk := h'.depAssets k (h.depAssets k hk)
  named hw := h'.named (h.named hw)
  writes e he := by
    rcases h'.writes e he with hold | hnew
    · exact (h.writes e hold).imp_right h'.target
    · exact .inr hnew
  fills t ht :=
    ((h.fills t ht).mono fun _ => h'.target).trans (h'.fills t (h.destination ▸ ht))

/-- The modules of the bundle and the layout of the atlas name no file. -/
theorem of_emitted (w : Workspace) (emitted : Modules) :
    w.Aimed program { w with project := { w.project with emitted } } :=
  ⟨rfl, rfl, rfl, fun _ h => h, fun _ h => h, fun h => h.congr rfl rfl rfl rfl rfl, fun _ h => .inl h,
    fun _ _ => .refl⟩

theorem of_atlas (w : Workspace) (atlas : Atlas) :
    w.Aimed program { w with project := { w.project with atlas } } :=
  ⟨rfl, rfl, rfl, fun _ h => h, fun _ h => h, fun h => h.congr rfl rfl rfl rfl rfl, fun _ h => .inl h,
    fun _ _ => .refl⟩

/-- A file is written to a target, or it is said that it cannot be written. -/
theorem of_write {path : String} (h : w.project.Target program path) (content : Bytes) :
    w.Aimed program (w.written path content) := by
  have hwrite : ∀ disk, (∀ t ∈ w.destination, t.Fills (w.project.Target program) w.disk disk) →
      w.Aimed program { w with disk, project := w.project.write path content } := by
    intro disk hfills
    obtain ⟨output, log, heq, hwrites⟩ := w.project.write_eq path content
    have htarget : ∀ path, w.project.Target program path →
        ({ w.project with output, log } : Project).Target program path := fun _ hpath =>
      hpath.mono rfl (fun _ hk => hk) fun _ hk => hk
    rw [heq]
    refine ⟨rfl, rfl, rfl, fun _ hk => hk, fun _ hk => hk, fun hw => hw.congr rfl rfl rfl rfl rfl,
      fun e he => (hwrites e he).imp_right fun hnew => ?_, fun t ht => (hfills t ht).mono htarget⟩
    rw [hnew]
    exact htarget path h
  unfold Workspace.written
  split
  · rename_i disk hput
    apply hwrite
    intro t ht
    rw [ht] at hput
    cases ht' : t.put w.disk path content with
    | error e =>
      rw [Option.mapM_some, ht'] at hput
      cases hput
    | ok d =>
      rw [Option.mapM_some, ht'] at hput
      cases hput
      exact .put .refl h ht'
  · exact .of_quiet (.of_parts rfl)

end Workspace.Aimed

/-- The law of steps that write to targets. -/
private def aiming (program : List String) : Law Workspace where
  moves := Workspace.Aimed program
  fails _ _ := True
  refl _ := .of_same rfl rfl rfl
  trans := Workspace.Aimed.trans
  back _ _ := trivial
  fault _ _ := trivial

private theorem looking_aiming : Looking (aiming program) where
  config h := h.config
  dir h := h.dir
  enter _ _ := .of_same rfl rfl rfl
  get _ _ := .of_same rfl rfl rfl
  look _ _ := .of_same rfl rfl rfl
  text _ _ := .of_same rfl rfl rfl
  buffer _ _ := .of_same rfl rfl rfl
  quiet _ _ h := .of_quiet h

private theorem loading_aiming : Bundler.Loading (aiming program) fun _ => True where
  toLooking := looking_aiming
  script _ _ _ _ _ _ _ _ _ _ := .of_same rfl rfl rfl
  refs _ _ _ _ _ _ := Session.allows_refreshReferences looking_aiming
    fun _ _ _ _ _ _ _ _ h => h.trans (.of_same rfl rfl rfl)

private theorem walking_aiming : Walking (aiming program) where
  get _ _ := .of_same rfl rfl rfl
  look _ _ := .of_same rfl rfl rfl
  mark _ _ _ := .of_same rfl rfl rfl
  unmark _ := .of_same rfl rfl rfl

namespace Session

/-- A step writes to targets only if the names of the project are in order. -/
private abbrev Aims (program : List String) (step : Step Workspace α) : Prop :=
  ObeysWhere (aiming program) (fun w => w.project.Named) step

private theorem Aims.bind {x : Step Workspace α} {f : α → Step Workspace β} (hx : Aims program x)
    (hf : ∀ a, Aims program (f a)) : Aims program (x >>= f) :=
  ObeysWhere.bind Workspace.Aimed.named hx hf

private theorem allows_write {w : Workspace} {path : String} (h : w.project.Target program path)
    (content : Bytes) : (aiming program).Allows w (write path content w) :=
  Workspace.Aimed.of_write h content

/-- A name that is made up is always a target. -/
private theorem obeys_writeOwn {path : String} (h : ShortNames.Own path) (content : Bytes) :
    Obeys (aiming program) (write path content) := fun _ => allows_write (.own h) content

private theorem own_of_shorten {w w' : Workspace} {name output : String} (hw : w.project.Named)
    (hname : name ∈ ShortNames.reserved)
    (h : onProject (modifyGet fun p => p.shorten name) w = .ok output w') : ShortNames.Own output := by
  obtain ⟨p, hp, -⟩ := (on_ok_iff _ _ _ _ _ _).mp h
  obtain ⟨rfl, -⟩ := (modifyGet_ok_iff _ _ _ _).mp hp
  exact hw.sound.own_shorten_reserved hname

/-! ### The image -/

private theorem obeys_encodeOwn (image : AtlasImage) {output : String} (h : ShortNames.Own output) :
    Obeys (aiming program) (encodeAtlas image output) := by
  unfold encodeAtlas
  refine obeys_get.bind fun w => ?_
  split
  · exact obeys_pure _
  · simp only
    split
    · exact obeys_writeOwn h _
    · exact obeys_throw fun _ => trivial

private theorem aims_buildAtlas : Aims program buildAtlas := by
  have hpng : ∀ output : String,
      Obeys (aiming program) (changeProject fun p => { p with bundlePng := some output }) := fun _ =>
    obeys_changeProject looking_aiming fun _ => .of_parts rfl
  have himage : ∀ image, Aims program (do
      let output ← onProject (modifyGet fun p => p.shorten "bundle.png")
      changeProject fun p => { p with bundlePng := some output }
      encodeAtlas image output
      return true) := by
    intro image w hw
    refine Law.Allows.bind (obeys_onProject looking_aiming (obeys_shorten _) w) fun output t ht => ?_
    -- from here on the state does not matter: the name is made up
    have hown := own_of_shorten hw (by decide) ht
    exact ((hpng output).bind fun _ => (obeys_encodeOwn image hown).bind fun _ => obeys_pure _) t
  unfold buildAtlas
  refine Aims.bind (.of_obeys obeys_get) fun w => ?_
  simp only
  split
  · exact .of_obeys (obeys_pure _)
  · refine Aims.bind (.of_obeys (obeys_imageSizes looking_aiming _)) fun sizes =>
      Aims.bind (.of_obeys (obeys_lift _)) fun r => ?_
    have hatlas : Obeys (aiming program) (changeProject fun p => { p with atlas := r.2 }) :=
      obeys_modify fun w => .of_atlas w r.2
    exact Aims.bind (.of_obeys hatlas) fun _ => himage _

/-! ### Scripts -/

/-- What is delivered of a file of the program goes beside it. -/
private theorem allows_deliver {file js : String} (hfile : file ∈ program)
    (hjs : Path.withJsExtension file = .ok js) (refs : References) (written : Script.Written)
    {w : Workspace} (hdeclaration : written.declaration.isSome = true →
      w.project.config.declaration = true) :
    (aiming program).Allows w (deliver file js refs written w) := by
  have hrest : Obeys (aiming program) (deliverJs file js refs written) := by
    intro w
    refine Law.Allows.bind (obeys_get w) fun v t hget => ?_
    obtain ⟨rfl, rfl⟩ := (get_ok_iff _ _ _).mp hget
    split
    · exact Law.Allows.of_free (fun _ => trivial)
        (obeys_keepModule (fun w id m _ => Workspace.Aimed.of_emitted w _) file refs written w)
    · rename_i hbundle
      have hnone : w.project.config.bundle = .none := by simpa using hbundle
      -- the map is written first, and the script is still a target then
      have hscript : w.project.Target program js := .script hfile hjs hnone
      unfold writeJs
      cases written.sourceMap with
      | none => exact allows_write hscript _
      | some text =>
        have hmap := allows_write (.scriptMap hfile hjs hnone) (Text.toBytes text)
        refine Law.Allows.bind hmap fun _ t ht => ?_
        rw [ht] at hmap
        exact allows_write (Workspace.Aimed.target hmap hscript) _
  unfold deliver
  cases hsome : written.declaration with
  | none => exact hrest w
  | some text =>
    exact Law.Allows.bind (allows_write (.declaration hfile hjs (hdeclaration (by rw [hsome]; rfl))) _)
      fun _ t _ => hrest t

/-- There are declarations only where they are asked for. -/
private theorem declaration_of_render {file js : String} {script : Script} {refs : References}
    {overrides : List Override} {config : Config} {o : Script.WriteOptions}
    {written : Script.Written} {p p' : Project} (ho : writeOptions config refs js = .ok o)
    (hrender : render file script refs overrides o p = .ok written p')
    (h : written.declaration.isSome = true) : config.declaration = true := by
  obtain ⟨e, -, hwrite⟩ := render_ok hrender
  unfold Script.write at hwrite
  obtain ⟨replacements, -, hwrite⟩ := (except_bind_ok_iff _ _ _).mp hwrite
  obtain ⟨body, -, hwrite⟩ := (except_bind_ok_iff _ _ _).mp hwrite
  cases hwrite
  have hoption : o.declaration = config.declaration := by
    unfold writeOptions at ho
    split at ho
    · cases ho
      rfl
    · obtain ⟨names, -, ho⟩ := (except_bind_ok_iff _ _ _).mp ho
      cases ho
      rfl
  rw [← hoption]
  by_contra hnone
  simp [hnone] at h

private theorem obeys_changeEntry (id : Nat) (f : Entry → Entry) :
    Obeys (aiming program) (changeEntry id f) :=
  obeys_modify fun _ => Workspace.Aimed.of_same rfl rfl rfl

private theorem obeys_emitSource {file : String} (hfile : file ∈ program) (id : Nat)
    (overrides : List Override) : Obeys (aiming program) (emitFile id file overrides) := by
  intro w
  unfold emitFile
  refine Law.Allows.bind (obeys_lift _ w) fun js t hlift => ?_
  obtain ⟨hjs, rfl⟩ := (lift_ok_iff _ _ _ _).mp hlift
  refine Law.Allows.bind (obeys_entry id w) fun e t he => ?_
  obtain ⟨-, rfl⟩ := (entry_ok_iff _ _ _ _).mp he
  cases e.references with
  | none => exact obeys_pure _ w
  | some refs =>
    cases e.script with
    | none => exact obeys_pure _ w
    | some script =>
      refine Law.Allows.bind (obeys_get w) fun v t hget => ?_
      obtain ⟨rfl, rfl⟩ := (get_ok_iff _ _ _).mp hget
      refine Law.Allows.bind (obeys_lift _ w) fun o t hlift => ?_
      obtain ⟨ho, rfl⟩ := (lift_ok_iff _ _ _ _).mp hlift
      have hrender : (aiming program).Allows w (onProject (render file script refs overrides o) w) :=
        obeys_onProject looking_aiming (obeys_render file script refs overrides o) w
      refine Law.Allows.bind hrender fun written t ht => ?_
      rw [ht] at hrender
      obtain ⟨p, hp, -⟩ := (on_ok_iff _ _ _ _ _ _).mp ht
      refine Law.Allows.bind (allows_deliver hfile hjs refs written fun hsome => ?_) fun _ u _ =>
        obeys_changeEntry id _ u
      rw [Workspace.Aimed.config hrender]
      exact declaration_of_render ho hp hsome

end Session

namespace Assembly

open Session

/-! ### Scripts that are taken over -/

private theorem allows_takeOver {bundled : Bool} {source output : String} {w : Workspace}
    (houtput : bundled = false → w.project.Target program output) (text : String) :
    (aiming program).Allows w (takeOver bundled source output text w) := by
  unfold takeOver
  cases bundled with
  | true =>
    refine Law.Allows.bind (obeys_lift _ w) fun id t _ => ?_
    exact obeys_modify (fun w => Workspace.Aimed.of_emitted w _) t
  | false => exact allows_write (houtput rfl) _

/-- A script is copied to its output name, where there is no bundle. -/
private theorem aims_copyScript {bundled : Bool} (script : String × String) :
    ObeysWhere (aiming program) (fun w => bundled = false → w.project.Target program script.2)
      (copyScript bundled script) := by
  have hkeep : ∀ {w w' : Workspace}, w.Aimed program w' →
      (bundled = false → w.project.Target program script.2) →
      bundled = false → w'.project.Target program script.2 := fun hm htarget hnone =>
    hm.target (htarget hnone)
  unfold copyScript
  refine .bind hkeep (.of_obeys (obeys_existence looking_aiming _)) fun id =>
    .bind hkeep (.of_obeys (obeys_entry id)) fun e => ?_
  split
  · exact .of_obeys (obeys_say looking_aiming _)
  · split
    · refine .bind hkeep (.of_obeys (obeys_onCache fun w => looking_aiming.text w id)) fun _ =>
        .bind hkeep (.of_obeys (obeys_entry id)) fun e => ?_
      split
      · exact .of_obeys (obeys_say looking_aiming _)
      · exact fun w hw => (allows_takeOver hw _).bind fun _ t _ => obeys_changeEntry id _ t
    · exact .of_obeys (obeys_pure _)

private theorem aims_copyDependencyJs : Aims program copyDependencyJs := by
  intro w hw
  unfold copyDependencyJs
  refine Law.Allows.bind (obeys_enter looking_aiming _ w) fun _ t ht => ?_
  obtain rfl := (modify_ok_iff _ _ _ _).mp ht
  refine Law.Allows.bind (obeys_get _) fun v t hget => ?_
  obtain ⟨rfl, rfl⟩ := (get_ok_iff _ _ _).mp hget
  refine allows_forM (I := fun v script => (w.project.config.bundle != .none) = false →
      v.project.Target program script.2) (fun hm htarget hnone => Workspace.Aimed.target hm (htarget hnone))
    (fun script v htarget => aims_copyScript script v htarget) _ _ fun script hs hnone => ?_
  -- a script that is taken over keeps its name
  rw [hw.depJs script hs]
  exact .takenOver (List.mem_map_of_mem hs) (by simpa using hnone)

/-! ### Style sheets and assets -/

/-- The style sheets that are found have the names that were asked for. -/
private theorem mem_of_findSheets :
    ∀ {names : List String} {sheets : List Sheet} {w w' : Workspace},
      findSheets names w = .ok sheets w' → ∀ s ∈ sheets, s.name ∈ names
  | [], sheets, w, w', h => by
    obtain ⟨rfl, -⟩ := (pure_ok_iff _ _ _ _).mp h
    exact fun s hs => absurd hs List.not_mem_nil
  | name :: names, sheets, w, w', h => by
    unfold findSheets at h
    obtain ⟨css, v, -, h⟩ := (bind_ok_iff _ _ _ _ _).mp h
    cases css with
    | false => exact fun s hs => List.mem_cons_of_mem name (mem_of_findSheets h s hs)
    | true =>
      obtain ⟨id, w₁, -, h⟩ := (bind_ok_iff _ _ _ _ _).mp h
      obtain ⟨e, w₂, -, h⟩ := (bind_ok_iff _ _ _ _ _).mp h
      obtain ⟨rest, w₃, hrest, h⟩ := (bind_ok_iff _ _ _ _ _).mp h
      have ih : ∀ s ∈ rest, s.name ∈ name :: names := fun s hs =>
        List.mem_cons_of_mem name (mem_of_findSheets hrest s hs)
      obtain ⟨rfl, -⟩ := (pure_ok_iff _ _ _ _).mp h
      split
      · exact List.forall_mem_cons.mpr ⟨List.mem_cons_self, ih⟩
      · exact ih

private theorem aims_mergeSheets (sheets : List Sheet) : Aims program (mergeSheets sheets) := by
  intro w hw
  unfold mergeSheets
  split
  · exact obeys_pure _ w
  · have hlink : ∀ output : String, Obeys (aiming program)
        (changeProject fun p => { p with cssToLink := p.cssToLink ++ [output] }) := fun _ =>
      obeys_changeProject looking_aiming fun _ => .of_parts rfl
    refine Law.Allows.bind (obeys_onProject looking_aiming (obeys_shorten _) w) fun output t ht => ?_
    have hown := own_of_shorten hw (by decide) ht
    split
    · exact ((obeys_sheetTexts looking_aiming sheets).bind fun sources =>
        (obeys_onProject looking_aiming
          (Stylesheet.obeys_concatenate sources obeys_mergedReference)).bind fun css =>
        (obeys_writeOwn hown _).bind fun _ => hlink output) t
    · exact hlink output t

/-- A style sheet of its own goes where its name says, or has a name that was made up. -/
private theorem allows_copySheet {s : Sheet} {w : Workspace} (hw : w.project.Named)
    (hs : s.name ∈ w.project.depAssets.keys) : (aiming program).Allows w (copySheet s w) := by
  obtain ⟨output, hget⟩ : ∃ output, (w.project.depAssets.get? s.name).getD s.name = output := ⟨_, rfl⟩
  have houtput : w.project.Target program output := by
    rw [← hget]
    cases hname : w.project.depAssets.get? s.name with
    | none => exact .asset hs
    | some output => exact .of_isOutput (hw.depAssets _ (OrderedMap.mem_of_get? hname)) hs
  have hlink : Obeys (aiming program)
      (changeProject fun p => { p with cssToLink := p.cssToLink ++ [output] }) :=
    obeys_changeProject looking_aiming fun _ => .of_parts rfl
  unfold copySheet
  refine Law.Allows.bind (obeys_get w) fun v t hv => ?_
  obtain ⟨rfl, rfl⟩ := (get_ok_iff _ _ _).mp hv
  simp only [hget]
  refine ObeysWhere.bind (I := fun w => w.project.Target program output) Workspace.Aimed.target
    (.of_obeys hlink) (fun _ => ?_) w houtput
  split
  · refine .bind Workspace.Aimed.target (.of_obeys (obeys_sheetText looking_aiming s.id)) fun text => ?_
    split
    · exact .of_obeys (obeys_pure _)
    · exact .bind Workspace.Aimed.target (.of_obeys (obeys_onProject looking_aiming
        (Stylesheet.obeys_mapUrls _ fun url => obeys_plainReference url s.name))) fun css w hw =>
          allows_write hw _
  · exact .of_obeys (obeys_pure _)

private theorem aims_copyAsset (asset : String × String) :
    ObeysWhere (aiming program) (fun w => w.project.Target program asset.2) (copyAsset asset) := by
  have hrest : ∀ (id : Nat) (bytes : Bytes) (elsewhere : Bool),
      ObeysWhere (aiming program) (fun w => w.project.Target program asset.2) (do
        if !elsewhere then write asset.2 bytes
        changeEntry id fun e => { e with outputTime := e.current }) := by
    intro id bytes elsewhere w hw
    cases elsewhere with
    | true => exact obeys_changeEntry id _ w
    | false => exact (allows_write hw bytes).bind fun _ t _ => obeys_changeEntry id _ t
  unfold copyAsset
  refine .bind Workspace.Aimed.target (.of_obeys (obeys_existence looking_aiming _)) fun id =>
    .bind Workspace.Aimed.target (.of_obeys (obeys_entry id)) fun e => ?_
  split
  · exact .of_obeys (obeys_say looking_aiming _)
  · split
    · refine .bind Workspace.Aimed.target (.of_obeys (obeys_onCache fun w => looking_aiming.buffer w id))
        fun _ => .bind Workspace.Aimed.target (.of_obeys (obeys_entry id)) fun e => ?_
      split
      · exact .of_obeys (obeys_say looking_aiming _)
      · refine .bind Workspace.Aimed.target (.of_obeys (obeys_lift _)) fun css => ?_
        split
        · exact .bind Workspace.Aimed.target (.of_obeys (obeys_pure _)) (hrest id _)
        · exact .bind Workspace.Aimed.target (.of_obeys (obeys_lift _)) (hrest id _)
    · exact .of_obeys (obeys_pure _)

private theorem aims_processAssets : Aims program processAssets := by
  have hcopy : Aims program (do (← get).project.depAssets.toList.forM copyAsset) := by
    intro w hw
    refine Law.Allows.bind (obeys_get w) fun v t hget => ?_
    obtain ⟨rfl, rfl⟩ := (get_ok_iff _ _ _).mp hget
    exact allows_forM (I := fun v asset => v.project.Target program asset.2) Workspace.Aimed.target
      aims_copyAsset _ w fun asset hasset =>
        .of_isOutput (hw.depAssets asset hasset) (List.mem_map_of_mem hasset)
  intro w hw
  unfold processAssets
  refine Law.Allows.bind (obeys_enter looking_aiming _ w) fun _ t ht => ?_
  obtain rfl := (modify_ok_iff _ _ _ _).mp ht
  refine Law.Allows.bind (obeys_get _) fun v t hget => ?_
  obtain ⟨rfl, rfl⟩ := (get_ok_iff _ _ _).mp hget
  have hfind : Obeys (aiming program) (findSheets w.project.depAssets.keys) :=
    obeys_findSheets looking_aiming _
  refine Law.Allows.bind (hfind _) fun sheets t ht => ?_
  have hm := hfind.ok ht
  have hsheets : ∀ s ∈ sheets, s.name ∈ t.project.depAssets.keys := fun s hs =>
    Workspace.Aimed.depAssets hm _ (mem_of_findSheets ht s hs)
  have ht' : t.project.Named := Workspace.Aimed.named hm hw
  simp only
  split
  · exact Aims.bind (aims_mergeSheets sheets) (fun _ => hcopy) t ht'
  · have hplain : (aiming program).Allows t (sheets.forM copySheet t) :=
      allows_forM (I := fun v s => v.project.Named ∧ s.name ∈ v.project.depAssets.keys)
        (fun hm ⟨hv, hs⟩ => ⟨Workspace.Aimed.named hm hv, Workspace.Aimed.depAssets hm _ hs⟩)
        (fun s v ⟨hv, hs⟩ => allows_copySheet hv hs) sheets t fun s hs => ⟨ht', hsheets s hs⟩
    refine hplain.bind fun _ u hu => hcopy u ?_
    rw [hu] at hplain
    exact Workspace.Aimed.named hplain ht'

/-! ### The bundle -/

private theorem obeys_writeFastOwn {output : String} (h : ShortNames.Own output) (entries : List String)
    (blobs : List Bytes) : Obeys (aiming program) (writeFast output entries blobs) := by
  unfold writeFast
  refine (obeys_onProject looking_aiming (obeys_modifyGet fun p => quiet_shortName p _)).bind fun short =>
    obeys_get.bind fun w => ?_
  simp only
  split
  · exact obeys_throw fun _ => trivial
  · exact Obeys.bind (fun _ => allows_write (.ownMap h) _) fun _ => obeys_writeOwn h _

private theorem aims_assemble : Aims program assemble := by
  intro w hw
  unfold assemble
  refine Law.Allows.bind (obeys_enter looking_aiming _ w) fun _ t ht => ?_
  obtain rfl := (modify_ok_iff _ _ _ _).mp ht
  refine Law.Allows.bind (obeys_get _) fun v t hget => ?_
  obtain ⟨rfl, rfl⟩ := (get_ok_iff _ _ _).mp hget
  cases hbundle : w.project.bundleJs with
  | none =>
    simp only
    exact obeys_pure _ _
  | some output =>
    have hown := hw.bundleJs output hbundle
    simp only
    refine ((obeys_lift _).bind fun entries => (obeys_scriptAssets looking_aiming _).bind fun blobs => ?_) _
    split
    · exact obeys_pure _
    · unfold writeMerged
      exact obeys_get.bind fun _ => obeys_writeOwn hown _
    · exact obeys_writeFastOwn hown _ _

end Assembly

/-! ## Cycles -/

namespace Session

/-- A step of a session writes to targets only if the names of the project are in order. -/
private abbrev SessionAims (program : List String) (step : Step Session α) : Prop :=
  ObeysWhere (aiming program).beneath (fun s => s.project.Named) step

private theorem SessionAims.bind {x : Step Session α} {f : α → Step Session β}
    (hx : SessionAims program x) (hf : ∀ a, SessionAims program (f a)) : SessionAims program (x >>= f) :=
  ObeysWhere.bind Workspace.Aimed.named hx hf

private theorem aims_liftWorkspace {step : Step Workspace α} (h : Aims program step) :
    SessionAims program (liftM step : Step Session α) := fun s hs =>
  (allows_liftWorkspace (h s.toWorkspace hs)).beneath

private theorem aims_prepare : SessionAims program (prepare program) := by
  have hatlas : Obeys (aiming program) (changeProject fun p =>
      if p.config.spriteMerge then { p with atlas := p.atlas.begin } else p) :=
    obeys_changeProject looking_aiming fun p => by
      split
      · exact .of_parts rfl
      · exact Project.Quiet.refl p
  have hcollect : SessionAims program (collectProgram program) := fun s _ =>
    (obeys_collectProgram looking_aiming program s).beneath
  unfold prepare
  exact SessionAims.bind
      (aims_liftWorkspace (.of_obeys (obeys_prepareOverrides looking_aiming program))) fun _ =>
    SessionAims.bind (aims_liftWorkspace (.of_obeys hatlas)) fun _ =>
    SessionAims.bind hcollect fun _ =>
    SessionAims.bind (aims_liftWorkspace aims_buildAtlas) fun _ =>
    SessionAims.bind
      (aims_liftWorkspace (.of_obeys (obeys_onProject looking_aiming Page.obeys_expandHead)))
      fun _ => .of_obeys (obeys_pure _)

private theorem aims_deliverProgram (force : Bool) (overrides : FileOverrides) (atlasChanged : Bool) :
    SessionAims program (deliverProgram force program overrides atlasChanged) := by
  have hemit : Obeys (aiming program) (emitProgram force atlasChanged overrides program) :=
    obeys_emitProgram_of_emitFile looking_aiming.get (fun id => obeys_changeEntry id _) force
      atlasChanged overrides program fun _ hfile id os => obeys_emitSource hfile id os
  unfold deliverProgram
  refine SessionAims.bind (aims_liftWorkspace (.of_obeys (obeys_enter looking_aiming _))) fun _ =>
    SessionAims.bind (aims_liftWorkspace (.of_obeys hemit)) fun _ =>
    SessionAims.bind (aims_liftWorkspace Assembly.aims_copyDependencyJs) fun _ =>
    SessionAims.bind (aims_liftWorkspace Assembly.aims_processAssets) fun _ =>
    SessionAims.bind (.of_obeys obeys_get) fun _ => ?_
  split
  · exact SessionAims.bind (aims_liftWorkspace Assembly.aims_assemble) fun _ => .of_obeys (obeys_pure _)
  · exact .of_obeys (obeys_pure _)

private theorem aims_emitAll (force : Bool) : SessionAims program (emitAll force program) := by
  rw [emitAll_eq]
  exact SessionAims.bind aims_prepare fun _ =>
    SessionAims.bind (aims_liftWorkspace (.of_obeys (obeys_refreshProgram walking_aiming program)))
      fun _ => aims_deliverProgram force _ _

/-- A cycle writes to targets only, from where it has begun. -/
theorem aimed_compile {s : Session} (h : s.begun.project.Named) :
    s.begun.toWorkspace.Aimed (s.loads?.getD []) (final (compile s)).toWorkspace := by
  suffices hall : (aiming (s.loads?.getD [])).beneath.Allows s.begun (compile s) from hall.final
  refine allows_compile_of_emitAll walking_aiming looking_aiming.enter
    (fun t => (obeys_loadProgram loading_aiming _ t).beneath)
    (fun w keep => Workspace.Aimed.of_emitted w _) fun force program t hloads ht => ?_
  -- only the output writes, and it writes the program that was loaded
  rw [hloads] at ht ⊢
  exact aims_emitAll force t (Workspace.Aimed.named ht h)

/-! ## Sessions whose output goes to no directory of its own -/

/-- The sessions with names in order: the disk, the configuration and the destination change, the probes
are cleared, everything may be asked to be built anew, and cycles run, which return or end early. No
configuration names a directory for the output. -/
inductive InRoot : Session → Prop where
  | start (disk : Disk) {project : Project} (hnamed : project.Named)
      (hdir : project.config.outputSubDir = none) : InRoot (start disk project)
  | change {s : Session} (h : InRoot s) (disk : Disk) {config : Config}
      (hdir : config.outputSubDir = none) (destination : Option Destination) :
      InRoot { s with disk, destination, project := { s.project with config } }
  | clear {s : Session} (h : InRoot s) : InRoot s.clearProbes
  | force {s : Session} (h : InRoot s) : InRoot s.forceNext
  | cycle {s : Session} (h : InRoot s) : InRoot (final (compile s))

variable {s : Session}

theorem named_begun (h : s.project.Named) (hdir : s.project.config.outputSubDir = none) :
    s.begun.project.Named := by
  unfold begun
  cases s.isForced with
  | true => exact Project.named_beginAnew h.resolvers hdir
  | false => exact h.beginCycle

theorem InRoot.named (h : InRoot s) :
    s.project.Named ∧ s.project.config.outputSubDir = none := by
  induction h with
  | start disk hnamed hdir => exact ⟨hnamed, hdir⟩
  | change _ disk hdir destination ih => exact ⟨ih.1.congr rfl rfl rfl rfl rfl, hdir⟩
  | clear _ ih => exact ih
  | force _ ih => exact ih
  | @cycle s _ ih =>
    have haimed := aimed_compile (named_begun ih.1 ih.2)
    refine ⟨haimed.named (named_begun ih.1 ih.2), ?_⟩
    rw [haimed.config, begun_config]
    exact ih.2

/-- What a cycle writes it writes to targets. -/
theorem InRoot.writes (h : InRoot s) : ∀ e ∈ (final (compile s)).project.output.writes,
    e ∈ s.project.output.writes ∨ (final (compile s)).project.Target (s.loads?.getD []) e.1 := by
  have haimed := aimed_compile (named_begun h.named.1 h.named.2)
  rw [← begun_output s]
  exact haimed.writes

/-- On the disk a cycle puts files to targets. -/
theorem InRoot.fills (h : InRoot s) {t : Destination} (ht : s.destination = some t) :
    t.Fills ((final (compile s)).project.Target (s.loads?.getD [])) s.disk (final (compile s)).disk := by
  have haimed := aimed_compile (named_begun h.named.1 h.named.2)
  rw [← begun_disk s]
  exact haimed.fills t (by rw [begun_destination, ht]; rfl)

/-- Where no name leads out of the output directory, nothing is written out of it. -/
theorem InRoot.writes_inner (h : InRoot s)
    (hnames : ∀ name, (final (compile s)).project.NamesOutput (s.loads?.getD []) name → Path.Inner name) :
    ∀ e ∈ (final (compile s)).project.output.writes, e ∈ s.project.output.writes ∨ Path.Inner e.1 :=
  fun e he => (h.writes e he).imp_right fun htarget => htarget.inner hnames

/-- And on the disk what is outside of the output directory stays as it is. -/
theorem InRoot.outside_stays (h : InRoot s) {t : Destination} (ht : s.destination = some t)
    (hnames : ∀ name, (final (compile s)).project.NamesOutput (s.loads?.getD []) name → Path.Inner name)
    {place : Place} (hplace : ¬t.place <+: place) :
    (final (compile s)).disk.files.get? ⟨true, place⟩ = s.disk.files.get? ⟨true, place⟩ :=
  ((h.fills ht).mono fun _ htarget => htarget.inner hnames).outside hplace

end Session

end Bundler

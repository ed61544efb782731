/-
The image of the atlas, and whether there is one.

The calls of a program get the places of the sprites from the layout that the atlas keeps, and a page
shows them from an image. The image is made when the layout changes, and the layout is kept before the
encoder is asked for it. This is what goes wrong when the encoder refuses. The cycle ends with its error,
nothing was written, and the layout stays (`Session.buildAtlas_cases`). If all images of the sprites have
sizes, then the layout has all sprites (`Atlas.changed_of_build`), so that the next cycle with these
sprites finds nothing to do, is not refused, and writes calls with places in an image that does not exist
(`Session.buildAtlas_after_refusal`).

That is the only way. The rest of a build leaves the layout and what was written (`Workspace.Settled`), so
a cycle keeps it true that the image of the layout was written, unless it ends with that very error
(`Session.pictures_compile`). A session in which no cycle did has the image of its layout
(`Session.Unrefused.pictured`).
-/
import Bundler.Proofs.Layouts
import Bundler.Proofs.Sessions

set_option autoImplicit false

namespace Bundler

open Step Workspace

/-! ## What is kept of a layout -/

namespace Atlas

variable {a a' : Atlas} {sizeOf : String → Option (Nat × Nat)} {image : AtlasImage}

/-- A layout that was just made is not made again for the same sprites, if each of their images has a
size. A sprite whose image has none is left out, so that it is missing each time. -/
theorem changed_of_build (h : a.build sizeOf = .ok (image, a')) :
    a'.changed = false ↔ ∀ key ∈ a.current, (sizeOf key.name).isSome = true := by
  obtain ⟨harrange, rfl⟩ := build_ok_iff.mp h
  have hperm := sizes_arrange harrange
  have hlength : image.sprites.length = (a.current.filterMap (sized? sizeOf)).length := by
    rw [← hperm.length_eq, sizes, List.length_map]
  have hsized : ∀ key, (sized? sizeOf key).isSome = (sizeOf key.name).isSome := by
    intro key
    rw [sized?, Option.isSome_map]
  unfold changed
  rw [Bool.or_eq_false_iff, hlength]
  constructor
  · rintro ⟨hsame, -⟩ key hkey
    rw [← hsized key]
    exact List.filterMap_length_eq_length.mp (by simpa using hsame) key hkey
  · intro hall
    have hfull : (a.current.filterMap (sized? sizeOf)).length = a.current.length :=
      List.filterMap_length_eq_length.mpr fun key hkey => by
        rw [hsized key]
        exact hall key hkey
    refine ⟨by simpa using hfull, List.any_eq_false.mpr fun key hkey hnone => ?_⟩
    -- a sprite that has a size is one of those that were placed
    obtain ⟨s, hs⟩ := Option.isSome_iff_exists.mp ((hsized key).trans (hall key hkey))
    have hs' : s ∈ sizes image.sprites := hperm.mem_iff.mpr (List.mem_filterMap.mpr ⟨key, hkey, hs⟩)
    obtain ⟨placed, hplaced, rfl⟩ := List.mem_map.mp hs'
    have hne := List.lookup_eq_none_iff.mp (Option.isNone_iff_eq_none.mp hnone) placed hplaced
    rw [← key_of_sized? hs] at hne
    simp at hne

/-- The order in which sprites are asked for does not matter for what is noticed. -/
theorem changed_congr (hbuilt : a'.built = a.built) (hperm : a'.current.Perm a.current) :
    a'.changed = a.changed := by
  unfold changed
  rw [hbuilt]
  cases a.built with
  | none =>
    have hempty : a'.current.isEmpty = a.current.isEmpty := by
      rw [Bool.eq_iff_iff, List.isEmpty_iff_length_eq_zero, List.isEmpty_iff_length_eq_zero,
        hperm.length_eq]
    simp only [hempty]
  | some placed => simp only [hperm.length_eq, hperm.any_eq]

end Atlas

/-! ## Steps that leave the layout -/

/-- A change of a workspace that leaves the settings, the layout of the atlas and what was written. -/
structure Workspace.Settled (w w' : Workspace) : Prop where
  config : w'.project.config = w.project.config
  dir : w'.project.dir = w.project.dir
  destination : w'.destination = w.destination
  layout : w'.project.atlas.built = w.project.atlas.built
  encoder : w'.project.encoder = w.project.encoder
  failing : w'.project.output.failing = w.project.output.failing
  writes : w.project.output.writes ⊆ w'.project.output.writes

namespace Workspace.Settled

variable {w w' w'' : Workspace}

theorem of_project (hproject : w'.project = w.project) (hdest : w'.destination = w.destination) :
    w.Settled w' where
  config := congrArg _ hproject
  dir := congrArg _ hproject
  destination := hdest
  layout := congrArg (fun p => p.atlas.built) hproject
  encoder := congrArg _ hproject
  failing := congrArg (fun p => p.output.failing) hproject
  writes := by
    rw [hproject]
    exact fun _ h => h

theorem refl (w : Workspace) : w.Settled w := of_project rfl rfl

theorem trans (h : w.Settled w') (h' : w'.Settled w'') : w.Settled w'' where
  config := h'.config.trans h.config
  dir := h'.dir.trans h.dir
  destination := h'.destination.trans h.destination
  layout := h'.layout.trans h.layout
  encoder := h'.encoder.trans h.encoder
  failing := h'.failing.trans h.failing
  writes := List.Subset.trans h.writes h'.writes

theorem of_quiet {p : Project} (h : w.project.Quiet p) : w.Settled { w with project := p } where
  config := h.config
  dir := h.dir
  destination := rfl
  layout := h.layout
  encoder := h.encoder
  failing := congrArg Output.failing h.output
  writes := by
    rw [h.output]
    exact fun _ h => h

/-- A write adds to what was written, or it fails and says so. -/
theorem of_write (w : Workspace) (path : String) (content : Bytes) :
    w.Settled (w.written path content) := by
  unfold Workspace.written
  split
  · unfold Project.write Output.write
    cases w.project.output.failing.lookup path with
    | none => exact ⟨rfl, rfl, rfl, rfl, rfl, rfl, List.subset_append_left _ _⟩
    | some reason => exact ⟨rfl, rfl, rfl, rfl, rfl, rfl, fun _ h => h⟩
  · exact ⟨rfl, rfl, rfl, rfl, rfl, rfl, fun _ h => h⟩

end Workspace.Settled

/-- The law of steps that leave the layout and what was written. -/
private def settling : Law Workspace where
  moves := Workspace.Settled
  fails _ _ := True
  refl := Workspace.Settled.refl
  trans := Workspace.Settled.trans
  back _ _ := trivial
  fault _ _ := trivial

private theorem delivering_settling : Delivering settling fun _ => True where
  config h := h.config
  dir h := h.dir
  enter _ _ := .of_project rfl rfl
  get _ _ := .of_project rfl rfl
  look _ _ := .of_project rfl rfl
  text _ _ := .of_project rfl rfl
  buffer _ _ := .of_project rfl rfl
  quiet _ _ h := .of_quiet h
  write := .of_write
  fails _ _ _ := trivial
  copied _ _ _ := .of_project rfl rfl
  keep _ _ _ _ := ⟨rfl, rfl, rfl, rfl, rfl, rfl, fun _ h => h⟩
  took _ _ _ _ _ := .of_project rfl rfl
  stamp _ _ := .of_project rfl rfl

private theorem loading_settling : Bundler.Loading settling fun _ => True where
  toLooking := delivering_settling.toLooking
  script _ _ _ _ _ _ _ _ _ _ := .of_project rfl rfl
  refs _ _ _ _ _ _ := Session.allows_refreshReferences delivering_settling.toLooking
    fun _ _ _ _ _ _ _ _ h => h.trans (.of_project rfl rfl)

private theorem walking_settling : Walking settling where
  get _ _ := .of_project rfl rfl
  look _ _ := .of_project rfl rfl
  mark _ _ _ := .of_project rfl rfl
  unmark _ := .of_project rfl rfl

/-! ## How the atlas is built -/

/-- The file of a single image, as an encoder gets it. -/
def Workspace.imageFile? (w : Workspace) (name : String) : Option Bytes :=
  (w.cache.find? w.project.dir name).bind fun id => (w.cache.entry id).buffer?

namespace Session

variable {encode : AtlasEncoder} {w w' : Workspace}

/-- Where sprites are not merged or the layout has the sprites asked for, there is nothing to do. -/
theorem buildAtlas_idle (h : w.project.config.spriteMerge = false ∨ w.project.atlas.changed = false) :
    buildAtlas w = .ok false w := by
  have hskip : (!w.project.config.spriteMerge || !w.project.atlas.changed) = true := by
    rcases h with hmerge | hkept
    · rw [hmerge]
      rfl
    · rw [hkept, Bool.not_false, Bool.or_true]
  have hget : (get : Step Workspace Workspace) w = .ok w w := rfl
  unfold buildAtlas
  rw [bind_of_ok hget]
  simp only [hskip, if_true]
  rfl

/-- How the build of an atlas ends when its layout was kept, by what the encoder says. -/
def encoded (t : Workspace) (name : String) :
    Except String Bytes → EStateM.Result Failure Workspace Bool
  | .ok png => .ok true (t.written name png)
  | .error text => .error (.error (.atlas text)) t

/-- A new layout is kept before its image is there: from sprites with their sizes a layout `image` is
made and kept, and then it depends on the encoder whether its image is written or the build ends. -/
structure Laying (encode : AtlasEncoder) (w : Workspace) (image : AtlasImage) (name : String)
    (t : Workspace) : Prop where
  laid : ∃ sizes v, imageSizes (w.project.atlas.current.map SpriteKey.name) w = .ok sizes v ∧
    w.project.atlas.build (fun name => sizes.lookup name) = .ok (image, t.project.atlas)
  config : t.project.config = w.project.config
  destination : t.destination = w.destination
  encoder : t.project.encoder = some encode
  output : t.project.output = w.project.output
  built : buildAtlas w = encoded t name (encode image t.imageFile?)

/-- Sizes are always found, or found missing; reading the images concerns the cache alone. -/
theorem imageSizes_ok (names : List String) (w : Workspace) :
    ∃ sizes cache, imageSizes names w = .ok sizes { w with cache } := by
  induction names generalizing w with
  | nil => exact ⟨[], w.cache, rfl⟩
  | cons name names ih =>
    obtain ⟨id, c, hbytes⟩ : ∃ id c, bytes name w = .ok id { w with cache := c } := ⟨_, _, rfl⟩
    obtain ⟨rest, c', hrest⟩ := ih { w with cache := c }
    have hentry : entry id { w with cache := c } = .ok (c.entry id) { w with cache := c } := rfl
    unfold imageSizes
    rw [bind_of_ok hbytes, bind_of_ok hentry, bind_of_ok hrest]
    exact ⟨_, c', rfl⟩

/-- The atlas is left, or there is a fault before anything is kept, or a new layout is kept. -/
theorem buildAtlas_cases (hencoder : w.project.encoder = some encode) :
    buildAtlas w = .ok false w ∨
    (∃ f v, buildAtlas w = .error (.fault f) v ∧ v.project = w.project ∧
      v.destination = w.destination) ∨
    ∃ image name t, Laying encode w image name t := by
  by_cases hidle : w.project.config.spriteMerge = false ∨ w.project.atlas.changed = false
  · exact .inl (buildAtlas_idle hidle)
  · right
    have hwork : (!w.project.config.spriteMerge || !w.project.atlas.changed) = false := by
      simpa using hidle
    have hget : (get : Step Workspace Workspace) w = .ok w w := rfl
    obtain ⟨sizes, cache, hsizes⟩ :=
      imageSizes_ok (w.project.atlas.current.map SpriteKey.name) w
    have hbegin : buildAtlas w = (do
        let laid ← w.project.atlas.build fun name => sizes.lookup name
        changeProject fun p => { p with atlas := laid.2 }
        let output ← onProject (modifyGet fun p => p.shorten "bundle.png")
        changeProject fun p => { p with bundlePng := some output }
        encodeAtlas laid.1 output
        return true : Step Workspace Bool) { w with cache } := by
      unfold buildAtlas
      rw [bind_of_ok hget]
      simp only [hwork, Bool.false_eq_true, if_false]
      rw [bind_of_ok hsizes]
    cases hbuild : w.project.atlas.build fun name => sizes.lookup name with
    | error f =>
      left
      refine ⟨f, { w with cache }, ?_, rfl, rfl⟩
      rw [hbegin, hbuild]
      rfl
    | ok laid =>
      right
      obtain ⟨image, atlas⟩ := laid
      let p := ({ w.project with atlas } : Project).shorten "bundle.png"
      let t : Workspace := { w with cache, project := { p.2 with bundlePng := some p.1 } }
      refine ⟨image, p.1, t, ⟨sizes, _, hsizes, hbuild⟩, rfl, rfl, hencoder, rfl, ?_⟩
      have hget : (get : Step Workspace Workspace) t = .ok t t := rfl
      have hencoder' : t.project.encoder = some encode := hencoder
      rw [hbegin, hbuild]
      change EStateM.bind (encodeAtlas image p.1) (fun _ => pure true) t = _
      unfold EStateM.bind encodeAtlas
      rw [bind_of_ok hget, hencoder']
      cases hencode : encode image t.imageFile? with
      | ok png =>
        have hread : encode image (fun name => (t.cache.find? t.project.dir name).bind fun id =>
            (t.cache.entry id).buffer?) = .ok png := hencode
        simp only [hread]
        rfl
      | error text =>
        have hread : encode image (fun name => (t.cache.find? t.project.dir name).bind fun id =>
            (t.cache.entry id).buffer?) = .error text := hencode
        simp only [hread]
        rfl

/-! ## An encoder that refuses -/

/-- The layout whose image is refused is kept, and nothing was written. -/
theorem buildAtlas_refused (hencoder : w.project.encoder = some encode) {text : String}
    (h : buildAtlas w = .error (.error (.atlas text)) w') :
    ∃ image name, Laying encode w image name w' ∧ encode image w'.imageFile? = .error text := by
  rcases buildAtlas_cases hencoder with hidle | ⟨f, v, hfault, -⟩ | ⟨image, name, t, ht⟩
  · rw [hidle] at h
    exact absurd h (by simp)
  · rw [hfault] at h
    exact absurd h (by simp)
  · have hbuilt := ht.built
    cases hencode : encode image t.imageFile? with
    | ok png =>
      rw [hencode, h] at hbuilt
      exact absurd hbuilt (by simp [encoded])
    | error message =>
      rw [hencode, h] at hbuilt
      simp only [encoded, EStateM.Result.error.injEq, Failure.error.injEq,
        BuildError.atlas.injEq] at hbuilt
      obtain ⟨rfl, rfl⟩ := hbuilt
      exact ⟨image, name, ht, hencode⟩

/-- The image is not asked for again. With the layout that was refused and the sprites that it was made
for, in whatever order, there is nothing to do, if the images of all of them had sizes. -/
theorem buildAtlas_after_refusal (hencoder : w.project.encoder = some encode) {text : String}
    (h : buildAtlas w = .error (.error (.atlas text)) w')
    (hsizes : ∀ sizes v, imageSizes (w.project.atlas.current.map SpriteKey.name) w = .ok sizes v →
      ∀ key ∈ w.project.atlas.current, (sizes.lookup key.name).isSome = true)
    {t : Workspace} (hkept : t.project.atlas.built = w'.project.atlas.built)
    (hsame : t.project.atlas.current.Perm w.project.atlas.current) :
    buildAtlas t = .ok false t := by
  obtain ⟨image, name, ht, -⟩ := buildAtlas_refused hencoder h
  obtain ⟨sizes, v, hread, hbuild⟩ := ht.laid
  have hcurrent : w'.project.atlas.current = w.project.atlas.current := by
    rw [(Atlas.build_ok_iff.mp hbuild).2]
  apply buildAtlas_idle
  right
  rw [Atlas.changed_congr hkept (hcurrent ▸ hsame)]
  exact (Atlas.changed_of_build hbuild).mpr (hsizes sizes v hread)

end Session

/-! ## Images that were written -/

/-- The image of the layout was written: the encoder made it of some image with the sprites as they are
placed there. -/
def Workspace.Pictured (encode : AtlasEncoder) (w : Workspace) : Prop :=
  ∀ placed ∈ w.project.atlas.built, ∃ image read png name, image.sprites = placed ∧
    encode image read = .ok png ∧ (name, png) ∈ w.project.output.writes

/-- A workspace with an encoder in which all writes succeed and the image of the layout was written. -/
structure Workspace.Picturing (encode : AtlasEncoder) (w : Workspace) : Prop where
  encoder : w.project.encoder = some encode
  destination : w.destination = none
  failing : w.project.output.failing = []
  pictured : w.Pictured encode

namespace Session

variable {encode : AtlasEncoder} {w w' : Workspace} {α β : Type}

/-- What leaves the layout and what was written leaves the image. -/
theorem Picturing.settled (h : w.Settled w') (hw : w.Picturing encode) : w'.Picturing encode where
  encoder := h.encoder.trans hw.encoder
  destination := h.destination.trans hw.destination
  failing := h.failing.trans hw.failing
  pictured placed hplaced := by
    rw [h.layout] at hplaced
    obtain ⟨image, read, png, name, hsprites, hencode, hwritten⟩ := hw.pictured placed hplaced
    exact ⟨image, read, png, name, hsprites, hencode, h.writes hwritten⟩

/-- A new layout gets its image, or the build ends with the error of the encoder. -/
theorem picturing_buildAtlas (hw : w.Picturing encode) :
    (final (buildAtlas w)).Picturing encode ∨
      ∃ text t, buildAtlas w = .error (.error (.atlas text)) t := by
  rcases buildAtlas_cases hw.encoder with hidle | ⟨f, v, hfault, hproject, hdest⟩ | ⟨image, name, t, ht⟩
  · rw [hidle]
    exact .inl hw
  · rw [hfault]
    exact .inl (Picturing.settled (.of_project hproject hdest) hw)
  · rw [ht.built]
    obtain ⟨sizes, v, -, hbuild⟩ := ht.laid
    have hdest : t.destination = none := ht.destination.trans hw.destination
    have hfailing : t.project.output.failing = [] := by
      rw [ht.output]
      exact hw.failing
    cases hencode : encode image t.imageFile? with
    | error text => exact .inr ⟨text, t, rfl⟩
    | ok png =>
      left
      have hwrite : t.project.write name png = { t.project with
          output := { t.project.output with
            files := t.project.output.files.insert name png
            writes := t.project.output.writes ++ [(name, png)] } } := by
        have hlookup : t.project.output.failing.lookup name = none := by
          rw [hfailing]
          rfl
        simp only [Project.write, Output.write, hlookup]
      change (t.written name png).Picturing encode
      rw [written_of_none hdest, hwrite]
      refine ⟨ht.encoder, hdest, hfailing, fun placed hplaced => ?_⟩
      have hbuilt : t.project.atlas.built = some image.sprites := by
        rw [(Atlas.build_ok_iff.mp hbuild).2]
      have hsprites : image.sprites = placed := Option.some.inj (hbuilt.symm.trans hplaced)
      exact ⟨image, t.imageFile?, png, name, hsprites, hencode,
        List.mem_append_right _ (List.mem_singleton.mpr rfl)⟩

/-- A step that keeps it true that the image of the layout was written, unless the encoder refuses. -/
def Pictures (encode : AtlasEncoder) (step : Step Session α) : Prop :=
  ∀ s : Session, s.toWorkspace.Picturing encode → (final (step s)).toWorkspace.Picturing encode ∨
    ∃ text t, step s = .error (.error (.atlas text)) t

theorem Pictures.bind {x : Step Session α} {f : α → Step Session β} (hx : Pictures encode x)
    (hf : ∀ a, Pictures encode (f a)) : Pictures encode (x >>= f) := by
  intro s hs
  have hfirst := hx s hs
  change (final (EStateM.bind x f s)).toWorkspace.Picturing encode ∨
    ∃ text t, EStateM.bind x f s = .error (.error (.atlas text)) t
  unfold EStateM.bind
  cases hrun : x s with
  | ok a t =>
    rw [hrun] at hfirst
    rcases hfirst with ht | ⟨text, t', hrefused⟩
    · exact hf a t ht
    · exact absurd hrefused (by simp)
  | error e t =>
    rw [hrun] at hfirst
    rcases hfirst with ht | ⟨text, t', hrefused⟩
    · exact .inl ht
    · cases hrefused
      exact .inr ⟨text, t, rfl⟩

private theorem pictures_of_obeys {step : Step Session α} (h : Obeys settling.session step) :
    Pictures encode step := fun s hs => .inl (Picturing.settled (h s).final.1 hs)

private theorem pictures_pure (a : α) : Pictures encode (pure a : Step Session α) :=
  pictures_of_obeys (obeys_pure a)

private theorem pictures_liftBuildAtlas : Pictures encode (liftM buildAtlas : Step Session Bool) := by
  intro s hs
  have h := picturing_buildAtlas hs
  change (final (Session.onWorkspace buildAtlas s)).toWorkspace.Picturing encode ∨
    ∃ text t, Session.onWorkspace buildAtlas s = .error (.error (.atlas text)) t
  unfold Session.onWorkspace Step.on
  cases hrun : buildAtlas s.toWorkspace with
  | ok b t =>
    rw [hrun] at h
    exact h.imp_right fun ⟨_, _, hrefused⟩ => absurd hrefused (by simp)
  | error e t =>
    rw [hrun] at h
    refine h.imp_right fun ⟨text, t', hrefused⟩ => ?_
    cases hrefused
    exact ⟨text, _, rfl⟩

private theorem pictures_prepare (program : List String) : Pictures encode (prepare program) := by
  have hlooking := delivering_settling.toLooking
  have hbegin : Obeys settling (changeProject fun p =>
      if p.config.spriteMerge then { p with atlas := p.atlas.begin } else p) :=
    obeys_changeProject hlooking fun p => by
      split
      · exact .of_parts rfl
      · exact Project.Quiet.refl p
  unfold prepare
  exact (pictures_of_obeys (obeys_liftWorkspace (obeys_prepareOverrides hlooking program))).bind
    fun _ => (pictures_of_obeys (obeys_liftWorkspace hbegin)).bind fun _ =>
    (pictures_of_obeys (obeys_collectProgram hlooking program)).bind fun _ =>
    pictures_liftBuildAtlas.bind fun _ =>
    (pictures_of_obeys (obeys_liftWorkspace (obeys_onProject hlooking Page.obeys_expandHead))).bind
    fun _ => pictures_pure _

private theorem pictures_emitAll (force : Bool) (program : List String) :
    Pictures encode (emitAll force program) := by
  rw [emitAll_eq]
  exact (pictures_prepare program).bind fun _ =>
    (pictures_of_obeys (obeys_liftWorkspace (obeys_refreshProgram walking_settling program))).bind
    fun _ => pictures_of_obeys
      (obeys_deliverProgram delivering_settling (fun _ => trivial) force program _ _)

private theorem settled_begun (s : Session) : s.toWorkspace.Settled s.begun.toWorkspace := by
  have hbegun : ∀ t : Session, s.toWorkspace.Settled t.toWorkspace →
      s.toWorkspace.Settled { t with phase := .entrySelection, project := t.project.beginCycle }.toWorkspace :=
    fun t ht => (ht.trans (.of_quiet t.project.quiet_beginCycle)).trans (.of_project rfl rfl)
  unfold begun
  apply hbegun
  split
  · exact ⟨rfl, rfl, rfl, rfl, rfl, rfl, fun _ h => h⟩
  · exact .of_project rfl rfl

/-- A cycle keeps it true that the image of the layout was written, unless the encoder refuses. -/
theorem pictures_compile : Pictures encode compile := by
  have hfinish : ∀ stale emitted, Pictures encode (finish stale emitted) := by
    intro stale emitted s hs
    have hdone : s.toWorkspace.Settled s.done.toWorkspace := .of_project rfl rfl
    rw [finish_eq]
    exact .inl (Picturing.settled hdone hs)
  have hcount : Pictures encode countCycle := by
    intro s hs
    rw [countCycle_eq]
    unfold counted
    split <;> exact .inl hs
  have hprelude : Pictures encode prelude := by
    intro s hs
    rw [prelude_eq]
    exact .inl (Picturing.settled (settled_begun s) hs)
  have hselect : Pictures encode select := by
    unfold select
    exact hprelude.bind fun force => pictures_of_obeys (obeys_get.bind fun s =>
      (obeys_liftWorkspace (obeys_staleMains walking_settling force _)).bind fun _ => obeys_pure _)
  have hdrop : ∀ program, Obeys settling (dropModules program) := fun program =>
    (obeys_lift _).bind fun _ => obeys_modify fun _ =>
      ⟨rfl, rfl, rfl, rfl, rfl, rfl, fun _ h => h⟩
  have hload : ∀ mains, Pictures encode (loadChecked mains) := fun mains =>
    pictures_of_obeys ((obeys_loadProgram loading_settling mains).bind fun program =>
      (obeys_liftWorkspace (hdrop program)).bind fun _ =>
        (obeys_checkProgram program).bind fun _ => obeys_pure _)
  have hbuild : ∀ force stale mains, Pictures encode (build force stale mains) := by
    intro force stale mains
    unfold build
    refine (hload mains).bind fun program => (pictures_of_obeys obeys_get).bind fun _ => ?_
    split
    · exact hfinish _ _
    · exact (pictures_emitAll force program).bind fun _ => hcount.bind fun _ => hfinish _ _
  rw [compile_eq]
  refine hselect.bind fun answer => ?_
  obtain ⟨force, mains, stale⟩ := answer
  simp only
  split
  · exact hfinish _ _
  · exact hbuild force stale mains

/-! ## Sessions in which no image was refused -/

/-- The sessions that a project can come to: the disk and the configuration change, everything may be
asked to be built anew, and cycles run, which return or end early, but not because an image was refused. -/
inductive Unrefused (project : Project) : Session → Prop where
  | start (disk : Disk) : Unrefused project (start disk project)
  | change {s : Session} (h : Unrefused project s) (disk : Disk) (config : Config) :
      Unrefused project { s with disk, project := { s.project with config } }
  | force {s : Session} (h : Unrefused project s) : Unrefused project s.forceNext
  | cycle {s : Session} (h : Unrefused project s)
      (hunrefused : ∀ text t, cycle s ≠ .error (.error (.atlas text)) t) :
      Unrefused project (final (cycle s))

/-- As long as no image is refused, the image of the layout was written. -/
theorem Unrefused.pictured {project : Project} {s : Session} (h : Unrefused project s)
    (hencoder : project.encoder = some encode) (hfailing : project.output.failing = [])
    (hnone : project.atlas.built = none) : s.toWorkspace.Picturing encode := by
  induction h with
  | start disk =>
    refine ⟨hencoder, rfl, hfailing, fun placed hplaced => ?_⟩
    have hbuilt : project.atlas.built = some placed := hplaced
    rw [hnone] at hbuilt
    exact absurd hbuilt (by simp)
  | change _ disk config ih => exact ⟨ih.encoder, ih.destination, ih.failing, ih.pictured⟩
  | force _ ih => exact ⟨ih.encoder, ih.destination, ih.failing, ih.pictured⟩
  | @cycle s _ hunrefused ih =>
    have hclear : s.clearProbes.toWorkspace.Picturing encode :=
      ⟨ih.encoder, ih.destination, ih.failing, ih.pictured⟩
    rw [cycle_eq] at hunrefused ⊢
    exact (pictures_compile s.clearProbes hclear).resolve_right fun ⟨text, t, hrefused⟩ =>
      hunrefused text t hrefused

end Session

end Bundler

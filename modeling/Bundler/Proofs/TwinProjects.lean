/-
Steps of a project, with a past and without.

What a build does to a project it does to a project with a past as well: nothing that it looks at is
part of the past. So the steps of a project are steady, from collecting references to the edits by
which a script is written and the references of style sheets. What a past does not cover (merged
sprites, translated messages) is left out by the settings.
-/
import Bundler.Proofs.Twins

set_option autoImplicit false

namespace Bundler

open Workspace Step

/-- The law under which the settings of a project stay. -/
def Project.settled : Law Project where
  moves p p' := p'.config = p.config ∧ p'.dir = p.dir
  fails _ _ := True
  refl _ := ⟨rfl, rfl⟩
  trans h h' := ⟨h'.1.trans h.1, h'.2.trans h.2⟩
  back _ _ := trivial
  fault _ _ := trivial

theorem Project.obeys_settled {α : Type} {x : Step Project α} (h : Obeys Project.quietly x) :
    Obeys Project.settled x := h.weaken (fun hq => ⟨hq.config, hq.dir⟩) fun _ _ _ => trivial

/-- What the steps of a project keep. -/
def Past.projects (past : Past) : Coupling Project where
  rel := Project.Recalls past
  law := Project.settled
  early _ _ := trivial
  fine _ := True
  back _ _ := trivial

namespace Past

variable {past : Past} {α : Type}

/-- Two projects agree on everything that they have behind the past. -/
theorem recalls_congr {β : Type} {p p' : Project} (h : Project.Recalls past p p') (o : Project → β)
    (ho : ∀ q, o (p'.behind past q) = o p') : o p = o p' := by
  obtain ⟨q, hq⟩ := h.behind
  rw [hq, ho]

/-- A change of a project that does not touch the past. -/
theorem steady_modify {f : Project → Project}
    (hbehind : ∀ p q, ∃ q', f (p.behind past q) = (f p).behind past q')
    (hsettled : ∀ p, (f p).config = p.config ∧ (f p).dir = p.dir ∧ (f p).catalogue = p.catalogue) :
    Steady past.projects (modify f) := by
  refine Steady.of_modify (fun p => ⟨(hsettled p).1, (hsettled p).2.1⟩) fun p p' h _ => ?_
  obtain ⟨hconfig, hdir, hcatalogue⟩ := hsettled p'
  obtain ⟨q, rfl⟩ := h.behind
  obtain ⟨q', hq'⟩ := hbehind p' q
  exact ⟨⟨q', hq'⟩, hconfig.trans h.config, hdir.trans h.dir, hcatalogue.trans h.untranslated⟩

/-- The same with an answer. -/
theorem steady_modifyGet {f : Project → α × Project}
    (hbehind : ∀ p q, ∃ q', f (p.behind past q) = ((f p).1, (f p).2.behind past q'))
    (hsettled : ∀ p, (f p).2.config = p.config ∧ (f p).2.dir = p.dir ∧
      (f p).2.catalogue = p.catalogue) : Steady past.projects (modifyGet f) := by
  refine Steady.of_modifyGet (fun p => ⟨(hsettled p).1, (hsettled p).2.1⟩) fun p p' h _ => ?_
  obtain ⟨hconfig, hdir, hcatalogue⟩ := hsettled p'
  obtain ⟨q, rfl⟩ := h.behind
  obtain ⟨q', hq'⟩ := hbehind p' q
  rw [hq']
  exact ⟨⟨⟨q', rfl⟩, hconfig.trans h.config, hdir.trans h.dir, hcatalogue.trans h.untranslated⟩, rfl⟩

theorem steady_shorten (name : String) :
    Steady past.projects (modifyGet fun p => p.shorten name : Step Project String) :=
  steady_modifyGet (fun _ q => ⟨q, rfl⟩) fun _ => ⟨rfl, rfl, rfl⟩

theorem steady_shortName (name : String) :
    Steady past.projects (modifyGet fun p => p.shortName name : Step Project String) :=
  steady_modifyGet (fun _ q => ⟨q, rfl⟩) fun _ => ⟨rfl, rfl, rfl⟩

theorem steady_addAsset (name output : String) :
    Steady past.projects (modify fun p => p.addAsset name output : Step Project PUnit) :=
  steady_modify (fun _ q => ⟨q, rfl⟩) fun _ => ⟨rfl, rfl, rfl⟩

/-! ## Collecting -/

open Resources

theorem steady_defaultName (name : String) : Steady past.projects (defaultName name) := by
  refine (Steady.of_lift _).bind fun css => (Steady.of_lift _).bind fun js => ?_
  split
  · exact Steady.of_pure _
  · exact steady_shorten name

theorem steady_collectAsset (file : String) (span : Span) (name : String) :
    Steady past.projects (collectAsset file span name) := by
  refine Steady.bind (steady_modifyGet (fun _ q => ⟨q, rfl⟩) fun _ => ⟨rfl, rfl, rfl⟩)
    fun outcome => ?_
  split
  · refine (steady_defaultName name).bind fun output => ?_
    exact Steady.bind (steady_modify (fun _ q => ⟨q, rfl⟩) fun _ => ⟨rfl, rfl, rfl⟩)
      fun _ => Steady.of_pure _
  · exact Steady.of_pure _
  · exact Steady.bind (steady_modify (fun _ q => ⟨q, rfl⟩) fun _ => ⟨rfl, rfl, rfl⟩)
      fun _ => Steady.of_pure _

theorem steady_collectAssets (file : String) (script : Script)
    (sites : List (Nat × Option String)) :
    Steady past.projects (collectAssets file script sites) := by
  induction sites with
  | nil => exact Steady.of_pure _
  | cons site sites ih =>
    obtain ⟨call, name⟩ := site
    unfold collectAssets
    cases name with
    | none => exact (Steady.of_pure _).bind fun _ => ih.bind fun _ => Steady.of_pure _
    | some name => exact (steady_collectAsset _ _ _).bind fun _ => ih.bind fun _ => Steady.of_pure _

/-- Without merged sprites none are collected. -/
private theorem collectSprites_of_plain {p : Project} (h : p.config.spriteMerge = false)
    (refs : References) : collectSprites refs p = p := by
  unfold collectSprites
  rw [if_pos (by simp [h])]

theorem steady_collectSprites (refs : References) :
    Steady past.projects (modify (collectSprites refs) : Step Project PUnit) := by
  refine Steady.of_modify (fun p => ?_) fun p p' h _ => ?_
  · have hquiet := quiet_collectSprites refs p
    exact ⟨hquiet.config, hquiet.dir⟩
  · have hplain : p'.config.spriteMerge = false := by rw [h.config, past.plain]
    have hplain' : p.config.spriteMerge = false := by
      rw [recalls_congr h (fun p => p.config.spriteMerge) fun _ => rfl, hplain]
    rw [collectSprites_of_plain hplain, collectSprites_of_plain hplain']
    exact h

theorem steady_collectMessages (file : String) (refs : References) :
    Steady past.projects (modify (collectMessages file refs) : Step Project PUnit) := by
  refine steady_modify (fun p q => ⟨collectMessages file refs (p.behind past q), ?_⟩) fun p => ?_
  · have hsame : ((p.behind past q).reporting && (p.behind past q).config.reportUntranslated)
        = (p.reporting && p.config.reportUntranslated) := rfl
    unfold collectMessages
    rw [hsame]
    cases p.reporting && p.config.reportUntranslated <;> rfl
  · unfold collectMessages
    split
    · exact ⟨rfl, rfl, rfl⟩
    · exact ⟨rfl, rfl, rfl⟩

theorem steady_collect (file : String) (script : Script) (refs : References) :
    Steady past.projects (collect file script refs) :=
  (steady_collectSprites refs).bind fun _ => (steady_collectMessages file refs).bind fun _ =>
    steady_collectAssets file script refs.assets

private theorem settle_behind (pending : List Pending) (p q : Project) :
    settle (p.behind past q) pending
      = ((settle p pending).1.behind past q, (settle p pending).2) := by
  induction pending generalizing p with
  | nil => rfl
  | cons a as ih =>
    have hone : settleOne (p.behind past q) a
        = ((settleOne p a).1.behind past q, (settleOne p a).2) := by
      unfold settleOne
      cases a.answer.settle <;> rfl
    unfold settle
    rw [hone]
    simp only [ih]

theorem steady_settle (pending : List Pending) :
    Steady past.projects (modifyGet fun p =>
      ((settle p pending).2, (settle p pending).1) : Step Project (List Diagnostic)) := by
  refine steady_modifyGet (fun p q => ⟨q, by rw [settle_behind]⟩) fun p => ?_
  have hquiet := quiet_settle p pending
  refine ⟨hquiet.config, hquiet.dir, ?_⟩
  have hcatalogue : ∀ (pending : List Pending) (p : Project),
      (settle p pending).1.catalogue = p.catalogue := by
    intro pending
    induction pending with
    | nil => exact fun _ => rfl
    | cons a as ih =>
      intro p
      unfold settle
      rw [ih]
      unfold settleOne
      split <;> rfl
  exact hcatalogue pending p

/-! ## Writing -/

theorem steady_applySprite (e : Editing) (site : Nat × SpriteUse) :
    Steady past.projects (applySprite e site) := by
  have hobeys := Project.obeys_settled (obeys_applySprite e site)
  refine Lockstep.of_eq hobeys hobeys fun p p' h _ => ?_
  have hplain : p'.config.spriteMerge = false := by rw [h.config, past.plain]
  have hplain' : p.config.spriteMerge = false := by
    rw [recalls_congr h (fun p => p.config.spriteMerge) fun _ => rfl, hplain]
  obtain ⟨call, s⟩ := site
  cases hname : s.name with
  | none =>
    refine ⟨Coupling.free, pure e, pure e, trivial, ?_, ?_, Steady.of_pure e⟩
    · unfold applySprite
      simp only [hname]
    · unfold applySprite
      simp only [hname]
  | some name =>
    let placed : Step Project Editing := do
      let output ← modifyGet fun p => p.shorten name
      modify fun p => p.addAsset name output
      e.setArgument call 0 (.str output)
    have hget : ∀ t : Project, (get : Step Project Project) t = .ok t t := fun _ => rfl
    refine ⟨Coupling.free, placed, placed, trivial, ?_, ?_, ?_⟩
    · unfold applySprite
      simp only [hname]
      rw [bind_of_ok (hget p), hplain']
      rfl
    · unfold applySprite
      simp only [hname]
      rw [bind_of_ok (hget p'), hplain]
      rfl
    · exact (steady_shorten name).bind fun output => (steady_addAsset name output).bind fun _ =>
        Steady.of_lift _

/-- Without a catalogue no message is set. -/
theorem steady_applyMessages (file : String) (refs : References) (e : Editing) :
    Steady past.projects (applyMessages file refs e) := by
  have hobeys := Project.obeys_settled (obeys_applyMessages file refs e)
  refine Lockstep.of_eq hobeys hobeys fun p p' h _ => ?_
  have hnone : p.catalogue = none := by
    rw [recalls_congr h Project.catalogue fun _ => rfl, h.untranslated]
  have hget : ∀ t : Project, (get : Step Project Project) t = .ok t t := fun _ => rfl
  refine ⟨Coupling.free, pure e, pure e, trivial, ?_, ?_, Steady.of_pure e⟩
  · unfold applyMessages
    rw [bind_of_ok (hget p), hnone]
  · unfold applyMessages
    rw [bind_of_ok (hget p'), h.untranslated]

theorem steady_apply (file : String) (refs : References) (e : Editing) :
    Steady past.projects (apply file refs e) :=
  (Steady.foldlM (fun e site _ => steady_applySprite e site) e).bind fun e =>
    Steady.of_get (fun p => (p.assetValues, p.config.stylePolicy))
      (f := fun o => do
        let e ← (refs.assets.foldlM (applyAsset o.1) e : Except Fault Editing)
        let e ← applyMessages file refs e
        (refs.styles.foldlM (fun e site => o.2.apply site.1 site.2 e) e : Except Fault Editing))
      (fun _ _ h => recalls_congr h (fun p => (p.assetValues, p.config.stylePolicy)) fun _ => rfl)
      fun _ => (Steady.of_lift _).bind fun _ => (steady_applyMessages _ _ _).bind fun _ =>
        Steady.of_lift _

theorem steady_render (file : String) (script : Script) (refs : References)
    (overrides : List Session.Override) (o : Script.WriteOptions) :
    Steady past.projects (Session.render file script refs overrides o) :=
  (Steady.of_lift _).bind fun _ => (steady_apply _ _ _).bind fun _ => Steady.of_lift _

/-! ## The page head and style sheets -/

theorem steady_expandPiece (piece : Page.Piece) : Steady past.projects (Page.expandPiece piece) := by
  cases piece with
  | text cs => exact Steady.of_pure _
  | asset name =>
    exact (steady_shorten _).bind fun output => (steady_addAsset _ _).bind fun _ => Steady.of_pure _

/-- The page head itself is overwritten. -/
theorem steady_setHead (head : String) :
    Steady past.projects (modify fun p => { p with htmlHead := head } : Step Project PUnit) :=
  steady_modify (fun _ q => ⟨{ q with htmlHead := head }, rfl⟩) fun _ => ⟨rfl, rfl, rfl⟩

/-- The page head becomes what a template, if there is one, expands to. -/
def setHead (template : Option String) : Step Project Unit :=
  match template with
  | none => modify fun p => { p with htmlHead := "" }
  | some template => do
    let texts ← (Page.pieces template).mapM Page.expandPiece
    modify fun p => { p with htmlHead := String.ofList texts.flatten }

theorem steady_expandHead : Steady past.projects Page.expandHead := by
  refine Steady.of_get (C := past.projects) (fun p => p.config.htmlHead) (f := setHead)
    (fun _ _ h => recalls_congr h (fun p => p.config.htmlHead) fun _ => rfl) fun head => ?_
  cases head with
  | none => exact steady_setHead ""
  | some template =>
    exact (Steady.mapM fun piece _ => steady_expandPiece piece).bind fun _ => steady_setHead _

theorem steady_mapUrls (css : String) {target : String → Step Project String}
    (h : ∀ url, Steady past.projects (target url)) :
    Steady past.projects (Stylesheet.mapUrls css target) := by
  refine (Steady.mapM fun piece _ => ?_).bind fun _ => Steady.of_pure _
  cases piece with
  | text cs => exact Steady.of_pure _
  | url quote content written =>
    unfold Stylesheet.mapPiece
    simp only
    split
    · exact (h _).bind fun _ => Steady.of_pure _
    · exact Steady.of_pure _

theorem steady_concatenate (sources : List (String × String))
    {target : String → String → Step Project String}
    (h : ∀ url sheet, Steady past.projects (target url sheet)) :
    Steady past.projects (Stylesheet.concatenate sources target) :=
  (Steady.mapM fun _ _ => steady_mapUrls _ fun _ => h _ _).bind fun _ => Steady.of_pure _

theorem steady_mergedReference (url sheet : String) :
    Steady past.projects (Assembly.mergedReference url sheet) :=
  (steady_shorten _).bind fun _ => (steady_addAsset _ _).bind fun _ =>
    (steady_shortName _).bind fun _ => Steady.of_pure _

theorem steady_plainReference (url sheet : String) :
    Steady past.projects (Assembly.plainReference url sheet) :=
  Steady.bind (steady_modify (fun _ q => ⟨q, rfl⟩) fun _ => ⟨rfl, rfl, rfl⟩) fun _ =>
    Steady.of_pure _

end Past

end Bundler

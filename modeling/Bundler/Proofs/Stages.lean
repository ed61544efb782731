/-
The laws that whole stages of a cycle obey.

Loading adds two changes to looking and reading: the script of a text is kept, and the references
of a script are. Delivering adds marks and stamps, writes, and modules that are kept for the bundle.
Where a step makes a change only under a condition, the law may use the condition: a script is kept
for a text that is current, and a copied file is stamped only if it was newer than its copy.

`N` are the names under which files are loaded. They are the entry files and imports that are no
scripts, so a law may rely on that.
-/
import Bundler.Proofs.Laws
import Bundler.Proofs.Tallies

set_option autoImplicit false

namespace Bundler

open Workspace Step

/-- The laws under which a program is loaded from files with names in `N`. -/
structure Loading (L : Law Workspace) (N : String → Prop) : Prop extends Looking L where
  script : ∀ w id file sc ds, N file → w.cache.find? w.project.dir file = some id →
    (w.cache.entry id).isTextCurrent = true → (w.cache.entry id).isSourceCurrent = false →
    Script.read file ((w.cache.entry id).text.getD "") = .ok (sc, ds) →
    L.moves w (w.changed id fun e =>
      { e with script := some sc, diagnostics := ds, sourceTime := e.textTime })
  refs : ∀ w id file, N file → w.cache.find? w.project.dir file = some id →
    (w.cache.entry id).isSourceCurrent = true →
    L.Allows w (Session.refreshReferences file id w)

/-- The laws under which a freshness pass walks. -/
structure Walking (L : Law Workspace) : Prop where
  get : ∀ w name, L.moves w { w with cache := (w.cache.get w.project.dir name).2 }
  look : ∀ w id, L.moves w { w with cache := w.cache.probe w.disk id }
  mark : ∀ w id f, L.moves w (w.changed id fun e => { e with freshness := f })
  unmark : ∀ w, L.moves w { w with cache := w.cache.clearFreshness }

/-- The laws under which files are written. -/
structure Writing (L : Law Workspace) : Prop extends Looking L where
  write : ∀ w path content, L.moves w (w.written path content)
  /-- Beside faults, only what belongs to a bundle or an atlas ends a build early. -/
  fails : ∀ w e, w.project.config.bundle ≠ .none ∨ w.project.config.spriteMerge = true →
    L.fails w e

/-- The laws under which a layout of the atlas is kept. -/
def Placing (L : Law Workspace) : Prop :=
  ∀ w atlas, L.moves w { w with project := { w.project with atlas } }

/-- The laws under which assets are copied. -/
structure Copying (L : Law Workspace) : Prop extends Writing L where
  copied : ∀ w id, (w.cache.entry id).needsCopy = true →
    L.moves w (w.changed id fun e => { e with outputTime := e.current })

/-- The laws under which modules are kept for a bundle. A script that is taken over asks for nothing. -/
def Bundling (L : Law Workspace) : Prop :=
  ∀ w id m, (m.copied = true → m.deps = []) →
    L.moves w { w with project := { w.project with emitted := w.project.emitted.insert id m } }

/-- The laws under which scripts are taken over whose keys are in `K`. -/
structure Taking (L : Law Workspace) (K : String → Prop) : Prop extends Copying L where
  keep : Bundling L
  took : ∀ w id, K (w.cache.entry id).key → (w.cache.entry id).isTextCurrent = true →
    w.project.config.bundle ≠ .none ∨ (w.cache.entry id).needsCopy = true →
    L.moves w (w.changed id fun e => { e with outputTime := e.textTime })

/-- The laws under which a program is delivered, when the freshness of its files is known. -/
structure Delivering (L : Law Workspace) (K : String → Prop) : Prop extends Taking L K where
  stamp : ∀ w id, L.moves w (w.changed id Entry.stampOutput)

/-! ## Counted messages -/

namespace Messages

/-- The number of errors is that of the messages that are errors. -/
def Counted (m : Messages) : Prop := m.errors = countOf .error m.toList

theorem counted_empty : empty.Counted := rfl

theorem Counted.add {m : Messages} (h : m.Counted) (d : Diagnostic) : (m.add d).Counted :=
  InStep.add (show m.InStep .error from h) d

theorem Counted.addAll {m : Messages} (h : m.Counted) (ds : List Diagnostic) :
    (m.addAll ds).Counted := by
  unfold Messages.addAll
  induction ds generalizing m with
  | nil => exact h
  | cons d ds ih => exact ih (h.add d)

theorem Counted.retainFiles {m : Messages} (h : m.Counted) (keep : String → Bool) :
    (m.retainFiles keep).Counted := InStep.retainFiles (show m.InStep .error from h) keep

theorem Counted.clearFile {m : Messages} (h : m.Counted) (file : String) :
    (m.clearFile file).Counted := h.retainFiles _

/-- Where an error is among the messages, it is counted. -/
theorem Counted.hasErrors {m : Messages} (h : m.Counted) {d : Diagnostic} (hd : d ∈ m.toList)
    (herror : d.severity = .error) : m.hasErrors = true := by
  unfold Messages.hasErrors
  rw [h, decide_eq_true_iff]
  exact List.countP_pos_iff.mpr ⟨d, hd, by simp [herror]⟩

end Messages

/-- What a session has beside its workspace and its messages stays as it is, and the messages stay
counted. -/
structure Session.Keeps (s t : Session) : Prop where
  force : t.force = s.force
  configText : t.configText = s.configText
  liveReloadIndex : t.liveReloadIndex = s.liveReloadIndex
  counted : s.messages.Counted → t.messages.Counted

theorem Session.Keeps.refl (s : Session) : s.Keeps s := ⟨rfl, rfl, rfl, fun h => h⟩

theorem Session.Keeps.trans {s t u : Session} (h : s.Keeps t) (h' : t.Keeps u) : s.Keeps u :=
  ⟨h'.force.trans h.force, h'.configText.trans h.configText,
    h'.liveReloadIndex.trans h.liveReloadIndex, fun hs => h'.counted (h.counted hs)⟩

/-! ## Laws of sessions -/

/-- A law of workspaces as a law of sessions. -/
def Step.Law.session (L : Law Workspace) : Law Session where
  moves s t := L.moves s.toWorkspace t.toWorkspace ∧ s.Keeps t
  fails s e := L.fails s.toWorkspace e
  refl s := ⟨L.refl s.toWorkspace, Session.Keeps.refl s⟩
  trans h h' := ⟨L.trans h.1 h'.1, h.2.trans h'.2⟩
  back h h' := L.back h.1 h'
  fault s f := L.fault s.toWorkspace f

variable {L : Law Workspace} {N K : String → Prop}

theorem allows_liftWorkspace {α : Type} {step : Step Workspace α} {s : Session}
    (h : L.Allows s.toWorkspace (step s.toWorkspace)) :
    L.session.Allows s ((liftM step : Step Session α) s) := by
  change L.session.Allows s (Session.onWorkspace step s)
  unfold Session.onWorkspace Step.on
  cases hr : step s.toWorkspace with
  | ok a w =>
    rw [hr] at h
    exact ⟨h, rfl, rfl, rfl, fun h => h⟩
  | error e w =>
    rw [hr] at h
    exact ⟨⟨h.1, rfl, rfl, rfl, fun h => h⟩, h.2⟩

/-- Two laws of loading at once. -/
theorem Loading.and {L' : Law Workspace} (h : Loading L N) (h' : Loading L' N) :
    Loading (L.and L') N where
  config hm := h.config hm.1
  dir hm := h.dir hm.1
  enter w phase := ⟨h.enter w phase, h'.enter w phase⟩
  get w name := ⟨h.get w name, h'.get w name⟩
  look w id := ⟨h.look w id, h'.look w id⟩
  text w id := ⟨h.text w id, h'.text w id⟩
  buffer w id := ⟨h.buffer w id, h'.buffer w id⟩
  quiet w p hq := ⟨h.quiet w p hq, h'.quiet w p hq⟩
  script w id file sc ds hN hfind htext hout hread :=
    ⟨h.script w id file sc ds hN hfind htext hout hread,
      h'.script w id file sc ds hN hfind htext hout hread⟩
  refs w id file hN hfind hsource :=
    (h.refs w id file hN hfind hsource).and (h'.refs w id file hN hfind hsource)

theorem obeys_liftWorkspace {α : Type} {step : Step Workspace α} (h : Obeys L step) :
    Obeys L.session (liftM step : Step Session α) := fun s => allows_liftWorkspace (h s.toWorkspace)

theorem liftWorkspace_ok_iff {α : Type} (step : Step Workspace α) (a : α) (s t : Session) :
    (liftM step : Step Session α) s = .ok a t
      ↔ ∃ w, step s.toWorkspace = .ok a w ∧ { s with toWorkspace := w } = t := by
  change Session.onWorkspace step s = .ok a t ↔ _
  exact on_ok_iff _ _ _ _ _ _

theorem obeys_changeMessages {f : Messages → Messages}
    (hf : ∀ m : Messages, m.Counted → (f m).Counted) :
    Obeys L.session (Session.changeMessages f) :=
  obeys_modify fun s => ⟨L.refl s.toWorkspace, rfl, rfl, rfl, hf s.messages⟩

namespace Session

/-! ## Loading -/

/-- After a script was brought up to date it is current. -/
theorem refreshScript_ok {file : String} {id : Nat} {w w' : Workspace} {u : Unit}
    (hid : id < w.cache.entries.length) (htext : (w.cache.entry id).isTextCurrent = true)
    (h : refreshScript file id w = .ok u w') :
    w'.cache.keys = w.cache.keys ∧ w'.project = w.project ∧ w'.destination = w.destination ∧
      (w'.cache.entry id).isSourceCurrent = true := by
  unfold refreshScript at h
  obtain ⟨e, w₁, he, h⟩ := (bind_ok_iff _ _ _ _ _).mp h
  obtain ⟨rfl, rfl⟩ := (entry_ok_iff _ _ _ _).mp he
  by_cases hcur : (w.cache.entry id).isSourceCurrent = true
  · rw [hcur] at h
    simp only [Bool.not_true, Bool.false_eq_true, if_false] at h
    obtain ⟨-, rfl⟩ := (pure_ok_iff _ _ _ _).mp h
    exact ⟨rfl, rfl, rfl, hcur⟩
  · have hfalse : (w.cache.entry id).isSourceCurrent = false := by simpa using hcur
    rw [hfalse] at h
    simp only [Bool.not_false, if_true] at h
    obtain ⟨⟨sc, ds⟩, w₁, hread, h⟩ := (bind_ok_iff _ _ _ _ _).mp h
    obtain ⟨-, rfl⟩ := (lift_ok_iff _ _ _ _).mp hread
    have hw' := (modify_ok_iff _ _ _ _).mp h
    subst hw'
    refine ⟨Cache.keys_modify fun _ => rfl, rfl, rfl, ?_⟩
    change ((w.cache.modify id _).entry id).isSourceCurrent = true
    rw [Cache.entry_modify_self _ hid]
    exact Entry.isSourceCurrent_iff.mpr ⟨htext, rfl, sc, rfl⟩

theorem obeys_refreshScript (hL : Loading L N) {file : String} (hN : N file) {id : Nat}
    {w : Workspace} (hfind : w.cache.find? w.project.dir file = some id)
    (htext : (w.cache.entry id).isTextCurrent = true) :
    L.Allows w (refreshScript file id w) := by
  unfold refreshScript
  refine Law.Allows.bind (obeys_entry id w) fun e t he => ?_
  obtain ⟨rfl, rfl⟩ := (entry_ok_iff _ _ _ _).mp he
  split
  · rename_i hcur
    refine Law.Allows.bind (obeys_lift _ w) fun r t hr => ?_
    obtain ⟨hread, rfl⟩ := (lift_ok_iff _ _ _ _).mp hr
    obtain ⟨sc, ds⟩ := r
    exact hL.script w id file sc ds hN hfind htext (by simpa using hcur) hread
  · exact obeys_pure _ w

theorem obeys_findImports (hL : Looking L) (file : String) (specifiers : List String) :
    Obeys L (findImports file specifiers) := by
  induction specifiers with
  | nil => exact obeys_pure _
  | cons specifier rest ih =>
    refine (ModuleSearch.obeys_find hL _ _).bind fun found => ih.bind fun others => ?_
    split
    · exact obeys_pure _
    · exact obeys_pure _

/-- Bringing a file up to date obeys a law of loading: its text was read just before, and its
script is current when its references are gathered. -/
theorem obeys_loadFile (hL : Loading L N) {file : String} (hN : N file) :
    Obeys L.session (loadFile file) := by
  intro s
  unfold loadFile
  refine Law.Allows.bind (obeys_liftWorkspace (obeys_content hL.toLooking file) s)
    fun id t hcontent => ?_
  obtain ⟨w, hw, rfl⟩ := (liftWorkspace_ok_iff _ _ _ _).mp hcontent
  obtain ⟨hid, rfl⟩ := (onCache_ok_iff _ _ _ _).mp hw
  have hfind := Cache.find?_content s.disk s.project.dir file s.cache
  rw [hid] at hfind
  refine Law.Allows.bind (obeys_liftWorkspace (obeys_entry id) _) fun e t he => ?_
  obtain ⟨w, hw, rfl⟩ := (liftWorkspace_ok_iff _ _ _ _).mp he
  obtain ⟨hentry, rfl⟩ := (entry_ok_iff _ _ _ _).mp hw
  by_cases htext : e.isTextCurrent = true
  · simp only [htext, Bool.not_true, Bool.false_eq_true, if_false]
    rw [← hentry] at htext
    refine Law.Allows.bind (allows_liftWorkspace (obeys_refreshScript hL hN hfind htext))
      fun u t hscript => ?_
    obtain ⟨w, hw, rfl⟩ := (liftWorkspace_ok_iff _ _ _ _).mp hscript
    obtain ⟨hkeys, hproject, -, hsource⟩ :=
      refreshScript_ok (Cache.find?_some hfind).1 htext hw
    have hfind' : w.cache.find? w.project.dir file = some id := by
      rw [Cache.find?_eq_keys, hkeys, hproject, ← Cache.find?_eq_keys]
      exact hfind
    refine Law.Allows.bind (allows_liftWorkspace (hL.refs w id file hN hfind' hsource))
      fun u t _ => ?_
    exact (obeys_liftWorkspace (obeys_entry id)).bind (fun _ => obeys_pure _) t
  · simp only [htext, Bool.not_false, if_true]
    exact (obeys_changeMessages fun m hm => hm.add _).bind (fun _ => obeys_pure _) _

/-- What bringing a file up to date has done when it succeeds. Its text is read, and then its script
and its references are brought up to date, or a message says that there is no text. -/
theorem loadFile_cases {file : String} {answer : Option (List String)} {s t : Session}
    (h : loadFile file s = .ok answer t) :
    ∃ id w, w.cache.find? w.project.dir file = some id ∧ w.project = s.project ∧
      w.destination = s.destination ∧
      (((w.cache.entry id).isTextCurrent = true ∧ ∃ w₁ w₂, refreshScript file id w = .ok () w₁ ∧
          w₁.cache.find? w₁.project.dir file = some id ∧ w₁.project = w.project ∧
          w₁.destination = w.destination ∧ (w₁.cache.entry id).isSourceCurrent = true ∧
          refreshReferences file id w₁ = .ok () w₂ ∧
          answer = some (((w₂.cache.entry id).references?.map References.files).getD []) ∧
          t = { s with toWorkspace := w₂ }) ∨
        (answer = none ∧
          t = { s with toWorkspace := w, messages := s.messages.add (missingSource file) })) := by
  unfold loadFile at h
  obtain ⟨id, s₁, hcontent, h⟩ := (bind_ok_iff _ _ _ _ _).mp h
  obtain ⟨w, hw, rfl⟩ := (liftWorkspace_ok_iff _ _ _ _).mp hcontent
  obtain ⟨hid, hcache⟩ := (onCache_ok_iff _ _ _ _).mp hw
  have hfind : w.cache.find? w.project.dir file = some id := by
    rw [← hcache, ← hid]
    exact Cache.find?_content s.disk s.project.dir file s.cache
  refine ⟨id, w, hfind, by rw [← hcache], by rw [← hcache], ?_⟩
  obtain ⟨e, s₂, he, h⟩ := (bind_ok_iff _ _ _ _ _).mp h
  obtain ⟨w', hw', rfl⟩ := (liftWorkspace_ok_iff _ _ _ _).mp he
  obtain ⟨rfl, rfl⟩ := (entry_ok_iff _ _ _ _).mp hw'
  by_cases htext : (w.cache.entry id).isTextCurrent = true
  · left
    simp only [htext, Bool.not_true, Bool.false_eq_true, if_false] at h
    obtain ⟨u, s₃, hscript, h⟩ := (bind_ok_iff _ _ _ _ _).mp h
    obtain ⟨w₁, hw₁, rfl⟩ := (liftWorkspace_ok_iff _ _ _ _).mp hscript
    obtain ⟨hkeys, hproject, hdest, hsource⟩ := refreshScript_ok (Cache.find?_some hfind).1 htext hw₁
    obtain ⟨u', s₄, hrefs, h⟩ := (bind_ok_iff _ _ _ _ _).mp h
    obtain ⟨w₂, hw₂, rfl⟩ := (liftWorkspace_ok_iff _ _ _ _).mp hrefs
    obtain ⟨e', s₅, he', h⟩ := (bind_ok_iff _ _ _ _ _).mp h
    obtain ⟨w₃, hw₃, rfl⟩ := (liftWorkspace_ok_iff _ _ _ _).mp he'
    obtain ⟨rfl, rfl⟩ := (entry_ok_iff _ _ _ _).mp hw₃
    obtain ⟨rfl, rfl⟩ := (pure_ok_iff _ _ _ _).mp h
    refine ⟨htext, w₁, w₂, hw₁, ?_, hproject, hdest, hsource, hw₂, rfl, rfl⟩
    rw [Cache.find?_eq_keys, hkeys, hproject, ← Cache.find?_eq_keys]
    exact hfind
  · right
    simp only [htext, Bool.not_false, if_true] at h
    obtain ⟨u, s₃, htell, h⟩ := (bind_ok_iff _ _ _ _ _).mp h
    have hs₃ := (modify_ok_iff _ _ _ _).mp htell
    obtain ⟨rfl, rfl⟩ := (pure_ok_iff _ _ _ _).mp h
    exact ⟨rfl, hs₃.symm⟩

/-- What a file that was brought up to date imports is what its entry says. -/
theorem loadFile_deps {file : String} {deps : List String} {s t : Session}
    (h : loadFile file s = .ok (some deps) t) :
    ∃ id, deps = ((t.cache.entry id).references?.map References.files).getD [] := by
  obtain ⟨id, w, -, -, -, hcases⟩ := loadFile_cases h
  rcases hcases with ⟨-, w₁, w₂, -, -, -, -, -, -, hdeps, rfl⟩ | ⟨hnone, -⟩
  · exact ⟨id, Option.some.inj hdeps⟩
  · exact absurd hnone (by simp)

/-- What the visit of a file has done when it succeeds. The file was met before; or it is brought up
to date, and then it cannot be read, or its imports are visited and it is listed behind them. -/
theorem visit_cases {depth : Nat} {l l' : Loaded} {file : String} {s s' : Session}
    (h : visit (depth + 1) l file s = .ok l' s') :
    (Text.lower file ∈ l.met ∧ l' = l ∧ s' = s) ∨
      (Text.lower file ∉ l.met ∧ ∃ answer t,
        loadFile file { s with messages := s.messages.clearFile file } = .ok answer t ∧
        ((answer = none ∧ l' = { l with met := Text.lower file :: l.met } ∧ s' = t) ∨
          ∃ deps l₁, answer = some deps ∧
            (deps.foldlM (fun l dep => do
              if ← Path.isJs dep then return l else visit depth l dep)
              { l with met := Text.lower file :: l.met } : Step Session Loaded) t = .ok l₁ s' ∧
            l' = { l₁ with program := l₁.program ++ [file] })) := by
  unfold visit at h
  by_cases hmet : l.met.contains (Text.lower file) = true
  · rw [if_pos hmet] at h
    obtain ⟨rfl, rfl⟩ := (pure_ok_iff _ _ _ _).mp h
    exact .inl ⟨by simpa using hmet, rfl, rfl⟩
  · rw [if_neg hmet] at h
    obtain ⟨u, s₁, hclear, h⟩ := (bind_ok_iff _ _ _ _ _).mp h
    obtain rfl := (modify_ok_iff _ _ _ _).mp hclear
    obtain ⟨answer, s₂, hload, h⟩ := (bind_ok_iff _ _ _ _ _).mp h
    refine .inr ⟨by simpa using hmet, answer, s₂, hload, ?_⟩
    cases answer with
    | none =>
      obtain ⟨rfl, rfl⟩ := (pure_ok_iff _ _ _ _).mp h
      exact .inl ⟨rfl, rfl, rfl⟩
    | some deps =>
      obtain ⟨l₁, s₃, hfold, h⟩ := (bind_ok_iff _ _ _ _ _).mp h
      obtain ⟨rfl, rfl⟩ := (pure_ok_iff _ _ _ _).mp h
      exact .inr ⟨deps, l₁, rfl, hfold, rfl⟩

/-- What going on to the next import has done: a script is passed over, another file is visited. -/
theorem visit_import_cases {depth : Nat} {l l' : Loaded} {dep : String} {ds : List String}
    {s s' : Session}
    (h : ((dep :: ds).foldlM (fun l dep => do
      if ← Path.isJs dep then return l else visit depth l dep) l : Step Session Loaded) s
      = .ok l' s') :
    ∃ l₁ s₁, ((Path.isJs dep = .ok true ∧ l₁ = l ∧ s₁ = s) ∨
        (Path.isJs dep = .ok false ∧ visit depth l dep s = .ok l₁ s₁)) ∧
      (ds.foldlM (fun l dep => do
        if ← Path.isJs dep then return l else visit depth l dep) l₁ : Step Session Loaded) s₁
        = .ok l' s' := by
  rw [List.foldlM_cons] at h
  obtain ⟨l₁, s₁, hone, h⟩ := (bind_ok_iff _ _ _ _ _).mp h
  obtain ⟨js, s₂, hlift, hone⟩ := (bind_ok_iff _ _ _ _ _).mp hone
  obtain ⟨hjs, rfl⟩ := (lift_ok_iff _ _ _ _).mp hlift
  refine ⟨l₁, s₁, ?_, h⟩
  cases js with
  | true =>
    obtain ⟨rfl, rfl⟩ := (pure_ok_iff _ _ _ _).mp hone
    exact .inl ⟨hjs, rfl, rfl⟩
  | false => exact .inr ⟨hjs, hone⟩

section Visiting

variable {A : Workspace → String → Prop}
  (hload : ∀ s file, A s.toWorkspace file → L.session.Allows s (loadFile file s))
  (hmoves : ∀ w w' file, L.moves w w' → A w file → A w' file)
  (hdown : ∀ w file id refs dep, A w file → (w.cache.entry id).references? = some refs →
    dep ∈ refs.files → Path.isJs dep = .ok false → A w dep)

include hload hmoves hdown

/-- Going down the imports obeys a law that holds of bringing a file up to date, for a file that may
be loaded. Scripts are not gone into, so every other import has to be one that may be. -/
theorem allows_visit :
    ∀ (depth : Nat) (l : Loaded) (file : String) (s : Session), A s.toWorkspace file →
      L.session.Allows s (visit depth l file s) := by
  intro depth
  induction depth with
  | zero => exact fun l file s _ => obeys_pure l s
  | succ depth ih =>
    intro l file s hfile
    unfold visit
    split
    · exact obeys_pure l s
    · refine Law.Allows.bind (obeys_changeMessages (fun m hm => hm.clearFile _) s) fun u s₁ hs₁ => ?_
      have hfile₁ : A s₁.toWorkspace file := by
        rw [← (modify_ok_iff _ _ _ _).mp hs₁]
        exact hfile
      have hone := hload s₁ file hfile₁
      refine hone.bind fun answer s₂ hs₂ => ?_
      rw [hs₂] at hone
      have hfile₂ : A s₂.toWorkspace file := hmoves _ _ _ hone.1 hfile₁
      cases answer with
      | none => exact obeys_pure _ s₂
      | some deps =>
        have hdeps : ∀ dep ∈ deps, Path.isJs dep = .ok false → A s₂.toWorkspace dep := by
          intro dep hdep hjs
          obtain ⟨id, hid⟩ := loadFile_deps hs₂
          rw [hid] at hdep
          cases hrefs : (s₂.cache.entry id).references? with
          | none =>
            rw [hrefs] at hdep
            exact absurd hdep List.not_mem_nil
          | some refs =>
            rw [hrefs] at hdep
            exact hdown s₂.toWorkspace file id refs dep hfile₂ hrefs hdep hjs
        -- the imports one after the other, each from where the one before has ended
        have hfold : ∀ (ds : List String) (l : Loaded) (t : Session),
            (∀ dep ∈ ds, Path.isJs dep = .ok false → A t.toWorkspace dep) →
            L.session.Allows t ((ds.foldlM (fun l dep => do
              if ← Path.isJs dep then return l else visit depth l dep) l : Step Session Loaded) t) := by
          intro ds
          induction ds with
          | nil => exact fun l t _ => obeys_pure l t
          | cons dep ds ihds =>
            intro l t hds
            have hone : L.session.Allows t ((do
                if ← Path.isJs dep then return l else visit depth l dep : Step Session Loaded) t) := by
              refine Law.Allows.bind (obeys_lift _ t) fun js t' hjs => ?_
              obtain ⟨hsaid, rfl⟩ := (lift_ok_iff _ _ _ _).mp hjs
              cases js with
              | true => exact obeys_pure l t
              | false => exact ih l dep t (hds dep List.mem_cons_self hsaid)
            refine hone.bind fun l' t' ht' => ?_
            rw [ht'] at hone
            exact ihds l' t' fun d hd hjs =>
              hmoves _ _ _ hone.1 (hds d (List.mem_cons_of_mem _ hd) hjs)
        exact Law.Allows.bind (hfold deps _ s₂ hdeps) fun l' t _ => obeys_pure _ t

theorem allows_loadProgram {mains : List String} (s : Session)
    (hmains : ∀ main ∈ mains, A s.toWorkspace main) :
    L.session.Allows s (loadProgram mains s) := by
  have hfold : ∀ (depth : Nat) (ms : List String) (l : Loaded) (t : Session),
      (∀ main ∈ ms, A t.toWorkspace main) → L.session.Allows t (ms.foldlM (visit depth) l t) := by
    intro depth ms
    induction ms with
    | nil => exact fun l t _ => obeys_pure l t
    | cons m ms ih =>
      intro l t hms
      have hone := allows_visit hload hmoves hdown depth l m t (hms m List.mem_cons_self)
      refine hone.bind fun l' t' ht' => ?_
      rw [ht'] at hone
      exact ih l' t' fun main hm => hmoves _ _ _ hone.1 (hms main (List.mem_cons_of_mem _ hm))
  unfold loadProgram
  refine Law.Allows.bind (obeys_get s) fun t s' hget => ?_
  obtain ⟨rfl, rfl⟩ := (get_ok_iff _ _ _).mp hget
  exact Law.Allows.bind (hfold _ mains _ _ hmains) fun l t _ =>
    ((obeys_changeMessages fun m hm => hm.retainFiles _).bind fun _ => obeys_pure _) t

end Visiting

/-- A law of loading a file under any name is one of visiting it. -/
theorem obeys_visit (hL : Loading L fun _ => True) (depth : Nat) (l : Loaded) (file : String) :
    Obeys L.session (visit depth l file) := fun s =>
  allows_visit (A := fun _ _ => True) (fun s _ _ => obeys_loadFile hL trivial s)
    (fun _ _ _ _ _ => trivial) (fun _ _ _ _ _ _ _ _ _ => trivial) depth l file s trivial

theorem obeys_loadProgram (hL : Loading L fun _ => True) (mains : List String) :
    Obeys L.session (loadProgram mains) := fun s =>
  allows_loadProgram (A := fun _ _ => True) (fun s _ _ => obeys_loadFile hL trivial s)
    (fun _ _ _ _ _ => trivial) (fun _ _ _ _ _ _ _ _ _ => trivial) s fun _ _ => trivial

theorem obeys_checkProgram (program : List String) : Obeys L.session (checkProgram program) := by
  unfold checkProgram
  exact obeys_get.bind fun s => (obeys_changeMessages fun m hm => hm.addAll _).bind fun _ =>
    obeys_changeMessages fun m hm => hm.addAll _

/-! ## Passes -/

private theorem moves_newest {w₀ : Workspace} {visit : String → Cache → Freshness × Cache}
    (hvisit : ∀ file c, L.moves w₀ { w₀ with cache := c } →
      L.moves w₀ { w₀ with cache := (visit file c).2 }) :
    ∀ (files : List String) (time : Nat) (c : Cache), L.moves w₀ { w₀ with cache := c } →
      L.moves w₀ { w₀ with cache := (Cache.newest visit time files c).2 } := by
  intro files
  induction files with
  | nil => exact fun _ c hc => hc
  | cons file files ih =>
    intro time c hc
    unfold Cache.newest
    have hone := hvisit file c hc
    cases hv : (visit file c).1.time? with
    | some t =>
      simp only [hv]
      exact ih _ _ hone
    | none =>
      simp only [hv]
      exact hone

/-- A walk is made of looks and marks. -/
private theorem moves_freshnessWithin (hL : Walking L) (ignore : Bool) (w₀ : Workspace) :
    ∀ (depth id : Nat) (c : Cache), L.moves w₀ { w₀ with cache := c } →
      L.moves w₀ { w₀ with
        cache := (Cache.freshnessWithin w₀.disk w₀.project.dir ignore depth id c).2 } := by
  intro depth
  induction depth with
  | zero => exact fun id c hc => hc
  | succ depth ih =>
    intro id c hc
    have hmark : ∀ c' f, L.moves w₀ { w₀ with cache := c' } →
        L.moves w₀ { w₀ with cache := c'.modify id fun e => { e with freshness := f } } :=
      fun c' f hc' => L.trans hc' (hL.mark { w₀ with cache := c' } id f)
    have hlook := L.trans hc (hL.look { w₀ with cache := c } id)
    unfold Cache.freshnessWithin
    by_cases hknown : ((c.entry id).freshness != .unset) = true
    · simp only [hknown, if_true]
      exact hc
    · simp only [hknown, Bool.false_eq_true, if_false, Cache.settle]
      cases htime : ((c.probe w₀.disk id).entry id).current.time? with
      | none => exact hmark _ _ hlook
      | some time =>
        have hopen := hmark _ (.inProgress time) hlook
        obtain ⟨c', hc'⟩ : ∃ c', ((c.probe w₀.disk id).modify id fun e =>
            { e with freshness := .inProgress time }) = c' := ⟨_, rfl⟩
        rw [hc'] at hopen
        simp only [hc']
        by_cases hnever : (!ignore && !(c'.entry id).outputTime.isSet) = true
        · rw [if_pos hnever]
          exact hmark _ _ hopen
        · rw [if_neg hnever]
          have hfiles := moves_newest (fun file c hc =>
            ih (c.get w₀.project.dir file).1 (c.get w₀.project.dir file).2
              (L.trans hc (hL.get { w₀ with cache := c } file)))
            (((c'.entry id).references?.map References.files).getD []) time c' hopen
          split
          · rename_i t c'' hrun
            rw [hrun] at hfiles
            exact hmark _ _ hfiles
          · rename_i c'' hrun
            rw [hrun] at hfiles
            exact hmark _ _ hfiles

theorem moves_freshness (hL : Walking L) (ignore : Bool) (id : Nat) (w : Workspace) :
    L.moves w { w with cache := (w.cache.freshness w.disk w.project.dir ignore id).2 } :=
  moves_freshnessWithin hL ignore w _ id w.cache (L.refl w)

theorem obeys_refreshProgram (hL : Walking L) (program : List String) :
    Obeys L (refreshProgram program) := by
  unfold refreshProgram
  refine (obeys_onCache hL.unmark).bind fun _ => obeys_forM (fun file => ?_) program
  refine obeys_onCache fun w => ?_
  exact L.trans (hL.get w file) (moves_freshness hL true _ _)

theorem obeys_staleMains (hL : Walking L) (force : Bool) (mains : List String) :
    Obeys L (staleMains force mains) := by
  unfold staleMains
  refine (obeys_onCache hL.unmark).bind fun _ => obeys_filterM (fun main => ?_) mains
  refine obeys_onCache fun w => ?_
  unfold Cache.isStale
  simp only
  by_cases hforce : force = true
  · rw [if_pos hforce]
    exact hL.get w main
  · rw [if_neg hforce]
    exact L.trans (hL.get w main) (moves_freshness hL false _ _)

/-! ## Before anything is written -/

theorem obeys_overriddenFile? (program : List String) (module : String) :
    Obeys L (overriddenFile? program module) := by
  unfold overriddenFile?
  refine obeys_get.bind fun w => ?_
  split
  · exact obeys_pure _
  · exact obeys_lift _

theorem obeys_constantOverrides (hsay : ∀ line, Obeys L (say line)) (script : Script)
    (file module : String)
    (constants : List (String × Json)) :
    Obeys L (constantOverrides script file module constants) := by
  induction constants with
  | nil => exact obeys_pure _
  | cons constant rest ih =>
    obtain ⟨name, value⟩ := constant
    unfold constantOverrides
    split
    · exact ih.bind fun _ => obeys_pure _
    · exact (hsay _).bind fun _ => ih

/-- The overrides of a module only say something. -/
theorem obeys_moduleOverrides (hsay : ∀ line, Obeys L (say line)) (program : List String)
    (m : String × Constants) :
    Obeys L (moduleOverrides program m) := by
  obtain ⟨module, constants⟩ := m
  unfold moduleOverrides
  refine (obeys_overriddenFile? program module).bind fun file => ?_
  split
  · exact (hsay _).bind fun _ => obeys_pure _
  · refine obeys_get.bind fun w => ?_
    simp only
    split
    · exact obeys_pure _
    · exact obeys_constantOverrides hsay _ _ _ _

theorem obeys_prepareOverrides (hL : Looking L) (program : List String) :
    Obeys L (prepareOverrides program) :=
  obeys_get.bind fun _ => (obeys_mapM (obeys_moduleOverrides (obeys_say hL) program) _).bind fun _ =>
    obeys_pure _

theorem obeys_collectFrom (hL : Looking L) (program : List String) :
    Obeys L.session (collectFrom program) := by
  induction program with
  | nil => exact obeys_pure _
  | cons file files ih =>
    unfold collectFrom
    refine (obeys_lift _).bind fun declaration => ?_
    split
    · exact ih
    · refine (obeys_liftWorkspace (obeys_onCache fun w => hL.get w file)).bind fun id =>
        (obeys_liftWorkspace (obeys_entry id)).bind fun e => ?_
      split
      · exact (obeys_liftWorkspace (obeys_onProject hL (Resources.obeys_collect _ _ _))).bind
          fun _ => ih.bind fun _ => obeys_pure _
      · exact (obeys_pure _).bind fun _ => ih.bind fun _ => obeys_pure _

theorem obeys_collectProgram (hL : Looking L) (program : List String) :
    Obeys L.session (collectProgram program) := by
  unfold collectProgram
  refine (obeys_collectFrom hL program).bind fun collected => ?_
  have hsettle : Obeys L (onProject (modifyGet fun p =>
      ((Resources.settle p collected.pending).2, (Resources.settle p collected.pending).1))) :=
    obeys_onProject hL (obeys_modifyGet fun p => Resources.quiet_settle p collected.pending)
  exact (obeys_changeMessages fun m hm => hm.addAll _).bind fun _ =>
    (obeys_liftWorkspace hsettle).bind fun _ => obeys_changeMessages fun m hm => hm.addAll _

theorem obeys_imageSizes (hL : Looking L) (names : List String) :
    Obeys L (imageSizes names) := by
  induction names with
  | nil => exact obeys_pure _
  | cons name names ih =>
    exact (obeys_bytes hL name).bind fun id => (obeys_entry id).bind fun _ => ih.bind fun _ =>
      obeys_pure _

theorem obeys_encodeAtlas (hL : Writing L) (image : AtlasImage) (output : String) :
    Obeys L.free (encodeAtlas image output) := by
  unfold encodeAtlas
  refine obeys_get.bind fun w => ?_
  split
  · exact obeys_pure _
  · simp only
    split
    · exact obeys_modify fun w => hL.write w _ _
    · exact obeys_throw fun _ => trivial

theorem Looking.free (hL : Looking L) : Looking L.free :=
  ⟨hL.config, hL.dir, hL.enter, hL.get, hL.look, hL.text, hL.buffer, hL.quiet⟩

/-- The image of the sprites is only made where sprites are merged. -/
theorem obeys_buildAtlas (hL : Writing L) (hplace : Placing L) : Obeys L buildAtlas := by
  intro w
  unfold buildAtlas
  refine Law.Allows.bind (obeys_get w) fun v t hget => ?_
  obtain ⟨rfl, rfl⟩ := (get_ok_iff _ _ _).mp hget
  simp only
  by_cases hnone : (!w.project.config.spriteMerge || !w.project.atlas.changed) = true
  · rw [if_pos hnone]
    exact obeys_pure _ w
  · rw [if_neg hnone]
    have hmerge : w.project.config.spriteMerge = true := by
      by_contra hne
      simp [hne] at hnone
    apply Law.Allows.of_free fun e => hL.fails w e (.inr hmerge)
    have hfree : Looking L.free := Looking.free hL.toLooking
    refine ((obeys_imageSizes hfree _).bind fun sizes => (obeys_lift _).bind fun r => ?_) w
    have hatlas : Obeys L.free (changeProject fun p => { p with atlas := r.2 }) :=
      obeys_modify fun w => hplace w r.2
    have hpng : ∀ output : String,
        Obeys L.free (changeProject fun p => { p with bundlePng := some output }) := fun _ =>
      obeys_changeProject hfree fun _ =>
        .of_parts rfl
    exact hatlas.bind fun _ => (obeys_onProject hfree (obeys_shorten _)).bind fun output =>
      (hpng output).bind fun _ => (obeys_encodeAtlas hL _ _).bind fun _ => obeys_pure _

/-! ## Writing scripts -/

theorem obeys_write (hL : Writing L) (path : String) (content : Bytes) :
    Obeys L (write path content) := obeys_modify fun w => hL.write w path content

theorem obeys_keepModule (hkeep : Bundling L) (file : String) (refs : References)
    (written : Script.Written) : Obeys L.free (keepModule file refs written) := by
  have hinsert : ∀ (id js : String) (sourceMap : Option SourceMap) (deps : List String),
      Obeys L.free (changeProject fun p =>
        { p with emitted := p.emitted.insert id ⟨id, js, sourceMap, deps, false⟩ }) :=
    fun id js sourceMap deps => obeys_modify fun w => hkeep w id _ fun h => absurd h (by simp)
  unfold keepModule
  simp only
  split
  · exact (obeys_pure _).bind fun _ => (obeys_lift _).bind fun _ => (obeys_lift _).bind fun _ =>
      hinsert _ _ _ _
  · split
    · exact (obeys_pure _).bind fun _ => (obeys_lift _).bind fun _ => (obeys_lift _).bind fun _ =>
        hinsert _ _ _ _
    · exact (obeys_throw fun _ => trivial).bind fun _ => (obeys_lift _).bind fun _ =>
        (obeys_lift _).bind fun _ => hinsert _ _ _ _

/-- Writes a script and its map as files. -/
def writeJs (jsName : String) (written : Script.Written) : Step Workspace Unit := do
  if let some text := written.sourceMap then write (jsName ++ ".map") (Text.toBytes text)
  write jsName (Text.toBytes written.js)

/-- What a delivery does with the script itself and its map, behind the declarations. -/
def deliverJs (file jsName : String) (refs : References) (written : Script.Written) :
    Step Workspace Unit := do
  if (← get).project.config.bundle != .none then keepModule file refs written
  else writeJs jsName written

/-- A written script is kept only where there is a bundle, so nothing but a fault ends its delivery
early where there is none. -/
theorem obeys_deliverJs (hL : Taking L K) (file jsName : String) (refs : References)
    (written : Script.Written) : Obeys L (deliverJs file jsName refs written) := by
  intro w
  refine Law.Allows.bind (obeys_get w) fun v t hget => ?_
  obtain ⟨rfl, rfl⟩ := (get_ok_iff _ _ _).mp hget
  by_cases hbundle : (w.project.config.bundle != .none) = true
  · rw [if_pos hbundle]
    apply Law.Allows.of_free fun e => hL.fails w e (.inl (by simpa using hbundle))
    exact obeys_keepModule hL.keep file refs written w
  · rw [if_neg hbundle]
    unfold writeJs
    cases written.sourceMap with
    | none => exact obeys_write hL.toWriting _ _ w
    | some text =>
      exact ((obeys_write hL.toWriting _ _).bind fun _ => obeys_write hL.toWriting _ _) w

theorem obeys_deliver (hL : Taking L K) (file jsName : String) (refs : References)
    (written : Script.Written) : Obeys L (deliver file jsName refs written) := by
  have hrest := obeys_deliverJs hL file jsName refs written
  unfold deliver
  cases written.declaration with
  | none => exact hrest
  | some text => exact (obeys_write hL.toWriting _ _).bind fun _ => hrest

theorem obeys_stampOutput (hL : Delivering L K) (id : Nat) :
    Obeys L (changeEntry id Entry.stampOutput) := obeys_modify fun w => hL.stamp w id

theorem obeys_emitFile (hL : Delivering L K) (id : Nat) (file : String)
    (overrides : List Override) : Obeys L (emitFile id file overrides) := by
  unfold emitFile
  refine (obeys_lift _).bind fun jsName => (obeys_entry id).bind fun e => ?_
  split
  · exact obeys_get.bind fun w => (obeys_lift _).bind fun o =>
      (obeys_onProject hL.toLooking (obeys_render _ _ _ _ _)).bind fun written =>
        (obeys_deliver hL.toTaking _ _ _ _).bind fun _ => obeys_stampOutput hL id
  · exact obeys_pure _

/-- Writing a program is writing its files, and stamping those that stay as they are. -/
theorem obeys_emitProgram_of_emitFile
    (hget : ∀ w name, L.moves w { w with cache := (w.cache.get w.project.dir name).2 })
    (hstamp : ∀ id, Obeys L (changeEntry id Entry.stampOutput)) (force atlasChanged : Bool)
    (overrides : FileOverrides) (program : List String)
    (hfile : ∀ file ∈ program, ∀ id os, Obeys L (emitFile id file os)) :
    Obeys L (emitProgram force atlasChanged overrides program) := by
  induction program with
  | nil => exact obeys_pure _
  | cons file files ih =>
    have ih := ih fun f hf => hfile f (List.mem_cons_of_mem file hf)
    unfold emitProgram
    refine (obeys_onCache fun w => hget w file).bind fun id => (obeys_lift _).bind fun decl => ?_
    have hrest : ∀ asIs : Bool, Obeys L (do
        if asIs then
          changeEntry id Entry.stampOutput
          emitProgram force atlasChanged overrides files
        else if needsEmit force atlasChanged (← entry id) then
          emitFile id file ((overrides.filter fun o => o.1 == file).map Prod.snd)
          return file :: (← emitProgram force atlasChanged overrides files)
        else emitProgram force atlasChanged overrides files) := by
      intro asIs
      split
      · exact (hstamp id).bind fun _ => ih
      · refine (obeys_entry id).bind fun e => ?_
        split
        · exact (hfile file List.mem_cons_self _ _).bind fun _ => ih.bind fun _ => obeys_pure _
        · exact ih
    split
    · exact (obeys_pure _).bind hrest
    · exact (obeys_lift _).bind hrest

theorem obeys_emitProgram (hL : Delivering L K) (force atlasChanged : Bool)
    (overrides : FileOverrides) (program : List String) :
    Obeys L (emitProgram force atlasChanged overrides program) :=
  obeys_emitProgram_of_emitFile hL.get (obeys_stampOutput hL) force atlasChanged overrides program
    fun file _ id os => obeys_emitFile hL id file os

end Session

/-! ## Assembly -/

namespace Assembly

theorem obeys_takeOver (hL : Taking L K) (bundled : Bool) (source output text : String) :
    Obeys L (takeOver bundled source output text) := by
  unfold takeOver
  split
  · exact (obeys_lift _).bind fun _ => obeys_modify fun w => hL.keep w _ _ fun _ => rfl
  · exact Session.obeys_write hL.toWriting _ _

/-- Taking a text over leaves the cache and the configuration as they are. -/
theorem takeOver_ok {bundled : Bool} {source output text : String} {u : Unit} {w w' : Workspace}
    (h : takeOver bundled source output text w = .ok u w') :
    w'.cache = w.cache ∧ w'.project.config = w.project.config := by
  unfold takeOver at h
  split at h
  · obtain ⟨m, v, hm, hmod⟩ := (bind_ok_iff _ _ _ _ _).mp h
    obtain ⟨-, rfl⟩ := (lift_ok_iff _ _ _ _).mp hm
    rw [← (modify_ok_iff _ _ _ _).mp hmod]
    exact ⟨rfl, rfl⟩
  · have hw : w.written output (Text.toBytes text) = w' := (modify_ok_iff _ _ _ _).mp h
    rw [← hw]
    exact ⟨w.written_cache _ _, w.written_config _ _⟩

/-- Taking over a script: it is stamped only where there is a bundle or it was newer than its
copy, and only with a text that was read. -/
theorem allows_copyScript (hL : Taking L K) (script : String × String) (bundled : Bool)
    (w : Workspace) (hbundled : bundled = (w.project.config.bundle != .none))
    (hK : K (Cache.keyOf w.project.dir script.1)) :
    L.Allows w (copyScript bundled script w) := by
  obtain ⟨source, output⟩ := script
  unfold copyScript
  simp only
  refine Law.Allows.bind (obeys_existence hL.toLooking source w) fun id t₁ hex => ?_
  have hconfig₁ := hL.config ((obeys_existence hL.toLooking source).ok hex)
  obtain ⟨hlt, hkey⟩ : id < t₁.cache.entries.length ∧
      (t₁.cache.entry id).key = Cache.keyOf w.project.dir source := by
    obtain ⟨hid, ht₁⟩ := (onCache_ok_iff _ _ _ _).mp hex
    rw [← ht₁, ← hid]
    exact Cache.find?_some (Cache.find?_existence w.disk w.project.dir source w.cache)
  refine Law.Allows.bind (obeys_entry id _) fun e t₂ he => ?_
  obtain ⟨rfl, rfl⟩ := (entry_ok_iff _ _ _ _).mp he
  split
  · exact obeys_say hL.toLooking _ _
  · split
    · rename_i hneed
      refine Law.Allows.bind (obeys_onCache (fun v => hL.text v id) _) fun u t₃ ht => ?_
      have ht₃ : { t₁ with cache := t₁.cache.ensureText t₁.disk id } = t₃ :=
        ((onCache_ok_iff _ _ _ _).mp ht).2
      have hentry₃ : t₃.cache.entry id = (t₁.cache.entry id).withText t₁.disk := by
        rw [← ht₃]
        exact Cache.entry_ensureText t₁.disk hlt
      have hconfig₃ : t₃.project.config = w.project.config := by
        rw [← ht₃]
        exact hconfig₁
      refine Law.Allows.bind (obeys_entry id _) fun e₃ t₄ he₃ => ?_
      obtain ⟨rfl, rfl⟩ := (entry_ok_iff _ _ _ _).mp he₃
      cases htext : (t₃.cache.entry id).text? with
      | none => exact obeys_say hL.toLooking _ _
      | some text =>
        have hcur : (t₃.cache.entry id).isTextCurrent = true := by
          unfold Entry.text? at htext
          by_contra hne
          rw [if_neg hne] at htext
          exact absurd htext (by simp)
        have hcond : w.project.config.bundle ≠ .none ∨ (t₃.cache.entry id).needsCopy = true := by
          rw [hentry₃, Entry.needsCopy_withText]
          rcases Bool.or_eq_true_iff.mp hneed with hb | hc
          · left
            rw [hbundled] at hb
            simpa using hb
          · exact .inr hc
        refine Law.Allows.bind (obeys_takeOver hL _ _ _ _ _) fun u t₅ ht₅ => ?_
        obtain ⟨hcache, hconfig⟩ := takeOver_ok ht₅
        refine hL.took _ id ?_ ?_ ?_
        · rw [hcache, hentry₃, Entry.withText_key, hkey]
          exact hK
        · rw [hcache]
          exact hcur
        · rw [hcache, hconfig, hconfig₃]
          exact hcond
    · exact obeys_pure _ _

theorem allows_copyDependencyJs (hL : Taking L K) (w : Workspace)
    (hK : ∀ source ∈ w.project.depJs.keys, K (Cache.keyOf w.project.dir source)) :
    L.Allows w (copyDependencyJs w) := by
  unfold copyDependencyJs
  refine Law.Allows.bind (obeys_enter hL.toLooking _ w) fun _ t ht => ?_
  obtain rfl := (modify_ok_iff _ _ _ _).mp ht
  refine Law.Allows.bind (obeys_get _) fun v t hget => ?_
  obtain ⟨rfl, rfl⟩ := (get_ok_iff _ _ _).mp hget
  -- between two scripts the settings and the directory stay
  refine allows_forM (I := fun v script => script.1 ∈ w.project.depJs.keys ∧
      v.project.config = w.project.config ∧ v.project.dir = w.project.dir)
    (fun hm ⟨hmem, hconfig, hdir⟩ => ⟨hmem, (hL.config hm).trans hconfig, (hL.dir hm).trans hdir⟩)
    (fun script v ⟨hmem, hconfig, hdir⟩ => ?_) _ _
    fun script hs => ⟨List.mem_map_of_mem hs, rfl, rfl⟩
  exact allows_copyScript hL script _ v (by rw [hconfig]) (by rw [hdir]; exact hK _ hmem)

theorem obeys_findSheets (hL : Looking L) (names : List String) : Obeys L (findSheets names) := by
  induction names with
  | nil => exact obeys_pure _
  | cons name names ih =>
    unfold findSheets
    refine (obeys_lift _).bind fun css => ?_
    split
    · refine (obeys_existence hL name).bind fun id => (obeys_entry id).bind fun e =>
        ih.bind fun rest => ?_
      split
      · exact obeys_pure _
      · exact obeys_pure _
    · exact ih

theorem obeys_sheetText (hL : Looking L) (id : Nat) : Obeys L (sheetText id) :=
  (obeys_onCache fun w => hL.buffer w id).bind fun _ => (obeys_entry id).bind fun _ => obeys_pure _

theorem obeys_sheetTexts (hL : Looking L) (sheets : List Sheet) : Obeys L (sheetTexts sheets) := by
  induction sheets with
  | nil => exact obeys_pure _
  | cons s ss ih =>
    refine (obeys_sheetText hL s.id).bind fun text => ih.bind fun rest => ?_
    split
    · exact obeys_pure _
    · exact obeys_pure _

private theorem obeys_linkCss (hL : Looking L) (output : String) :
    Obeys L (changeProject fun p => { p with cssToLink := p.cssToLink ++ [output] }) :=
  obeys_changeProject hL fun _ => .of_parts rfl

theorem obeys_mergeSheets (hL : Writing L) (sheets : List Sheet) :
    Obeys L (mergeSheets sheets) := by
  unfold mergeSheets
  split
  · exact obeys_pure _
  · refine (obeys_onProject hL.toLooking (obeys_shorten _)).bind fun output => ?_
    split
    · exact (obeys_sheetTexts hL.toLooking sheets).bind fun sources =>
        (obeys_onProject hL.toLooking
          (Stylesheet.obeys_concatenate sources obeys_mergedReference)).bind fun css =>
        (Session.obeys_write hL _ _).bind fun _ => obeys_linkCss hL.toLooking output
    · exact obeys_linkCss hL.toLooking output

theorem obeys_copySheet (hL : Writing L) (s : Sheet) : Obeys L (copySheet s) := by
  unfold copySheet
  refine obeys_get.bind fun w => (obeys_linkCss hL.toLooking _).bind fun _ => ?_
  split
  · refine (obeys_sheetText hL.toLooking s.id).bind fun text => ?_
    split
    · exact obeys_pure _
    · exact (obeys_onProject hL.toLooking
        (Stylesheet.obeys_mapUrls _ fun url => obeys_plainReference url s.name)).bind fun css =>
          Session.obeys_write hL _ _
  · exact obeys_pure _

/-- An asset is stamped only if it was newer than its copy. -/
theorem obeys_copyAsset (hL : Copying L) (asset : String × String) :
    Obeys L (copyAsset asset) := by
  intro w
  obtain ⟨name, output⟩ := asset
  unfold copyAsset
  simp only
  refine Law.Allows.bind (obeys_existence hL.toLooking name w) fun id t₁ hex => ?_
  have hlt : id < t₁.cache.entries.length := by
    obtain ⟨hid, ht₁⟩ := (onCache_ok_iff _ _ _ _).mp hex
    rw [← ht₁, ← hid]
    exact (Cache.find?_some (Cache.find?_existence w.disk w.project.dir name w.cache)).1
  refine Law.Allows.bind (obeys_entry id _) fun e t₂ he => ?_
  obtain ⟨rfl, rfl⟩ := (entry_ok_iff _ _ _ _).mp he
  split
  · exact obeys_say hL.toLooking _ _
  · split
    · rename_i hneed
      refine Law.Allows.bind (obeys_onCache (fun v => hL.buffer v id) _) fun u t₃ ht => ?_
      have ht₃ : { t₁ with cache := t₁.cache.ensureBuffer t₁.disk id } = t₃ :=
        ((onCache_ok_iff _ _ _ _).mp ht).2
      have hneed₃ : (t₃.cache.entry id).needsCopy = true := by
        rw [← ht₃]
        rw [Cache.entry_ensureBuffer t₁.disk hlt, Entry.needsCopy_withBuffer]
        exact hneed
      refine Law.Allows.bind (obeys_entry id _) fun e₃ t₄ he₃ => ?_
      obtain ⟨rfl, rfl⟩ := (entry_ok_iff _ _ _ _).mp he₃
      cases (t₃.cache.entry id).buffer? with
      | none => exact obeys_say hL.toLooking _ _
      | some bytes =>
        have hrest : ∀ (elsewhere : Bool) (v : Workspace), v.cache = t₃.cache → L.Allows v ((do
            if !elsewhere then write output bytes
            changeEntry id fun e => { e with outputTime := e.current } : Step Workspace Unit) v) := by
          intro elsewhere v hv
          have hstamp : ∀ v' : Workspace, v'.cache = t₃.cache →
              L.Allows v' (changeEntry id (fun e => { e with outputTime := e.current }) v') :=
            fun v' hv' => hL.copied v' id (by rw [hv']; exact hneed₃)
          cases elsewhere with
          | true => exact hstamp v hv
          | false =>
            refine Law.Allows.bind (Session.obeys_write hL.toWriting _ _ v) fun u v' hw => hstamp v' ?_
            have hw' : v.written output bytes = v' := (modify_ok_iff _ _ _ _).mp hw
            rw [← hw', Workspace.written_cache, hv]
        refine Law.Allows.bind (obeys_lift _ _) fun css t₅ hcss => ?_
        obtain ⟨-, rfl⟩ := (lift_ok_iff _ _ _ _).mp hcss
        split
        · refine Law.Allows.bind (obeys_pure _ _) fun b t₆ hb => ?_
          obtain ⟨rfl, rfl⟩ := (pure_ok_iff _ _ _ _).mp hb
          exact hrest _ _ rfl
        · refine Law.Allows.bind (obeys_lift _ _) fun b t₆ hb => ?_
          obtain ⟨-, rfl⟩ := (lift_ok_iff _ _ _ _).mp hb
          exact hrest _ _ rfl
    · exact obeys_pure _ _

theorem obeys_processAssets (hL : Copying L) : Obeys L processAssets := by
  unfold processAssets
  refine (obeys_enter hL.toLooking _).bind fun _ => obeys_get.bind fun w =>
    (obeys_findSheets hL.toLooking _).bind fun sheets => ?_
  simp only
  split
  · exact (obeys_mergeSheets hL.toWriting sheets).bind fun _ => obeys_get.bind fun _ =>
      obeys_forM (obeys_copyAsset hL) _
  · exact (obeys_forM (obeys_copySheet hL.toWriting) sheets).bind fun _ => obeys_get.bind fun _ =>
      obeys_forM (obeys_copyAsset hL) _

theorem obeys_scriptAssets (hL : Looking L) (names : List String) :
    Obeys L (scriptAssets names) := by
  induction names with
  | nil => exact obeys_pure _
  | cons name names ih =>
    unfold scriptAssets
    refine (obeys_lift _).bind fun js => ?_
    split
    · exact (obeys_existence hL name).bind fun id => (obeys_onCache fun w => hL.buffer w id).bind
        fun _ => (obeys_entry id).bind fun _ => ih.bind fun _ => obeys_pure _
    · exact ih

theorem obeys_writeFast (hL : Writing L) (output : String) (entries : List String)
    (blobs : List Bytes) : Obeys L.free (writeFast output entries blobs) := by
  have hfree : Looking L.free := Session.Looking.free hL.toLooking
  unfold writeFast
  refine (obeys_onProject hfree (obeys_modifyGet fun p => quiet_shortName p _)).bind fun short =>
    obeys_get.bind fun w => ?_
  simp only
  split
  · exact obeys_throw fun _ => trivial
  · exact Obeys.bind (obeys_modify fun w => hL.write w _ _) fun _ =>
      obeys_modify fun w => hL.write w _ _

theorem allows_assemble (hL : Writing L) (w : Workspace) (hb : w.project.config.bundle ≠ .none) :
    L.Allows w (assemble w) := by
  have hfree : Looking L.free := Session.Looking.free hL.toLooking
  have hwrite : ∀ path content, Obeys L.free (write path content) := fun path content =>
    obeys_modify fun w => hL.write w path content
  apply Law.Allows.of_free fun e => hL.fails w e (.inl hb)
  unfold assemble
  refine ((obeys_enter hfree _).bind fun _ => obeys_get.bind fun v => ?_) w
  simp only
  split
  · exact obeys_pure _
  · refine (obeys_lift _).bind fun entries => (obeys_scriptAssets hfree _).bind fun blobs => ?_
    split
    · exact obeys_pure _
    · unfold writeMerged
      exact obeys_get.bind fun _ => hwrite _ _
    · exact obeys_writeFast hL _ _ _

end Assembly

/-! ## The whole of a cycle after loading -/

namespace Session

/-- What is done before the freshness of a program is worked out: the values of constants, and
whether the atlas has changed. -/
def prepare (program : List String) : Step Session (FileOverrides × Bool) := do
  let overrides ← prepareOverrides program
  changeProject fun p =>
    if p.config.spriteMerge then { p with atlas := p.atlas.begin } else p
  collectProgram program
  let atlasChanged ← buildAtlas
  onWorkspace (onProject Page.expandHead)
  return (overrides, atlasChanged)

/-- What is done after that: the files that were written. -/
def deliverProgram (force : Bool) (program : List String) (overrides : FileOverrides)
    (atlasChanged : Bool) : Step Session (List String) := do
  enter .emit
  let emitted ← emitProgram force atlasChanged overrides program
  Assembly.copyDependencyJs
  Assembly.processAssets
  if (← get).project.config.bundle != .none then Assembly.assemble
  return emitted

theorem emitAll_eq (force : Bool) (program : List String) :
    emitAll force program = (do
      let prepared ← prepare program
      refreshProgram program
      deliverProgram force program prepared.1 prepared.2) := by
  simp only [emitAll, prepare, deliverProgram, bind_assoc, pure_bind]

theorem obeys_prepare (hL : Writing L) (hplace : Placing L) (program : List String) :
    Obeys L.session (prepare program) := by
  have hatlas : Obeys L (changeProject fun p =>
      if p.config.spriteMerge then { p with atlas := p.atlas.begin } else p) :=
    obeys_changeProject hL.toLooking fun p => by
      split
      · exact .of_parts rfl
      · exact Project.Quiet.refl p
  unfold prepare
  exact (obeys_liftWorkspace (obeys_prepareOverrides hL.toLooking program)).bind fun overrides =>
    (obeys_liftWorkspace hatlas).bind fun _ =>
    (obeys_collectProgram hL.toLooking program).bind fun _ =>
    (obeys_liftWorkspace (obeys_buildAtlas hL hplace)).bind fun atlasChanged =>
    (obeys_liftWorkspace (obeys_onProject hL.toLooking Page.obeys_expandHead)).bind fun _ =>
    obeys_pure _

/-- What follows the writing of the files. -/
def supply (emitted : List String) : Step Session (List String) := do
  Assembly.copyDependencyJs
  Assembly.processAssets
  if (← get).project.config.bundle != .none then Assembly.assemble
  return emitted

theorem deliverProgram_eq (force : Bool) (program : List String) (overrides : FileOverrides)
    (atlasChanged : Bool) : deliverProgram force program overrides atlasChanged = (do
      enter .emit
      let emitted ← emitProgram force atlasChanged overrides program
      supply emitted) := rfl

theorem obeys_supply (hL : Delivering L K) (hK : ∀ key, K key) (emitted : List String) :
    Obeys L.session (supply emitted) := by
  unfold supply
  refine (obeys_liftWorkspace fun w => Assembly.allows_copyDependencyJs hL.toTaking w fun _ _ => hK _).bind
      fun _ =>
    (obeys_liftWorkspace (Assembly.obeys_processAssets hL.toCopying)).bind fun _ => ?_
  intro s
  refine Law.Allows.bind (obeys_get s) fun v t hget => ?_
  obtain ⟨rfl, rfl⟩ := (get_ok_iff _ _ _).mp hget
  by_cases hb : (s.project.config.bundle != .none) = true
  · rw [if_pos hb]
    refine Law.Allows.bind (allows_liftWorkspace (Assembly.allows_assemble hL.toWriting _ ?_))
      fun _ _ _ => obeys_pure _ _
    simpa using hb
  · rw [if_neg hb]
    exact obeys_pure _ _

theorem obeys_deliverProgram (hL : Delivering L K) (hK : ∀ key, K key) (force : Bool)
    (program : List String) (overrides : FileOverrides) (atlasChanged : Bool) :
    Obeys L.session (deliverProgram force program overrides atlasChanged) := by
  rw [deliverProgram_eq]
  exact (obeys_liftWorkspace (obeys_enter hL.toLooking _)).bind fun _ =>
    (obeys_liftWorkspace (obeys_emitProgram hL force atlasChanged overrides program)).bind
      fun emitted => obeys_supply hL hK emitted

end Session

end Bundler

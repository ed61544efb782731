/-
What a build notes is mentioned somewhere.

A script is noted because a file of the program imports it, by its own name or by the declaration file
beside it. An asset is noted because a call of the program names it, or the page head, or a style sheet
that is an asset itself. `Account.Imports` and `Account.RefersTo` say this of a program and the
workspace that its cycle has left, and the two theorems on stages are that loading notes scripts that
the program imports (`Session.loadProgram_adds`) and that emitting notes assets that are referred to
(`Session.allows_emitAll`).

Both look at the workspace where the stage ends. That is possible because nothing that was brought up
to date changes later in a cycle: references that are current stay, and so do the bytes of a style
sheet. The law `mentioning` makes use of it. A step obeys it if what it notes is referred to where the
step ends, and it is a law because it is referred to later on as well.
-/
import Bundler.Proofs.Notes
import Bundler.Proofs.Spelling

set_option autoImplicit false

namespace Bundler

open Workspace Step

/-! ## What a file mentions -/

/-- The references of a file, if they are current. -/
def Workspace.references? (w : Workspace) (file : String) : Option References :=
  (w.cache.find? w.project.dir file).bind fun id => (w.cache.entry id).references?

/-- The text of a style sheet, if it was read. -/
def Workspace.sheetText? (w : Workspace) (sheet : String) : Option String :=
  (w.cache.find? w.project.dir sheet).bind fun id => (w.cache.entry id).buffer?.map Text.ofBytes

/-- A file imports a script that is taken over. -/
def Workspace.Takes (w : Workspace) (file js : String) : Prop :=
  ∃ refs, w.references? file = some refs ∧ ∃ dep ∈ refs.files, ModuleSearch.Declares dep js

/-- The module id of a script that is noted. -/
def Project.Taken (p : Project) (id : String) : Prop := ∃ js ∈ p.depJs.keys, Path.moduleId js = .ok id

theorem Project.Taken.mono {p p' : Project} {id : String} (h : p.Taken id)
    (hkept : ∀ js ∈ p.depJs.keys, js ∈ p'.depJs.keys) : p'.Taken id := by
  obtain ⟨js, hjs, hid⟩ := h
  exact ⟨js, hkept js hjs, hid⟩

/-- What a cycle went by: the program that it loaded, and the workspace that it left. -/
structure Account where
  program : List String
  workspace : Workspace

namespace Account

/-- A file of the program imports a script that is taken over. -/
def Imports (a : Account) (js : String) : Prop := ∃ file ∈ a.program, a.workspace.Takes file js

/-- An asset is referred to: by a call of the program, by the page head, or by a style sheet that is
referred to. Some assets may be known without. -/
inductive RefersTo (a : Account) (known : String → Prop) : String → Prop where
  | known {name : String} (h : known name) : RefersTo a known name
  | asset {file name : String} {refs : References} {call : Nat} (hfile : file ∈ a.program)
      (hrefs : a.workspace.references? file = some refs) (h : (call, some name) ∈ refs.assets) :
      RefersTo a known name
  | sprite {file name : String} {refs : References} {call : Nat} {use : SpriteUse}
      (hfile : file ∈ a.program) (hrefs : a.workspace.references? file = some refs)
      (h : (call, use) ∈ refs.sprites) (hname : use.name = some name) : RefersTo a known name
  | head {template : String} {name : List Char}
      (htemplate : a.workspace.project.config.htmlHead = some template)
      (h : Page.Piece.asset name ∈ Page.pieces template) : RefersTo a known (String.ofList name)
  | url {sheet css : String} {quote content written : List Char} (hsheet : RefersTo a known sheet)
      (hcss : Path.isCss sheet = .ok true) (htext : a.workspace.sheetText? sheet = some css)
      (h : Stylesheet.Piece.url quote content written ∈ Stylesheet.pieces css.toList)
      (hinternal : Stylesheet.isInternal (Text.trim content) = true) :
      RefersTo a known (Assembly.target (String.ofList (Text.trim content)) sheet).1

variable {a a' : Account} {known known' : String → Prop} {name js : String}

/-- What is known may be replaced by what it is known by. -/
theorem RefersTo.bind (h : a.RefersTo known name)
    (hknown : ∀ n, known n → a.RefersTo known' n) : a.RefersTo known' name := by
  induction h with
  | known h => exact hknown _ h
  | asset hfile hrefs h => exact .asset hfile hrefs h
  | sprite hfile hrefs h hname => exact .sprite hfile hrefs h hname
  | head htemplate h => exact .head htemplate h
  | url _ hcss htext h hinternal ih => exact .url ih hcss htext h hinternal

theorem RefersTo.mono (h : a.RefersTo known name) (hknown : ∀ n, known n → known' n) :
    a.RefersTo known' name := h.bind fun n hn => .known (hknown n hn)

end Account

/-! ## Mentions stay -/

namespace Entry

variable {N : String → Prop} {s : Surroundings} {e e' : Entry} {bytes : Bytes}

private theorem buffer?_congr (hcur : e'.current = e.current) (htime : e'.bufferTime = e.bufferTime)
    (hbuffer : e'.buffer = e.buffer) : e'.buffer? = e.buffer? := by
  unfold buffer? isBufferCurrent found
  rw [hcur, htime, hbuffer]

private theorem Reading.buffer? (h : Reading s e e') (hb : e.buffer? = some bytes) :
    e'.buffer? = some bytes := by
  have hcur : e.isBufferCurrent = true := by
    unfold Entry.buffer? at hb
    by_contra hne
    rw [if_neg hne] at hb
    exact absurd hb (by simp)
  obtain ⟨hfound, -⟩ := isBufferCurrent_iff.mp hcur
  cases h with
  | look =>
    obtain ⟨t, ht⟩ := at_of_found hfound
    rw [looked_of_isSet (by rw [ht]; rfl)]
    exact hb
  | text =>
    rw [buffer?_congr (e := e) ?_ ?_ ?_]
    · exact hb
    all_goals
      unfold withText
      split
      · rfl
      · split
        · rfl
        · split <;> rfl
  | buffer =>
    unfold withBuffer
    rw [if_neg (by simp [hfound]), if_pos hcur]
    exact hb

/-- Nothing that a build does changes bytes that are current. -/
theorem Building.buffer? (h : Building N s e e') (hb : e.buffer? = some bytes) :
    e'.buffer? = some bytes := by
  cases h with
  | loading h =>
    cases h with
    | reading h => exact h.buffer? hb
    | script h => exact hb
    | references h => exact hb
  | delivering h =>
    cases h with
    | taking h =>
      cases h with
      | reading h => exact h.buffer? hb
      | took => exact hb
      | copied => exact hb
    | stamp => exact hb
  | mark f => exact hb

end Entry

namespace Frame

variable {N : String → Prop} {w w' : Workspace}

/-- What a build keeps of each entry, it keeps of the entry of a name. -/
private theorem Moves.entry_keeps {P : Entry → Prop} (h : (builds N).Moves w w')
    (hP : ∀ e e', Entry.Building N w.surroundings e e' → P e → P e') {name : String} {id : Nat}
    (hfind : w.cache.find? w.project.dir name = some id) (hid : P (w.cache.entry id)) :
    w'.cache.find? w'.project.dir name = some id ∧ P (w'.cache.entry id) := by
  refine ⟨by rw [h.dir]; exact h.cache.find? hfind, ?_⟩
  exact Entry.chain_keeps hP (h.cache.old id (Cache.find?_some hfind).1) hid

/-- References that are current stay. -/
theorem Moves.references? (h : (builds N).Moves w w') {file : String} {refs : References}
    (hrefs : w.references? file = some refs) : w'.references? file = some refs := by
  obtain ⟨id, hfind, hid⟩ := Option.bind_eq_some_iff.mp hrefs
  obtain ⟨hfind', hid'⟩ := h.entry_keeps (P := fun e => e.references? = some refs)
    (fun _ _ hone he => hone.references? he) hfind hid
  exact Option.bind_eq_some_iff.mpr ⟨id, hfind', hid'⟩

/-- The text of a style sheet stays. -/
theorem Moves.sheetText? (h : (builds N).Moves w w') {sheet css : String}
    (htext : w.sheetText? sheet = some css) : w'.sheetText? sheet = some css := by
  obtain ⟨id, hfind, hid⟩ := Option.bind_eq_some_iff.mp htext
  obtain ⟨bytes, hbytes, hcss⟩ := Option.map_eq_some_iff.mp hid
  obtain ⟨hfind', hid'⟩ := h.entry_keeps (P := fun e => e.buffer? = some bytes)
    (fun _ _ hone he => hone.buffer? he) hfind hbytes
  exact Option.bind_eq_some_iff.mpr ⟨id, hfind', Option.map_eq_some_iff.mpr ⟨bytes, hid', hcss⟩⟩

theorem Moves.takes (h : (builds N).Moves w w') {file js : String} (ht : w.Takes file js) :
    w'.Takes file js := by
  obtain ⟨refs, hrefs, hdep⟩ := ht
  exact ⟨refs, h.references? hrefs, hdep⟩

/-- What is referred to is referred to later on. -/
theorem Moves.refersTo (h : (builds N).Moves w w') {program : List String} {known : String → Prop}
    {name : String} (hname : (Account.mk program w).RefersTo known name) :
    (Account.mk program w').RefersTo known name := by
  induction hname with
  | known h => exact .known h
  | asset hfile hrefs hmem => exact .asset hfile (h.references? hrefs) hmem
  | sprite hfile hrefs hmem hname => exact .sprite hfile (h.references? hrefs) hmem hname
  | head htemplate hmem => exact .head (by rw [← htemplate, h.config]) hmem
  | url _ hcss htext hmem hinternal ih => exact .url ih hcss (h.sheetText? htext) hmem hinternal

end Frame

/-! ## Loading -/

namespace Session

variable {A C M : String → Prop}

/-- The law of everything that a build can do. -/
abbrev anyBuild : Frame := Frame.builds fun _ => True

private theorem moves_of_anyBuild {α : Type} {step : Step Session α} {s t : Session} {a : α}
    (h : anyBuild.law.session.Allows s (step s)) (hdest : s.destination = none)
    (hs : step s = .ok a t) : anyBuild.Moves s.toWorkspace t.toWorkspace := by
  rw [hs] at h
  exact Frame.moves_of_law h.1 hdest

private theorem loading_anyBuild : Bundler.Loading anyBuild.law fun _ => True :=
  Frame.loading_builds

private theorem references?_changed {w : Workspace} {id : Nat} {file : String} {f : Entry → Entry}
    (hkey : ∀ e, (f e).key = e.key) (hfind : w.cache.find? w.project.dir file = some id) :
    (w.changed id f).references? file = (f (w.cache.entry id)).references? := by
  have hfind' : (w.cache.modify id f).find? w.project.dir file = some id := by
    rw [Cache.find?_eq_keys, Cache.keys_modify hkey, ← Cache.find?_eq_keys]
    exact hfind
  change ((w.cache.modify id f).find? w.project.dir file).bind
    (fun id' => ((w.cache.modify id f).entry id').references?) = _
  rw [hfind', Option.bind_some, Cache.entry_modify_self _ (Cache.find?_some hfind).1]

/-- Gathering references notes scripts that the file imports then. -/
private theorem refreshReferences_adds {file : String} {id : Nat} {w w' : Workspace} {u : Unit}
    (hdest : w.destination = none) (hfind : w.cache.find? w.project.dir file = some id)
    (hsource : (w.cache.entry id).isSourceCurrent = true)
    (h : refreshReferences file id w = .ok u w') :
    (∃ refs, w'.references? file = some refs) ∧
      Project.Adds (w'.Takes file) A C M w.project w'.project := by
  have hid := (Cache.find?_some hfind).1
  rcases gathered_of_refreshReferences hid hsource h with
    ⟨hinfo, rfl⟩ | ⟨specifiers, deps, v, script, refs, hdeps, hid', hsource', hgather, rfl⟩
  · refine ⟨?_, .of_eq rfl rfl rfl rfl⟩
    unfold Workspace.references? Entry.references?
    rw [hfind, Option.bind_some, if_pos hinfo]
    exact (Entry.isInfoCurrent_iff.mp hinfo).2.2
  · have hmoves := Frame.moves_of_obeys
      (obeys_findImports Frame.looking_reading file _) hdest hdeps
    have hfind' : v.cache.find? v.project.dir file = some id := by
      rw [hmoves.dir]
      exact hmoves.cache.find? hfind
    have hrefs : (v.changed id fun e =>
        { e with references := some refs, infoTime := e.current }).references? file = some refs := by
      obtain ⟨hfound, -⟩ :=
        Entry.isTextCurrent_iff.mp (Entry.isTextCurrent_of_isSourceCurrent hsource')
      rw [references?_changed (fun _ => by rfl) hfind']
      unfold Entry.references? Entry.isInfoCurrent
      rw [if_pos (by simpa [Entry.found] using hfound)]
    refine ⟨⟨refs, hrefs⟩, (findImports_adds hdeps).mono_scripts fun js hjs => ?_⟩
    obtain ⟨d, hd, hdecl⟩ := hjs
    refine ⟨refs, hrefs, d.2, ?_, hdecl⟩
    unfold References.files
    rw [References.sourceDeps_gather hgather]
    exact List.mem_map_of_mem hd

/-- Bringing a file up to date notes scripts that it imports. -/
theorem loadFile_adds {file : String} {answer : Option (List String)} {s t : Session}
    (hdest : s.destination = none) (h : loadFile file s = .ok answer t) :
    (answer.isSome = true → ∃ refs, t.toWorkspace.references? file = some refs) ∧
      Project.Adds (fun js => answer.isSome = true ∧ t.toWorkspace.Takes file js) A C M
        s.project t.project := by
  obtain ⟨id, w, hfind, hproject, hdest₀, hcases⟩ := loadFile_cases h
  rcases hcases with
    ⟨-, w₁, w₂, -, hfind₁, hproject₁, hdest₁, hsource, hrefs, rfl, rfl⟩ | ⟨rfl, rfl⟩
  · obtain ⟨hknown, hadds⟩ := refreshReferences_adds (A := A) (C := C) (M := M)
      (hdest₁.trans (hdest₀.trans hdest)) hfind₁ hsource hrefs
    rw [hproject₁, hproject] at hadds
    exact ⟨fun _ => hknown, hadds.mono_scripts fun js hjs => ⟨rfl, hjs⟩⟩
  · refine ⟨fun hsome => absurd hsome (by simp), ?_⟩
    rw [← hproject]
    exact .of_eq rfl rfl rfl rfl

/-- What is known between two points of loading a program: what is listed is described, and what was
noted is imported by what is listed. -/
structure Lists (A C M : String → Prop) (s : Session) (l : Loaded) (t : Session) (l' : Loaded) :
    Prop where
  moves : anyBuild.Moves s.toWorkspace t.toWorkspace
  kept : ∀ file ∈ l.program, file ∈ l'.program
  described : ∀ file ∈ l'.program,
    file ∈ l.program ∨ ∃ refs, t.toWorkspace.references? file = some refs
  adds : Project.Adds (fun js => ∃ file ∈ l'.program, t.toWorkspace.Takes file js) A C M
    s.project t.project

variable {s t u : Session} {l l' l'' : Loaded}

theorem Lists.refl (hdest : s.destination = none) (l : Loaded) : Lists A C M s l s l :=
  ⟨Frame.Moves.refl hdest, fun _ h => h, fun _ h => .inl h, .of_eq rfl rfl rfl rfl⟩

theorem Lists.trans (h : Lists A C M s l t l') (h' : Lists A C M t l' u l'') : Lists A C M s l u l'' where
  moves := h.moves.trans h'.moves
  kept file hfile := h'.kept file (h.kept file hfile)
  described file hfile := by
    rcases h'.described file hfile with hold | hnew
    · exact (h.described file hold).imp_right fun ⟨refs, hrefs⟩ =>
        ⟨refs, h'.moves.references? hrefs⟩
    · exact .inr hnew
  adds := Project.Adds.trans
    (h.adds.mono_scripts fun js ⟨file, hfile, ht⟩ => ⟨file, h'.kept file hfile, h'.moves.takes ht⟩)
    h'.adds

/-- The imports of a file one after the other, given that the visit of each is as it should be. -/
private theorem imports_lists {depth : Nat}
    (hvisit : ∀ {l l' : Loaded} {dep : String} {s t : Session}, s.destination = none →
      visit depth l dep s = .ok l' t → Lists A C M s l t l') :
    ∀ (ds : List String) {l l' : Loaded} {s t : Session}, s.destination = none →
      (ds.foldlM (fun l dep => do
        if ← Path.isJs dep then return l else visit depth l dep) l : Step Session Loaded) s
        = .ok l' t → Lists A C M s l t l' := by
  intro ds
  induction ds with
  | nil =>
    intro l l' s t hs h
    obtain ⟨rfl, rfl⟩ := (pure_ok_iff _ _ _ _).mp h
    exact Lists.refl hs l
  | cons dep ds ih =>
    intro l l' s t hs h
    obtain ⟨l₁, s₁, ⟨-, rfl, rfl⟩ | ⟨-, hone⟩, hrest⟩ := visit_import_cases h
    · exact ih hs hrest
    · have hfirst := hvisit hs hone
      exact hfirst.trans (ih hfirst.moves.destination hrest)

/-- The visit of a file lists files whose references are noted. The induction is on the number of
steps left. -/
theorem visit_lists :
    ∀ {depth : Nat} {l l' : Loaded} {file : String} {s t : Session}, s.destination = none →
      visit depth l file s = .ok l' t → Lists A C M s l t l' := by
  intro depth
  induction depth with
  | zero =>
    intro l l' file s t hdest h
    obtain ⟨rfl, rfl⟩ := (pure_ok_iff _ _ _ _).mp h
    exact Lists.refl hdest l
  | succ depth ih =>
    intro l l' file s t hdest h
    rcases visit_cases h with ⟨-, rfl, rfl⟩ | ⟨-, answer, s₂, hload, hrest⟩
    · exact Lists.refl hdest l'
    · have hcleared : ({ s with messages := s.messages.clearFile file } : Session).destination = none :=
        hdest
      have hmoves := moves_of_anyBuild (obeys_loadFile loading_anyBuild trivial
        { s with messages := s.messages.clearFile file }) hcleared hload
      obtain ⟨hknown, hadds⟩ := loadFile_adds (A := A) (C := C) (M := M) hcleared hload
      rcases hrest with ⟨rfl, rfl, rfl⟩ | ⟨deps, l₃, rfl, hfold, rfl⟩
      · refine ⟨hmoves, fun _ h => h, fun _ h => .inl h, hadds.mono_scripts fun js hjs => ?_⟩
        exact absurd hjs.1 (by simp)
      · have himports := imports_lists ih deps hmoves.destination hfold
        obtain ⟨refs, hrefs⟩ := hknown rfl
        refine ⟨hmoves.trans himports.moves,
          fun f hf => List.mem_append_left _ (himports.kept f hf), fun f hf => ?_, ?_⟩
        · rcases List.mem_append.mp hf with hf | hf
          · exact himports.described f hf
          · obtain rfl := List.mem_singleton.mp hf
            exact .inr ⟨refs, himports.moves.references? hrefs⟩
        · refine Project.Adds.trans (hadds.mono_scripts fun js hjs => ?_)
            (himports.adds.mono_scripts fun js hjs => ?_)
          · exact ⟨file, List.mem_append_right _ List.mem_cons_self, himports.moves.takes hjs.2⟩
          · obtain ⟨f, hf, ht⟩ := hjs
            exact ⟨f, List.mem_append_left _ hf, ht⟩

/-- Loading a program notes scripts that the program imports, and the references of the whole program
are current then. -/
theorem loadProgram_adds {mains program : List String} (hdest : s.destination = none)
    (h : loadProgram mains s = .ok program t) :
    anyBuild.Moves s.toWorkspace t.toWorkspace ∧
      (∀ file ∈ program, ∃ refs, t.toWorkspace.references? file = some refs) ∧
      Project.Adds (Account.mk program t.toWorkspace).Imports A C M s.project t.project := by
  have hmains : ∀ (depth : Nat) (ms : List String) {l l' : Loaded} {s t : Session},
      s.destination = none → ms.foldlM (visit depth) l s = .ok l' t → Lists A C M s l t l' := by
    intro depth ms
    induction ms with
    | nil =>
      intro l l' s t hs h
      obtain ⟨rfl, rfl⟩ := (pure_ok_iff _ _ _ _).mp h
      exact Lists.refl hs l
    | cons m ms ih =>
      intro l l' s t hs h
      obtain ⟨l₁, s₁, hone, h⟩ := (bind_ok_iff _ _ _ _ _).mp h
      have hfirst : Lists A C M s l s₁ l₁ := visit_lists hs hone
      exact hfirst.trans (ih hfirst.moves.destination h)
  unfold loadProgram at h
  obtain ⟨s', t', hget, h⟩ := (bind_ok_iff _ _ _ _ _).mp h
  obtain ⟨rfl, rfl⟩ := (get_ok_iff _ _ _).mp hget
  obtain ⟨l, t₁, hfold, h⟩ := (bind_ok_iff _ _ _ _ _).mp h
  obtain ⟨u, t₂, hretain, h⟩ := (bind_ok_iff _ _ _ _ _).mp h
  have ht₂ := (modify_ok_iff _ _ _ _).mp hretain
  obtain ⟨rfl, rfl⟩ := (pure_ok_iff _ _ _ _).mp h
  have hlists := hmains _ mains hdest hfold
  rw [← ht₂]
  refine ⟨hlists.moves, fun file hfile => ?_, hlists.adds⟩
  rcases hlists.described file hfile with hnone | hrefs
  · exact absurd hnone List.not_mem_nil
  · exact hrefs

/-! ## Emitting -/

/-- The law of steps that note assets which the program refers to where they end, and copy scripts
that are noted. -/
def mentioning (program : List String) (C : String → Prop) : Law Workspace where
  moves w w' := anyBuild.law.moves w w' ∧ (w.destination = none →
    Project.Adds (fun _ => False)
      ((Account.mk program w').RefersTo (· ∈ w.project.depAssets.keys)) C
      w'.project.Taken w.project w'.project)
  fails _ _ := True
  refl w := ⟨anyBuild.law.refl w, fun _ => .of_eq rfl rfl rfl rfl⟩
  trans {w w' w''} h h' := by
    refine ⟨anyBuild.law.trans h.1 h'.1, fun hdest => ?_⟩
    have hdest' : w'.destination = none := h.1.2.2.1.trans hdest
    have hmoves := Frame.moves_of_law h'.1 hdest'
    have hlast := h'.2 hdest'
    have hfirst : Project.Adds (fun _ => False)
        ((Account.mk program w'').RefersTo (· ∈ w.project.depAssets.keys)) C
        w''.project.Taken w.project w'.project :=
      (h.2 hdest).mono (fun _ h => h) (fun _ hname => hmoves.refersTo hname) (fun _ h => h)
        fun _ htaken => htaken.mono hlast.keptJs
    refine hfirst.trans (hlast.mono (fun _ h => h) (fun name hname => ?_) (fun _ h => h) fun _ h => h)
    exact hname.bind fun n hn => (hfirst.depAssets n hn).elim .known id
  back _ _ := trivial
  fault _ _ := trivial

variable {α : Type} {program : List String} {w : Workspace}

/-- A step that notes no asset is allowed. -/
private theorem mentioning_of_allows {r : EStateM.Result Failure Workspace α}
    (hframe : anyBuild.law.Allows w r)
    (hadds : (Workspace.adding (fun _ => False) (fun _ => False) C
      w.project.Taken).Allows w r) : (mentioning program C).Allows w r := by
  have hlater : ∀ w', Project.Adds (fun _ => False) (fun _ => False) C w.project.Taken
      w.project w'.project → Project.Adds (fun _ => False)
        ((Account.mk program w').RefersTo (· ∈ w.project.depAssets.keys)) C
        w'.project.Taken w.project w'.project := fun w' h =>
    h.mono (fun _ h => h) (fun _ h => h.elim) (fun _ h => h) fun _ htaken => htaken.mono h.keptJs
  cases r with
  | ok a w' => exact ⟨hframe, fun _ => hlater w' hadds⟩
  | error e w' => exact ⟨⟨hframe.1, fun _ => hlater w' hadds.1⟩, trivial⟩

/-- A step that notes no asset and copies no script obeys it. -/
private theorem mentioning_of (program : List String) {step : Step Workspace α}
    (hframe : Obeys anyBuild.law step)
    (hadds : ∀ M, Obeys (Workspace.adding (fun _ => False) (fun _ => False) C M) step) :
    Obeys (mentioning program C) step := fun w => mentioning_of_allows (hframe w) (hadds _ w)

/-- A step of the project obeys it if what it notes is referred to where it starts. -/
private theorem mentioning_onProject (program : List String) {step : Step Project α}
    (hquiet : Obeys Project.quietly step)
    (hadds : (Project.adding (fun _ => False)
      ((Account.mk program w).RefersTo (· ∈ w.project.depAssets.keys)) C
      fun _ => False).Allows w.project (step w.project)) :
    (mentioning program C).Allows w (onProject step w) := by
  have hframe := obeys_onProject (L := anyBuild.law) Frame.looking_builds hquiet w
  have hlater : ∀ p, anyBuild.law.moves w { w with project := p } →
      Project.Adds (fun _ => False) ((Account.mk program w).RefersTo (· ∈ w.project.depAssets.keys))
        C (fun _ => False) w.project p →
      (mentioning program C).moves w { w with project := p } := fun p hm hp =>
    ⟨hm, fun hdest => hp.mono (fun _ h => h)
      (fun _ hname => (Frame.moves_of_law hm hdest).refersTo hname) (fun _ h => h) fun _ h => h.elim⟩
  unfold onProject Step.on at hframe ⊢
  cases hs : step w.project with
  | ok a p =>
    rw [hs] at hframe hadds
    exact hlater p hframe hadds
  | error e p =>
    rw [hs] at hframe hadds
    exact ⟨hlater p hframe.1 hadds.1, trivial⟩

private theorem moves_of_mentioning {step : Step Workspace α} {w' : Workspace} {a : α}
    (h : (mentioning program C).Allows w (step w)) (hdest : w.destination = none)
    (hs : step w = .ok a w') : anyBuild.Moves w w' := by
  rw [hs] at h
  exact Frame.moves_of_law h.1 hdest

private theorem looking_anyBuild : Looking anyBuild.law := Frame.looking_builds

private theorem delivering_anyBuild : Bundler.Delivering anyBuild.law fun _ => True :=
  Frame.delivering_builds

private theorem mentioning_get (program : List String) (file : String) :
    Obeys (mentioning program C) (onCache fun _ dir c => c.get dir file) :=
  mentioning_of _ (obeys_onCache fun w => looking_anyBuild.get w file) fun _ => adding_onCache _

private theorem get_ok {file : String} {id : Nat} {w' : Workspace}
    (h : onCache (fun _ dir c => c.get dir file) w = .ok id w') :
    w'.cache.find? w'.project.dir file = some id := by
  obtain ⟨hid, hcache⟩ := (onCache_ok_iff _ _ _ _).mp h
  rw [← hcache, ← hid]
  exact Cache.find?_get w.cache w.project.dir file

/-- The first pass notes assets that the calls of the program name. -/
private theorem mentioning_collectFrom :
    ∀ files : List String, (∀ file ∈ files, file ∈ program) →
      Obeys (mentioning program C).beneath (collectFrom files)
  | [], _ => obeys_pure _
  | file :: files, hfiles => by
    have ih := mentioning_collectFrom files fun f hf => hfiles f (List.mem_cons_of_mem _ hf)
    have hfile := hfiles file List.mem_cons_self
    unfold collectFrom
    refine (obeys_lift _).bind fun declaration => ?_
    split
    · exact ih
    · intro s
      refine Law.Allows.bind (obeys_liftWorkspace (mentioning_get _ file) s).beneath fun id t ht => ?_
      obtain ⟨w, hw, rfl⟩ := (liftWorkspace_ok_iff _ _ _ _).mp ht
      have hfind := get_ok hw
      refine Law.Allows.bind (obeys_liftWorkspace (obeys_entry id) _).beneath fun e t he => ?_
      obtain ⟨w', hw', rfl⟩ := (liftWorkspace_ok_iff _ _ _ _).mp he
      obtain ⟨rfl, rfl⟩ := (entry_ok_iff _ _ _ _).mp hw'
      cases hscript : (w.cache.entry id).script? with
      | none => exact ((obeys_pure _).bind fun _ => ih.bind fun _ => obeys_pure _) _
      | some script =>
        cases hrefs : (w.cache.entry id).references? with
        | none => exact ((obeys_pure _).bind fun _ => ih.bind fun _ => obeys_pure _) _
        | some refs =>
          have hknown : w.references? file = some refs :=
            Option.bind_eq_some_iff.mpr ⟨id, hfind, hrefs⟩
          have hcollect := mentioning_onProject (C := C) program
            (Resources.obeys_collect file script refs)
            (Resources.adding_collect file script refs
              (fun _ _ hmem => .asset hfile hknown hmem) w.project)
          exact Law.Allows.bind (allows_liftWorkspace hcollect).beneath fun _ t _ =>
            (ih.bind fun _ => obeys_pure _) t

private theorem mentioning_collectProgram :
    Obeys (mentioning program C).beneath (collectProgram program) := by
  have hsay : ∀ f : Messages → Messages, Obeys (mentioning program C).beneath (changeMessages f) :=
    fun f => obeys_modify fun s => (mentioning program C).refl s.toWorkspace
  unfold collectProgram
  refine (mentioning_collectFrom program fun _ h => h).bind fun collected =>
    (hsay _).bind fun _ => Obeys.bind (fun s => ?_) fun said => hsay _
  have hsettle : ∀ w, (mentioning program C).Allows w ((onProject (modifyGet fun p =>
      ((Resources.settle p collected.pending).2, (Resources.settle p collected.pending).1))) w) :=
    fun w => mentioning_onProject _
      (obeys_modifyGet fun p => Resources.quiet_settle p collected.pending)
      (obeys_modifyGet (fun p => Resources.adds_settle p collected.pending) w.project)
  exact (allows_liftWorkspace (hsettle s.toWorkspace)).beneath

/-- What is done before files are written notes assets that the program refers to. -/
private theorem mentioning_prepare : Obeys (mentioning program C).beneath (prepare program) := by
  have hatlas : Obeys (mentioning program C) (changeProject fun p =>
      if p.config.spriteMerge then { p with atlas := p.atlas.begin } else p) := by
    refine mentioning_of _ (obeys_changeProject looking_anyBuild fun p => ?_) fun M =>
      obeys_modify fun w => ?_
    · split
      · exact .of_parts rfl
      · exact Project.Quiet.refl p
    · change Project.Adds _ _ _ _ w.project (if w.project.config.spriteMerge then _ else _)
      split <;> exact .of_eq rfl rfl rfl rfl
  have hoverrides := mentioning_of (C := C) program
    (obeys_prepareOverrides looking_anyBuild program) fun _ => adding_prepareOverrides program
  have hbuild := mentioning_of (C := C) program
    (obeys_buildAtlas delivering_anyBuild.toWriting Frame.placing_builds) fun _ => adding_buildAtlas
  have hhead : Obeys (mentioning program C) (onProject Page.expandHead) := fun w =>
    mentioning_onProject _ Page.obeys_expandHead
      (Page.adding_expandHead w.project fun _ htemplate _ hmem => .head htemplate hmem)
  unfold prepare
  exact Obeys.bind (fun s => (obeys_liftWorkspace hoverrides s).beneath) fun overrides =>
    Obeys.bind (fun s => (obeys_liftWorkspace hatlas s).beneath) fun _ =>
    mentioning_collectProgram.bind fun _ =>
    Obeys.bind (fun s => (obeys_liftWorkspace hbuild s).beneath) fun _ =>
    Obeys.bind (fun s => (obeys_liftWorkspace hhead s).beneath) fun _ => obeys_pure _

/-- Writing a file of the program notes assets that its sprites name. -/
private theorem mentioning_emitFile {id : Nat} {file : String} {refs : References}
    (overrides : List Override) (hfile : file ∈ program)
    (hfind : w.cache.find? w.project.dir file = some id) (hrefs : w.references? file = some refs) :
    (mentioning program C).Allows w (emitFile id file overrides w) := by
  have hsome : (w.cache.entry id).references = some refs := by
    obtain ⟨id', hfind', hid'⟩ := Option.bind_eq_some_iff.mp hrefs
    obtain rfl := Option.some.inj (hfind.symm.trans hfind')
    exact Entry.references_of_references? hid'
  unfold emitFile
  refine Law.Allows.bind (obeys_lift _ w) fun jsName t ht => ?_
  obtain ⟨-, rfl⟩ := (lift_ok_iff _ _ _ _).mp ht
  refine Law.Allows.bind (obeys_entry id w) fun e t ht => ?_
  obtain ⟨rfl, rfl⟩ := (entry_ok_iff _ _ _ _).mp ht
  rw [hsome]
  cases (w.cache.entry id).script with
  | none => exact obeys_pure _ w
  | some script =>
    refine Law.Allows.bind (obeys_get w) fun v t hget => ?_
    obtain ⟨rfl, rfl⟩ := (get_ok_iff _ _ _).mp hget
    refine Law.Allows.bind (obeys_lift _ w) fun o t ho => ?_
    obtain ⟨-, rfl⟩ := (lift_ok_iff _ _ _ _).mp ho
    refine Law.Allows.bind (mentioning_onProject _ (obeys_render file script refs overrides o)
      (adding_render file script refs overrides o (fun site hsite name hname =>
        .sprite hfile hrefs hsite hname) w.project)) fun written t _ => ?_
    have hdeliver := mentioning_of (C := C) program
      (obeys_deliver delivering_anyBuild.toTaking file jsName refs written)
      fun _ => adding_deliver file jsName refs written
    have hstamp := mentioning_of (C := C) program (obeys_stampOutput delivering_anyBuild id)
      fun _ => adding_changeEntry id Entry.stampOutput
    exact (hdeliver.bind fun _ => hstamp) t

private theorem mentioning_emitProgram (force atlasChanged : Bool) (overrides : FileOverrides) :
    ∀ (files : List String) (w : Workspace), w.destination = none →
      (∀ file ∈ files, file ∈ program) →
      (∀ file ∈ files, ∃ refs, w.references? file = some refs) →
      (mentioning program C).Allows w (emitProgram force atlasChanged overrides files w)
  | [], w, _, _, _ => obeys_pure _ w
  | file :: files, w, hdest, hfiles, hknown => by
    have hrest : ∀ t : Workspace, anyBuild.Moves w t →
        (mentioning program C).Allows t (emitProgram force atlasChanged overrides files t) := by
      intro t hm
      refine mentioning_emitProgram force atlasChanged overrides files t hm.destination
        (fun f hf => hfiles f (List.mem_cons_of_mem _ hf)) fun f hf => ?_
      obtain ⟨refs, hrefs⟩ := hknown f (List.mem_cons_of_mem _ hf)
      exact ⟨refs, hm.references? hrefs⟩
    have hget := mentioning_get (C := C) program file w
    unfold emitProgram
    refine Law.Allows.bind hget fun id t ht => ?_
    have hm := moves_of_mentioning hget hdest ht
    have hfind := get_ok ht
    have hone : ∀ asIs : Bool, (mentioning program C).Allows t ((do
        if asIs then
          changeEntry id Entry.stampOutput
          emitProgram force atlasChanged overrides files
        else if needsEmit force atlasChanged (← entry id) then
          emitFile id file ((overrides.filter fun o => o.1 == file).map Prod.snd)
          return file :: (← emitProgram force atlasChanged overrides files)
        else emitProgram force atlasChanged overrides files : Step Workspace (List String)) t) := by
      intro asIs
      cases asIs with
      | true =>
        have hstamp := mentioning_of (C := C) program (obeys_stampOutput delivering_anyBuild id)
          (fun _ => adding_changeEntry id Entry.stampOutput) t
        exact Law.Allows.bind hstamp fun _ t' ht' =>
          hrest t' (hm.trans (moves_of_mentioning hstamp hm.destination ht'))
      | false =>
        refine Law.Allows.bind (obeys_entry id t) fun e t' he => ?_
        obtain ⟨-, rfl⟩ := (entry_ok_iff _ _ _ _).mp he
        split
        · obtain ⟨refs, hrefs⟩ := hknown file List.mem_cons_self
          have hemit := mentioning_emitFile (C := C)
            ((overrides.filter fun o => o.1 == file).map Prod.snd)
            (hfiles file List.mem_cons_self) hfind (hm.references? hrefs)
          refine Law.Allows.bind hemit fun _ t' ht' => ?_
          exact Law.Allows.bind
            (hrest t' (hm.trans (moves_of_mentioning hemit hm.destination ht')))
            fun _ t'' _ => obeys_pure _ t''
        · exact hrest t hm
    refine Law.Allows.bind (obeys_lift _ t) fun declaration t' ht' => ?_
    obtain ⟨-, rfl⟩ := (lift_ok_iff _ _ _ _).mp ht'
    split
    · exact hone true
    · refine Law.Allows.bind (obeys_lift _ t) fun js t' ht' => ?_
      obtain ⟨-, rfl⟩ := (lift_ok_iff _ _ _ _).mp ht'
      exact hone js

end Session

/-! ### Style sheets -/

namespace Assembly

open Session

variable {C : String → Prop} {program : List String} {w w' : Workspace}

/-- A style sheet that was found among the assets. -/
structure Sheet.Listed (s : Sheet) (w : Workspace) : Prop where
  mem : s.name ∈ w.project.depAssets.keys
  css : Path.isCss s.name = .ok true
  find : w.cache.find? w.project.dir s.name = some s.id

/-- A style sheet stays one of the assets. -/
theorem Sheet.Listed.mono {s : Sheet} (h : s.Listed w) (hm : anyBuild.Moves w w')
    (hkept : ∀ name ∈ w.project.depAssets.keys, name ∈ w'.project.depAssets.keys) : s.Listed w' :=
  ⟨hkept _ h.mem, h.css, by rw [hm.dir]; exact hm.cache.find? h.find⟩

private theorem listed_of_mentioning {α : Type} {step : Step Workspace α} {a : α} {s : Sheet}
    (h : (mentioning program C).Allows w (step w)) (hdest : w.destination = none)
    (hs : step w = .ok a w') (hl : s.Listed w) : s.Listed w' := by
  rw [hs] at h
  exact hl.mono (Frame.moves_of_law h.1 hdest) (h.2 hdest).kept

/-- The style sheets that are found have the names that were asked for. -/
theorem findSheets_listed :
    ∀ {names : List String} {sheets : List Sheet} {w w' : Workspace}, w.destination = none →
      (∀ name ∈ names, name ∈ w.project.depAssets.keys) → findSheets names w = .ok sheets w' →
      ∀ s ∈ sheets, s.Listed w'
  | [], sheets, w, w', _, _, h => by
    obtain ⟨rfl, -⟩ := (pure_ok_iff _ _ _ _).mp h
    exact fun s hs => absurd hs List.not_mem_nil
  | name :: names, sheets, w, w', hdest, hnames, h => by
    unfold findSheets at h
    obtain ⟨css, v, hlift, h⟩ := (bind_ok_iff _ _ _ _ _).mp h
    obtain ⟨hcss, rfl⟩ := (lift_ok_iff _ _ _ _).mp hlift
    cases css with
    | false => exact findSheets_listed hdest (fun n hn => hnames n (List.mem_cons_of_mem _ hn)) h
    | true =>
      obtain ⟨id, w₁, hex, h⟩ := (bind_ok_iff _ _ _ _ _).mp h
      obtain ⟨hfind, -, hproject⟩ := existence_ok hex
      have hm := Frame.moves_of_obeys (obeys_existence looking_anyBuild name) hdest hex
      obtain ⟨e, w₂, he, h⟩ := (bind_ok_iff _ _ _ _ _).mp h
      obtain ⟨rfl, rfl⟩ := (entry_ok_iff _ _ _ _).mp he
      obtain ⟨rest, w₃, hrest, h⟩ := (bind_ok_iff _ _ _ _ _).mp h
      have hnames₁ : ∀ n ∈ names, n ∈ w₁.project.depAssets.keys := by
        rw [hproject]
        exact fun n hn => hnames n (List.mem_cons_of_mem _ hn)
      have ih := findSheets_listed hm.destination hnames₁ hrest
      have hone : Sheet.Listed ⟨name, id, (w₁.cache.entry id).needsCopy⟩ w₃ := by
        have hmem : name ∈ w₁.project.depAssets.keys := by
          rw [hproject]
          exact hnames name List.mem_cons_self
        refine Sheet.Listed.mono ⟨hmem, hcss, hfind⟩
          (Frame.moves_of_obeys (obeys_findSheets looking_anyBuild names) hm.destination hrest) ?_
        exact ((adding_findSheets (J := fun _ => True) (A := fun _ => True) (C := fun _ => True)
          (M := fun _ => True) names).ok hrest).kept
      split at h
      · obtain ⟨rfl, rfl⟩ := (pure_ok_iff _ _ _ _).mp h
        intro s hs
        rcases List.mem_cons.mp hs with rfl | hs
        · exact hone
        · exact ih s hs
      · obtain ⟨rfl, rfl⟩ := (pure_ok_iff _ _ _ _).mp h
        exact ih

private theorem mentioning_sheetText (program : List String) (id : Nat) :
    Obeys (mentioning program C) (sheetText id) :=
  mentioning_of _ (obeys_sheetText looking_anyBuild id) fun _ => adding_sheetText id

/-- The text of a style sheet that is answered is the one that its name has. -/
private theorem sheetText_ok {s : Sheet} {css : String} (hl : s.Listed w)
    (h : sheetText s.id w = .ok (some css) w') : w'.sheetText? s.name = some css := by
  unfold sheetText at h
  obtain ⟨u, v, hread, h⟩ := (bind_ok_iff _ _ _ _ _).mp h
  obtain ⟨e, v', he, h⟩ := (bind_ok_iff _ _ _ _ _).mp h
  obtain ⟨rfl, rfl⟩ := (entry_ok_iff _ _ _ _).mp he
  obtain ⟨hcss, rfl⟩ := (pure_ok_iff _ _ _ _).mp h
  obtain ⟨-, hcache⟩ := (onCache_ok_iff _ _ _ _).mp hread
  refine Option.bind_eq_some_iff.mpr ⟨s.id, ?_, hcss⟩
  rw [← hcache]
  change (w.cache.ensureBuffer w.disk s.id).find? w.project.dir s.name = some s.id
  rw [Cache.find?_eq_keys, Cache.keys_ensureBuffer, ← Cache.find?_eq_keys]
  exact hl.find

/-- The texts that are answered are those of style sheets among the assets. -/
private theorem sheetTexts_ok :
    ∀ {sheets : List Sheet} {sources : List (String × String)} {w w' : Workspace},
      w.destination = none → (∀ s ∈ sheets, s.Listed w) → sheetTexts sheets w = .ok sources w' →
      ∀ source ∈ sources, source.1 ∈ w'.project.depAssets.keys ∧ Path.isCss source.1 = .ok true ∧
        w'.sheetText? source.1 = some source.2
  | [], sources, w, w', _, _, h => by
    obtain ⟨rfl, -⟩ := (pure_ok_iff _ _ _ _).mp h
    exact fun source hs => absurd hs List.not_mem_nil
  | s :: ss, sources, w, w', hdest, hl, h => by
    unfold sheetTexts at h
    obtain ⟨text, w₁, htext, h⟩ := (bind_ok_iff _ _ _ _ _).mp h
    obtain ⟨rest, w₂, hrest, h⟩ := (bind_ok_iff _ _ _ _ _).mp h
    have hm := Frame.moves_of_obeys (obeys_sheetText looking_anyBuild s.id) hdest htext
    have hl₁ : ∀ s' ∈ s :: ss, s'.Listed w₁ := fun s' hs' =>
      listed_of_mentioning (mentioning_sheetText (C := fun _ => True) [] s.id w) hdest htext (hl s' hs')
    have ih := sheetTexts_ok hm.destination (fun s' hs' => hl₁ s' (List.mem_cons_of_mem _ hs')) hrest
    have hrest' : (mentioning [] fun _ => True).Allows w₁ (sheetTexts ss w₁) :=
      mentioning_of _ (obeys_sheetTexts looking_anyBuild ss) (fun _ => adding_sheetTexts ss) w₁
    cases text with
    | none =>
      obtain ⟨rfl, rfl⟩ := (pure_ok_iff _ _ _ _).mp h
      exact ih
    | some css =>
      obtain ⟨rfl, rfl⟩ := (pure_ok_iff _ _ _ _).mp h
      intro source hs
      rcases List.mem_cons.mp hs with rfl | hs
      · have hlast := listed_of_mentioning hrest' hm.destination hrest (hl₁ s List.mem_cons_self)
        rw [hrest] at hrest'
        exact ⟨hlast.mem, hlast.css, (Frame.moves_of_law hrest'.1 hm.destination).sheetText?
          (sheetText_ok (hl s List.mem_cons_self) htext)⟩
      · exact ih source hs

private theorem mentioning_write (path : String) (content : Bytes) :
    Obeys (mentioning program C) (write path content) :=
  mentioning_of _ (obeys_write delivering_anyBuild.toWriting path content)
    fun _ => adding_write path content

private theorem mentioning_link (program : List String) (hC : ∀ css, C css) (output : String) :
    Obeys (mentioning program C) (changeProject fun p => { p with cssToLink := p.cssToLink ++ [output] }) := by
  refine mentioning_of _ (obeys_changeProject looking_anyBuild fun _ =>
    .of_parts rfl) fun M => obeys_modify fun _ => ?_
  exact ⟨fun _ h => h, fun _ h => h, fun _ h => .inl h, fun _ h => .inl h, fun css _ => .inr (hC css),
    fun _ h => .inl h, fun _ => rfl⟩

/-- Style sheets that are put together note assets that they refer to. -/
private theorem mentioning_concatenate {sources : List (String × String)}
    (h : ∀ source ∈ sources, source.1 ∈ w.project.depAssets.keys ∧ Path.isCss source.1 = .ok true ∧
      w.sheetText? source.1 = some source.2) :
    (mentioning program C).Allows w
      (onProject (Stylesheet.concatenate sources mergedReference) w) := by
  refine mentioning_onProject _ (Stylesheet.obeys_concatenate sources obeys_mergedReference)
    (Stylesheet.obeys_concatenate_of_mem sources (fun source hsource quote content written hmem
      hinternal => adding_mergedReference ?_) w.project)
  obtain ⟨hknown, hcss, htext⟩ := h source hsource
  exact .url (.known hknown) hcss htext hmem hinternal

/-- A style sheet that is taken as it is notes assets that it refers to. -/
private theorem mentioning_mapUrls {sheet css : String} (hknown : sheet ∈ w.project.depAssets.keys)
    (hcss : Path.isCss sheet = .ok true) (htext : w.sheetText? sheet = some css) :
    (mentioning program C).Allows w
      (onProject (Stylesheet.mapUrls css fun url => plainReference url sheet) w) := by
  have hadds : Obeys (Project.adding (fun _ => False)
      ((Account.mk program w).RefersTo (· ∈ w.project.depAssets.keys)) C fun _ => False)
      (Stylesheet.mapUrls css fun url => plainReference url sheet) :=
    Stylesheet.obeys_mapUrls_of_mem css fun _ _ _ hmem hinternal =>
      adding_plainReference (.url (.known hknown) hcss htext hmem hinternal)
  exact mentioning_onProject _
    (Stylesheet.obeys_mapUrls css fun url => obeys_plainReference url sheet) (hadds w.project)

/-- The merged style sheet notes assets that its parts refer to. -/
private theorem mentioning_mergeSheets (hC : ∀ css, C css) {sheets : List Sheet} (hdest : w.destination = none)
    (hl : ∀ s ∈ sheets, s.Listed w) : (mentioning program C).Allows w (mergeSheets sheets w) := by
  unfold mergeSheets
  split
  · exact obeys_pure _ w
  · have hshort := mentioning_onProject (C := C) program (w := w) (obeys_shorten "bundle.css")
      (adding_shorten "bundle.css" w.project)
    refine Law.Allows.bind hshort fun output w₁ hw₁ => ?_
    have hm₁ := moves_of_mentioning hshort hdest hw₁
    split
    · have htexts := mentioning_of (C := C) program (obeys_sheetTexts looking_anyBuild sheets)
        (fun _ => adding_sheetTexts sheets) w₁
      refine Law.Allows.bind htexts fun sources w₂ hw₂ => ?_
      have hsources := sheetTexts_ok hm₁.destination
        (fun s hs => listed_of_mentioning hshort hdest hw₁ (hl s hs)) hw₂
      exact Law.Allows.bind (mentioning_concatenate hsources) fun css w₃ _ =>
        ((mentioning_write _ _).bind fun _ => mentioning_link _ hC output) w₃
    · exact mentioning_link _ hC output w₁

/-- A style sheet of its own notes assets that it refers to. -/
private theorem mentioning_copySheet (program : List String) (hC : ∀ css, C css) {s : Sheet}
    (hdest : w.destination = none) (hl : s.Listed w) :
    (mentioning program C).Allows w (copySheet s w) := by
  unfold copySheet
  refine Law.Allows.bind (obeys_get w) fun v t hget => ?_
  obtain ⟨rfl, rfl⟩ := (get_ok_iff _ _ _).mp hget
  have hlink := mentioning_link (C := C) program hC
    ((w.project.depAssets.get? s.name).getD s.name) w
  refine Law.Allows.bind hlink fun u w₁ hw₁ => ?_
  have hl₁ := listed_of_mentioning hlink hdest hw₁ hl
  have hdest₁ := (moves_of_mentioning hlink hdest hw₁).destination
  split
  · have htext := mentioning_sheetText (C := C) program s.id w₁
    refine Law.Allows.bind htext fun text w₂ hw₂ => ?_
    cases text with
    | none => exact obeys_pure _ w₂
    | some css =>
      have hl₂ := listed_of_mentioning htext hdest₁ hw₂ hl₁
      exact Law.Allows.bind (mentioning_mapUrls hl₂.mem hl₂.css (sheetText_ok hl₁ hw₂))
        fun _ w₃ _ => mentioning_write _ _ w₃
  · exact obeys_pure _ w₁

/-- Processing the assets notes what style sheets refer to. -/
theorem mentioning_processAssets (program : List String) (hC : ∀ css, C css)
    (hdest : w.destination = none) :
    (mentioning program C).Allows w (processAssets w) := by
  have hcopy : ∀ assets : List (String × String),
      Obeys (mentioning program C) (assets.forM copyAsset) := fun assets =>
    obeys_forM (fun asset => mentioning_of _ (obeys_copyAsset delivering_anyBuild.toCopying asset)
      fun _ => adding_copyAsset asset) assets
  have hsheets : ∀ (sheets : List Sheet) (w : Workspace), w.destination = none →
      (∀ s ∈ sheets, s.Listed w) → (mentioning program C).Allows w (sheets.forM copySheet w) := by
    intro sheets w hdest hl
    refine allows_forM (I := fun w s => w.destination = none ∧ s.Listed w)
      (fun hm ⟨hdest, hl⟩ => ?_) (fun s w ⟨hdest, hl⟩ => mentioning_copySheet program hC hdest hl)
      sheets w fun s hs => ⟨hdest, hl s hs⟩
    have hmoves := Frame.moves_of_law hm.1 hdest
    exact ⟨hmoves.destination, hl.mono hmoves (hm.2 hdest).kept⟩
  unfold processAssets
  refine Law.Allows.bind (mentioning_of program (obeys_enter looking_anyBuild _)
    (fun _ => adding_enter _) w) fun u w₁ hw₁ => ?_
  obtain rfl := (modify_ok_iff _ _ _ _).mp hw₁
  refine Law.Allows.bind (obeys_get _) fun v w₂ hget => ?_
  obtain ⟨rfl, rfl⟩ := (get_ok_iff _ _ _).mp hget
  have hfind := mentioning_of (C := C) program
    (obeys_findSheets looking_anyBuild w.project.depAssets.keys)
    (fun _ => adding_findSheets w.project.depAssets.keys) { w with phase := .assetProcessing }
  refine Law.Allows.bind hfind fun sheets w₃ hw₃ => ?_
  have hdest₃ := (moves_of_mentioning hfind hdest hw₃).destination
  have hl := findSheets_listed (w := { w with phase := .assetProcessing }) hdest (fun _ h => h) hw₃
  split
  · exact Law.Allows.bind (mentioning_mergeSheets hC hdest₃ hl) fun _ w₄ _ =>
      (obeys_get.bind fun _ => hcopy _) w₄
  · exact Law.Allows.bind (hsheets sheets w₃ hdest₃ hl) fun _ w₄ _ =>
      (obeys_get.bind fun _ => hcopy _) w₄

end Assembly

namespace Session

variable {C : String → Prop} {program : List String}

/-- What is done up to the assets: the files that were written. -/
def deliverScripts (force : Bool) (program : List String) : Step Session (List String) := do
  let prepared ← prepare program
  refreshProgram program
  enter .emit
  let emitted ← emitProgram force prepared.2 prepared.1 program
  Assembly.copyDependencyJs
  return emitted

/-- What is done from the assets on. -/
def deliverAssets : Step Session Unit := do
  Assembly.processAssets
  if (← get).project.config.bundle != .none then Assembly.assemble

theorem emitAll_eq_scripts_assets (force : Bool) (program : List String) :
    emitAll force program = (do
      let emitted ← deliverScripts force program
      deliverAssets
      return emitted) := by
  have hassemble : ∀ (bundled : Bool) (emitted : List String),
      ((if bundled = true then liftM Assembly.assemble else pure () : Step Session Unit) >>= fun _ =>
          pure emitted)
        = if bundled = true then (liftM Assembly.assemble : Step Session Unit) >>= fun _ => pure emitted
          else pure emitted := by
    intro bundled emitted
    cases bundled <;> simp only [if_true, Bool.false_eq_true, if_false, pure_bind]
  simp only [emitAll_eq, deliverProgram, deliverScripts, deliverAssets, bind_assoc, pure_bind, hassemble]

private theorem moves_of_beneath {α : Type} {step : Step Session α} {s t : Session} {a : α}
    (h : (mentioning program C).beneath.Allows s (step s)) (hdest : s.destination = none)
    (hs : step s = .ok a t) : anyBuild.Moves s.toWorkspace t.toWorkspace := by
  rw [hs] at h
  exact Frame.moves_of_law h.1 hdest

/-- Up to the assets, assets are noted that the program or the page head refers to, and scripts are
copied that are noted. -/
theorem allows_deliverScripts (force : Bool) {s : Session} (hdest : s.destination = none)
    (hknown : ∀ file ∈ program, ∃ refs, s.toWorkspace.references? file = some refs) :
    (mentioning program C).beneath.Allows s (deliverScripts force program s) := by
  have hrefresh : Obeys (mentioning program C) (refreshProgram program) :=
    mentioning_of _ (obeys_refreshProgram Frame.walking_builds program)
      fun _ => obeys_refreshProgram walking_adding program
  have hcopy : Obeys (mentioning program C) Assembly.copyDependencyJs := fun w =>
    mentioning_of_allows
      (Assembly.allows_copyDependencyJs delivering_anyBuild.toTaking w fun _ _ => trivial)
      (Assembly.adding_copyDependencyJs w fun js hjs _ hid => ⟨js, hjs, hid⟩)
  have henter := mentioning_of (C := C) program (obeys_enter looking_anyBuild .emit)
    fun _ => adding_enter .emit
  unfold deliverScripts
  refine Law.Allows.bind (mentioning_prepare s) fun prepared s₁ hs₁ => ?_
  have hm₁ := moves_of_beneath (mentioning_prepare (C := C) s) hdest hs₁
  have hrefresh₁ := (obeys_liftWorkspace hrefresh s₁).beneath
  refine Law.Allows.bind hrefresh₁ fun _ s₂ hs₂ => ?_
  have hm₂ := hm₁.trans (moves_of_beneath hrefresh₁ hm₁.destination hs₂)
  have henter₂ := (obeys_liftWorkspace henter s₂).beneath
  refine Law.Allows.bind henter₂ fun _ s₃ hs₃ => ?_
  have hm₃ := hm₂.trans (moves_of_beneath henter₂ hm₂.destination hs₃)
  have hemit := (allows_liftWorkspace (mentioning_emitProgram (C := C) force prepared.2 prepared.1
    program s₃.toWorkspace hm₃.destination (fun _ h => h) fun file hfile =>
      (hknown file hfile).imp fun refs hrefs => hm₃.references? hrefs)).beneath
  refine Law.Allows.bind hemit fun emitted s₄ _ => ?_
  exact Law.Allows.bind (obeys_liftWorkspace hcopy s₄).beneath fun _ s₅ _ => obeys_pure _ s₅

/-- From the assets on, assets are noted that style sheets refer to. -/
theorem allows_deliverAssets (hC : ∀ css, C css) {s : Session} (hdest : s.destination = none) :
    (mentioning program C).beneath.Allows s (deliverAssets s) := by
  have hassets := (allows_liftWorkspace
    (Assembly.mentioning_processAssets program hC hdest)).beneath
  unfold deliverAssets
  refine Law.Allows.bind hassets fun _ t _ => ?_
  refine Law.Allows.bind (obeys_get t) fun v t' hget => ?_
  obtain ⟨rfl, rfl⟩ := (get_ok_iff _ _ _).mp hget
  split
  · rename_i hbundle
    have hframe := Assembly.allows_assemble delivering_anyBuild.toWriting t.toWorkspace
      (by simpa using hbundle)
    exact (allows_liftWorkspace
      (mentioning_of_allows hframe (Assembly.adding_assemble t.toWorkspace))).beneath
  · exact obeys_pure _ t

/-- Emitting notes assets that the program, the page head or a style sheet refers to, and no script. -/
theorem allows_emitAll (hC : ∀ css, C css) (force : Bool) {s : Session} (hdest : s.destination = none)
    (hknown : ∀ file ∈ program, ∃ refs, s.toWorkspace.references? file = some refs) :
    (mentioning program C).beneath.Allows s (emitAll force program s) := by
  have hscripts := allows_deliverScripts (C := C) force hdest hknown
  rw [emitAll_eq_scripts_assets]
  refine Law.Allows.bind hscripts fun emitted t ht => ?_
  have hdest' := (moves_of_beneath hscripts hdest ht).destination
  exact Law.Allows.bind (allows_deliverAssets hC hdest') fun _ u _ => obeys_pure _ u

end Session

end Bundler

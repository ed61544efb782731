/-
Checking and preparing in lockstep.

Once two twins have loaded the same files, they say the same about them, and collect the same
references. Only the values that are set for constants need more. They may be meant for a module that
was found as a script, which is taken over and not loaded. If such a script was loaded in the past, as
an entry file then, the workspace with the past still has it, and looks for the constants in it where
the other one has no script at all. So it is a condition here that the script of a module with values
for its constants is not one of the past only (`Past.Overridable`).
-/
import Bundler.Proofs.TwinLoading

set_option autoImplicit false

namespace Bundler

open Workspace Step Coupling

namespace Frame

/-- What is current stays when files are delivered. -/
theorem delivering_grows : Bundler.Delivering grows.law fun _ => True :=
  delivering
    (taking looking_grows (fun _ e _ _ _ => Entry.Grows.of_stamps e _ e.freshness)
      (fun _ e _ => Entry.Grows.of_stamps e _ e.freshness) (fun _ _ _ => trivial)
      fun _ _ _ => trivial)
    fun _ e => Entry.Grows.of_stamps e _ e.freshness

end Frame

namespace Past

open Session

variable {past : Past} {α : Type} {file : String} {program : List String}

/-- Laws of delivering hold of the coupling. -/
theorem obeys_of_grows {x : Step Workspace α} (h : Obeys Frame.grows.law x) :
    Obeys past.coupling.law x := h.weaken (fun hm => hm) fun _ _ _ => trivial

/-! ## Checking -/

/-- What a program is checked by. -/
private def checked (program : List String) (s : Session) : List (List Diagnostic × Option Script) :=
  program.filterMap fun file => (s.cache.find? s.project.dir file).map fun i =>
    ((s.cache.entry i).diagnostics, (s.cache.entry i).script?)

private def report (c : List (List Diagnostic × Option Script)) : Step Session Unit := do
  changeMessages (·.addAll (c.flatMap Prod.fst))
  changeMessages (·.addAll (Script.check (c.filterMap Prod.snd)))

private theorem checkProgram_eq (program : List String) : checkProgram program = (do
    let s ← get
    report (checked program s)) := by
  unfold checkProgram report
  refine bind_congr fun s => ?_
  have hentries : checked program s = (program.filterMap fun file =>
      (s.cache.find? s.project.dir file).map s.cache.entry).map fun e =>
        (e.diagnostics, e.script?) := by
    unfold checked
    rw [List.map_filterMap]
    refine congrArg (fun f => List.filterMap f program) (funext fun file => ?_)
    rw [Option.map_map]
    rfl
  rw [hentries, List.flatMap_map, List.filterMap_map]
  rfl

theorem script?_of_shared {w w' : Workspace} {i i' : Nat} (hp : Pair Entry.Loaded file i i' w w')
    (ht : w.Twins past w') : (w'.cache.entry i').script? = (w.cache.entry i).script? := by
  obtain ⟨hscript, -⟩ := (hp.mono fun _ h => h.source).script ht
  unfold Entry.script?
  rw [if_pos hp.holds.source, if_pos hp.holds'.source, hscript]

theorem lockstep_checkProgram (program : List String) :
    Lockstep past.sessions (past.Listed program) (checkProgram program) (checkProgram program)
      same := by
  rw [checkProgram_eq]
  refine Lockstep.of_get (C := past.sessions) (checked program) (fun s s' hs hl => ?_) fun c => ?_
  · unfold checked
    refine List.filterMap_congr fun file hfile => ?_
    obtain ⟨-, i, i', hp⟩ := hl file hfile
    rw [hp.left, hp.right, Option.map_some, Option.map_some, script?_of_shared hp hs.1,
      ((hp.mono fun _ h => h.source).script hs.1).2]
  · exact ((steady_changeMessages _).bind fun _ => steady_changeMessages _).of_pre
      fun _ _ _ _ => trivial

/-! ## Values for constants -/

/-- The script in which constants of a file are looked for. -/
def scriptOf? (w : Workspace) (file : String) : Option Script :=
  (w.cache.find? w.project.dir file).bind fun id => (w.cache.entry id).script?

/-- Constants are looked for in the same scripts: those of a program, and those of the files in which
modules are defined. -/
structure Overriding (program : List String) (modules : List (String × Constants))
    (w w' : Workspace) : Prop where
  listed : ∀ file ∈ program, scriptOf? w' file = scriptOf? w file
  defined : ∀ m ∈ modules, ∀ info, w'.project.modules.get? m.1 = some info →
    scriptOf? w' info.definition = scriptOf? w info.definition

private theorem script?_none {e : Entry} (h : ¬ e.script.isSome = true) : e.script? = none := by
  have hnone : e.script = none := by simpa using h
  unfold Entry.script?
  rw [hnone]
  exact ite_self _

/-- Twins have the same script of a file that was not read in the past, or was read anew. -/
private theorem scriptOf?_eq {w w' : Workspace} (ht : w.Twins past w')
    (hanew : Entry.ParsedBefore (past.cache.at? (Cache.keyOf w'.project.dir file)) →
      ∃ e, w'.cache.at? (Cache.keyOf w'.project.dir file) = some e ∧ e.script.isSome = true) :
    scriptOf? w' file = scriptOf? w file := by
  unfold scriptOf?
  cases hi' : w'.cache.find? w'.project.dir file with
  | some i' =>
    obtain ⟨i, hi⟩ := ht.known hi'
    rw [hi, Option.bind_some, Option.bind_some]
    have htwin := ht.entry hi hi'
    by_cases hsome : (w'.cache.entry i').script.isSome = true
    · obtain ⟨hs, hs'⟩ := htwin.parsed hsome
      have hp : Pair (fun e => e.isSourceCurrent = true) file i i' w w' := ⟨hi, hi', hs, hs'⟩
      unfold Entry.script?
      rw [if_pos hs, if_pos hs', (hp.script ht).1]
    · -- a script that only the first has is one of the past
      have hnone : ¬ (w.cache.entry i).script.isSome = true := by
        intro hleft
        rcases htwin.kept hleft with hright | hbefore
        · exact hsome hright
        · obtain ⟨e, he, hscript⟩ := hanew (by rw [ht.dir]; exact hbefore)
          rw [Cache.at?_of_find? hi'] at he
          exact hsome (by rw [Option.some.inj he]; exact hscript)
      rw [script?_none hsome, script?_none hnone]
  | none =>
    cases hi : w.cache.find? w.project.dir file with
    | none => rfl
    | some i =>
      have hat' : w'.cache.at? (Cache.keyOf w.project.dir file) = none := by
        rw [← ht.dir]
        exact congrArg (Option.map w'.cache.entry) hi'
      have hmatched := ht.cache (Cache.keyOf w.project.dir file)
      rw [hat', Cache.at?_of_find? hi] at hmatched
      obtain ⟨e, he⟩ : ∃ e, w.cache.entry i = e := ⟨_, rfl⟩
      rw [he] at hmatched
      cases hmatched with
      | alone _ _ _ hkept =>
        rw [Option.bind_some, he, script?_none]
        · rfl
        · intro hleft
          obtain ⟨e', he', -⟩ := hanew (by rw [ht.dir]; exact hkept hleft)
          rw [ht.dir, hat'] at he'
          exact absurd he' (by simp)

theorem overriding_of_listed {s s' : Session} (hs : s.toWorkspace.Twins past s'.toWorkspace)
    (hlisted : past.Listed program s s')
    (hoverridable : s'.toWorkspace.Overridable past.config past.cache) :
    Overriding program s'.project.config.constantOverrides.toList s.toWorkspace s'.toWorkspace where
  listed file hfile := by
    obtain ⟨-, i, i', hp⟩ := hlisted file hfile
    unfold scriptOf?
    rw [hp.left, hp.right]
    exact script?_of_shared hp hs
  defined m hm info hinfo := by
    rw [hs.project.config] at hm
    exact scriptOf?_eq hs (hoverridable m hm info hinfo)

section

variable {modules : List (String × Constants)}

/-- What is said does not touch scripts and modules. -/
private theorem lockstep_sayOverriding (line : String) :
    Lockstep past.coupling (Overriding program modules) (say line) (say line)
      fun w w' u u' => u = u' ∧ Overriding program modules w w' := by
  have hsay := (@steady_say past line).also (P := Overriding program modules)
    (Q := fun w w' _ _ => Overriding program modules w w') fun s s' t t' _ _ h hs hs' => by
      obtain rfl := (modify_ok_iff _ _ _ _).mp hs
      obtain rfl := (modify_ok_iff _ _ _ _).mp hs'
      exact ⟨h.listed, h.defined⟩
  exact hsay.of_pre fun _ _ _ h => ⟨trivial, h⟩

private theorem lockstep_constantOverrides (script : Script) (file module : String)
    (constants : List (String × Json)) :
    Lockstep past.coupling (Overriding program modules)
      (constantOverrides script file module constants)
      (constantOverrides script file module constants)
      fun w w' os os' => os = os' ∧ Overriding program modules w w' := by
  induction constants with
  | nil => exact Lockstep.of_pure _ _ fun _ _ _ h => ⟨rfl, h⟩
  | cons constant rest ih =>
    obtain ⟨name, value⟩ := constant
    unfold constantOverrides
    split
    · exact ih.bind_same fun _ => Lockstep.of_pure _ _ fun _ _ _ h => ⟨rfl, h⟩
    · exact (lockstep_sayOverriding _).bind_same fun _ => ih

private theorem mem_of_fileOfModule? {id : String} : ∀ {files : List String},
    fileOfModule? id files = .ok (some file) → file ∈ files
  | [], h => by
    cases h
  | f :: files, h => by
    unfold fileOfModule? at h
    cases hid : Path.moduleId f with
    | error e =>
      rw [hid] at h
      cases h
    | ok found =>
      rw [hid] at h
      simp only [bind, Except.bind] at h
      split at h
      · cases h
        exact List.mem_cons_self
      · exact List.mem_cons_of_mem _ (mem_of_fileOfModule? h)

/-- The file that the record of a module names, or else the file of the program with its name. -/
def definingFile? (program : List String) (module : String) (info : Option ModuleInfo) :
    Step Workspace (Option String) :=
  match info with
  | some info => return some info.definition
  | none => fileOfModule? module program

/-- The file that values are meant for is one whose scripts are the same. -/
private theorem lockstep_overriddenFile? {m : String × Constants} (hm : m ∈ modules) :
    Lockstep past.coupling (Overriding program modules) (overriddenFile? program m.1)
      (overriddenFile? program m.1) fun w w' f f' => f = f' ∧ Overriding program modules w w' ∧
        ∀ file, f = some file → scriptOf? w' file = scriptOf? w file := by
  have hfind : ∀ info : Option ModuleInfo, Lockstep past.coupling
      (fun w w' => Overriding program modules w w' ∧ w.project.modules.get? m.1 = info ∧
        w'.project.modules.get? m.1 = info)
      (definingFile? program m.1 info) (definingFile? program m.1 info)
      fun w w' f f' => f = f' ∧ Overriding program modules w w' ∧
        ∀ file, f = some file → scriptOf? w' file = scriptOf? w file := by
    intro info
    cases info with
    | some info =>
      refine Lockstep.of_pure _ _ fun w w' _ ⟨h, _, hinfo⟩ => ⟨rfl, h, fun file hfile => ?_⟩
      obtain rfl := Option.some.inj hfile
      exact h.defined m hm info hinfo
    | none =>
      unfold definingFile?
      cases hfile : fileOfModule? m.1 program with
      | error e => exact Lockstep.of_throw _
      | ok f =>
        refine Lockstep.of_pure f f fun w w' _ ⟨h, _⟩ => ⟨rfl, h, fun file hf => ?_⟩
        exact h.listed file (mem_of_fileOfModule? (by rw [hfile, hf]))
  exact Lockstep.of_get (C := past.coupling) (fun w : Workspace => w.project.modules.get? m.1)
    (fun w w' hw _ => recalls_congr hw.project (fun p => p.modules.get? m.1) fun _ => rfl) hfind

/-- The overrides of a module in the script of its file. -/
def scriptOverrides (file : String) (m : String × Constants) (script : Option Script) :
    Step Workspace FileOverrides :=
  match script with
  | none => return []
  | some script => constantOverrides script file m.1 m.2.toList

private theorem lockstep_moduleOverrides {m : String × Constants} (hm : m ∈ modules) :
    Lockstep past.coupling (Overriding program modules) (moduleOverrides program m)
      (moduleOverrides program m) fun w w' os os' => os = os' ∧ Overriding program modules w w' := by
  refine (lockstep_overriddenFile? hm).bind_same fun f => ?_
  cases f with
  | none =>
    exact ((lockstep_sayOverriding _).of_pre fun _ _ _ h => h.1).bind_same fun _ =>
      Lockstep.of_pure _ _ fun _ _ _ h => ⟨rfl, h⟩
  | some file =>
    have hlook : ∀ script : Option Script, Lockstep past.coupling
        (fun w w' => (Overriding program modules w w' ∧
          ∀ f, some file = some f → scriptOf? w' f = scriptOf? w f) ∧
          scriptOf? w file = script ∧ scriptOf? w' file = script)
        (scriptOverrides file m script) (scriptOverrides file m script)
        fun w w' os os' => os = os' ∧ Overriding program modules w w' := by
      intro script
      cases script with
      | none => exact Lockstep.of_pure _ _ fun _ _ _ h => ⟨rfl, h.1.1⟩
      | some script => exact (lockstep_constantOverrides _ _ _ _).of_pre fun _ _ _ h => h.1.1
    exact Lockstep.of_get (C := past.coupling) (fun w : Workspace => scriptOf? w file)
      (fun w w' _ h => (h.2 file rfl).symm) hlook

private theorem lockstep_allOverrides : ∀ ms : List (String × Constants), (∀ m ∈ ms, m ∈ modules) →
    Lockstep past.coupling (Overriding program modules) (ms.mapM (moduleOverrides program))
      (ms.mapM (moduleOverrides program)) fun w w' os os' =>
        os = os' ∧ Overriding program modules w w'
  | [], _ => Lockstep.of_pure _ _ fun _ _ _ h => ⟨rfl, h⟩
  | m :: ms, h => by
    rw [List.mapM_cons]
    exact (lockstep_moduleOverrides (h m List.mem_cons_self)).bind_same fun _ =>
      (lockstep_allOverrides ms fun x hx => h x (List.mem_cons_of_mem _ hx)).bind_same fun _ =>
        Lockstep.of_pure _ _ fun _ _ _ h => ⟨rfl, h⟩

end

theorem lockstep_prepareOverrides (program : List String) : Lockstep past.coupling
    (fun w w' => Overriding program w'.project.config.constantOverrides.toList w w')
    (prepareOverrides program) (prepareOverrides program) same := by
  have hall : ∀ modules : OrderedMap String Constants, Lockstep past.coupling
      (fun w w' => Overriding program w'.project.config.constantOverrides.toList w w' ∧
        w.project.config.constantOverrides = modules ∧ w'.project.config.constantOverrides = modules)
      (do return (← modules.toList.mapM (moduleOverrides program)).flatten :
        Step Workspace FileOverrides)
      (do return (← modules.toList.mapM (moduleOverrides program)).flatten) same := by
    intro modules
    have hmap : Lockstep past.coupling
        (fun w w' => Overriding program w'.project.config.constantOverrides.toList w w' ∧
          w.project.config.constantOverrides = modules ∧
          w'.project.config.constantOverrides = modules)
        (modules.toList.mapM (moduleOverrides program))
        (modules.toList.mapM (moduleOverrides program))
        fun w w' os os' => os = os' ∧ Overriding program modules.toList w w' :=
      (lockstep_allOverrides modules.toList fun _ h => h).of_pre fun _ _ _ ⟨h, _, hmodules⟩ => by
        rw [← hmodules]
        exact h
    exact hmap.bind_same fun _ => Lockstep.of_pure _ _ fun _ _ _ _ => rfl
  exact Lockstep.of_get (C := past.coupling) (fun w : Workspace => w.project.config.constantOverrides)
    (fun w w' hw _ => by rw [hw.config]) hall

/-! ## Collecting -/

/-- Collects the references of a file whose script and references are there, and those of the files
behind it. -/
def collectHeld (file : String) (files : List String) (c : Option Script × Option References) :
    Step Session Resources.Collected := do
  let first ←
    match c.1, c.2 with
    | some script, some refs => onWorkspace (onProject (Resources.collect file script refs))
    | _, _ => pure .none
  return first.append (← collectFrom files)

private theorem lockstep_collectFrom : ∀ files : List String, (∀ file ∈ files, file ∈ program) →
    Lockstep past.sessions (past.Listed program) (collectFrom files) (collectFrom files)
      fun t t' a a' => a = a' ∧ past.Listed program t t'
  | [], _ => Lockstep.of_pure _ _ fun _ _ _ h => ⟨rfl, h⟩
  | file :: files, hfiles => by
    have ih := lockstep_collectFrom files fun f hf =>
      hfiles f (List.mem_cons_of_mem _ hf)
    unfold collectFrom
    refine Lockstep.lift_bind fun declaration _ => ?_
    cases declaration with
    | true => exact ih
    | false =>
      have hcollect : ∀ c : Option Script × Option References, Lockstep past.sessions
          (past.Listed program) (collectHeld file files c) (collectHeld file files c)
          fun t t' a a' => a = a' ∧ past.Listed program t t' := by
        intro c
        have hrest : ∀ first : Resources.Collected, Lockstep past.sessions (past.Listed program)
            (do return first.append (← collectFrom files) : Step Session Resources.Collected)
            (do return first.append (← collectFrom files))
            fun t t' a a' => a = a' ∧ past.Listed program t t' := fun first =>
          ih.bind_same fun _ => Lockstep.of_pure _ _ fun _ _ _ h => ⟨rfl, h⟩
        have hnone : Steady past.sessions (pure .none : Step Session Resources.Collected) :=
          Steady.of_pure _
        obtain ⟨script, refs⟩ := c
        cases script with
        | none => exact (hnone.keeping stable_listed).bind_same hrest
        | some script =>
          cases refs with
          | none => exact (hnone.keeping stable_listed).bind_same hrest
          | some refs =>
            have hone : Steady past.sessions
                (onWorkspace (onProject (Resources.collect file script refs))) :=
              steady_lift (steady_onProject (steady_collect file script refs))
            exact (hone.keeping stable_listed).bind_same hrest
      have hget := Lockstep.frame (@stable_listed past program)
        (lockstep_lift (lockstep_get file))
      refine (hget.of_pre fun _ _ _ h => ⟨trivial, h⟩).bind fun i i' => ?_
      refine (Lockstep.observe (C := past.sessions) (v := fun s : Session => s.cache.entry i)
        (fun e => (e.script?, e.references?)) (fun _ => rfl) (fun _ => rfl) (fun s s' hs h => ?_)
        fun c => (hcollect c).of_pre fun _ _ _ h => h.1.2)
      obtain ⟨-, j, j', hp⟩ := h.2 file (hfiles file List.mem_cons_self)
      obtain rfl : j = i := Option.some.inj (hp.left.symm.trans h.1.left)
      obtain rfl : j' = i' := Option.some.inj (hp.right.symm.trans h.1.right)
      exact Prod.ext (script?_of_shared hp hs.1) ((hp.mono fun e he => he.isSet).references? hs.1)

theorem lockstep_collectProgram (program : List String) : Lockstep past.sessions
    (past.Listed program) (collectProgram program) (collectProgram program) same :=
  (lockstep_collectFrom program fun _ h => h).bind_same fun _ =>
    ((steady_changeMessages _).bind fun _ =>
      (steady_lift (steady_onProject (steady_settle _))).bind fun _ =>
        steady_changeMessages _).of_pre fun _ _ _ _ => trivial

/-! ## Preparing -/

/-- There is no atlas. -/
theorem steady_beginAtlas : Steady past.coupling (changeProject fun p =>
    if p.config.spriteMerge then { p with atlas := p.atlas.begin } else p) := by
  refine steady_changeProject (Steady.of_modify (fun p => ?_) fun p p' h _ => ?_)
  · split <;> exact ⟨rfl, rfl⟩
  · have hplain : p'.config.spriteMerge = false := by rw [h.config, past.plain]
    have hplain' : p.config.spriteMerge = false := by
      rw [recalls_congr h (fun p => p.config.spriteMerge) fun _ => rfl, hplain]
    simp only [hplain, hplain', Bool.false_eq_true, if_false]
    exact h

theorem steady_buildAtlas : Steady past.coupling buildAtlas := by
  have hobeys := @obeys_of_grows past _ _ (obeys_buildAtlas Frame.delivering_grows.toWriting
    (Frame.placing fun _ _ => trivial))
  have hplain : ∀ w : Workspace, w.project.config.spriteMerge = false →
      buildAtlas w = (pure false : Step Workspace Bool) w := by
    intro w hw
    have hget : (get : Step Workspace Workspace) w = .ok w w := rfl
    unfold buildAtlas
    rw [bind_of_ok hget, hw]
    rfl
  refine Lockstep.of_eq hobeys hobeys fun w w' hw _ =>
    ⟨Coupling.free, pure false, pure false, trivial, hplain w ?_, hplain w' ?_, Steady.of_pure false⟩
  · rw [← hw.config, hw.project.config, past.plain]
  · rw [hw.project.config, past.plain]

theorem lockstep_prepare (program : List String) : Lockstep past.sessions
    (fun s s' => past.Listed program s s' ∧ s'.toWorkspace.Overridable past.config past.cache)
    (prepare program) (prepare program) fun t t' a a' => a = a' ∧ past.Listed program t t' := by
  have hoverrides := Lockstep.frame (@stable_listed past program)
    (lockstep_lift (@lockstep_prepareOverrides past program))
  refine (hoverrides.of_pre fun s s' hs h =>
    ⟨overriding_of_listed hs.1 h.1 h.2, h.1⟩).bind_same fun overrides => ?_
  refine ((steady_lift steady_beginAtlas).keeping stable_listed).bind_same fun _ => ?_
  have hcollect := Lockstep.frame (@stable_listed past program)
    (lockstep_collectProgram program)
  refine (hcollect.of_pre fun _ _ _ h => ⟨h, h⟩).bind_same fun _ => ?_
  refine ((steady_lift steady_buildAtlas).keeping stable_listed).bind_same fun atlasChanged => ?_
  refine ((steady_lift (steady_onProject steady_expandHead)).keeping stable_listed).bind_same
    fun _ => ?_
  exact Lockstep.of_pure _ _ fun _ _ _ h => ⟨rfl, h⟩

end Past

end Bundler

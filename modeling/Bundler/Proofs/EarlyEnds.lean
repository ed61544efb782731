/-
How loading can end early.

Looking for a module takes no step that can fail, and a script is read whatever its text is
(`Script.read_ok`). So when a file is brought up to date there is one place left where this can end
early: the name of a resource that is cut behind the project directory, where the cut falls inside a
character (`Session.endsBy_loadFile`). How a step ends is said of the step as a whole, together with
what its answer is like, and the rules follow the way in which steps are written.
-/
import Bundler.Proofs.Frames
import Bundler.Proofs.Nodes

set_option autoImplicit false

namespace Bundler

/-! ## How a step ends -/

namespace Step

variable {σ τ α β : Type} {bad : Fault → Prop} {good : α → Prop} {next : β → Prop}

/-- A step ends with an answer of a certain kind, or early by one of certain faults. -/
structure Ends (bad : Fault → Prop) (good : α → Prop) (step : Step σ α) (s : σ) : Prop where
  answer : ∀ a t, step s = .ok a t → good a
  early : ∀ e t, step s = .error e t → ∃ f, e = .fault f ∧ bad f

/-- A step ends with some answer, or early by one of certain faults. -/
abbrev EndsBy (bad : Fault → Prop) (step : Step σ α) (s : σ) : Prop := Ends bad (fun _ => True) step s

theorem ends_pure {a : α} (ha : good a) (s : σ) : Ends bad good (pure a : Step σ α) s where
  answer b t h := ((pure_ok_iff _ _ _ _).mp h).1 ▸ ha
  early _ _ h := by cases h

theorem endsBy_get (s : σ) : EndsBy bad (get : Step σ σ) s := ⟨fun _ _ _ => trivial, fun _ _ h => by cases h⟩

theorem endsBy_modify (f : σ → σ) (s : σ) : EndsBy bad (modify f : Step σ PUnit) s :=
  ⟨fun _ _ _ => trivial, fun _ _ h => by cases h⟩

theorem endsBy_modifyGet (f : σ → α × σ) (s : σ) : EndsBy bad (modifyGet f : Step σ α) s :=
  ⟨fun _ _ _ => trivial, fun _ _ h => by cases h⟩

theorem endsBy_lift {x : Except Fault α} {s : σ} (h : ∀ f, x = .error f → bad f) :
    EndsBy bad (monadLift x : Step σ α) s := by
  refine ⟨fun _ _ _ => trivial, fun e t hrun => ?_⟩
  cases x with
  | ok a => cases hrun
  | error f =>
    cases hrun
    exact ⟨f, rfl, h f rfl⟩

theorem Ends.bind {x : Step σ α} {f : α → Step σ β} {s : σ} (hx : Ends bad good x s)
    (hf : ∀ a t, x s = .ok a t → good a → Ends bad next (f a) t) : Ends bad next (x >>= f) s where
  answer b u h := by
    obtain ⟨a, t, ha, hb⟩ := (bind_ok_iff _ _ _ _ _).mp h
    exact (hf a t ha (hx.answer a t ha)).answer b u hb
  early e u h := by
    cases hxs : x s with
    | ok a t =>
      rw [bind_of_ok hxs] at h
      exact (hf a t hxs (hx.answer a t hxs)).early e u h
    | error e' t =>
      rw [bind_of_error hxs] at h
      cases h
      exact hx.early _ _ hxs

theorem Ends.on {part : τ → σ} {put : τ → σ → τ} {step : Step σ α} {t : τ}
    (h : Ends bad good step (part t)) : Ends bad good (step.on part put) t where
  answer a u hrun := by
    obtain ⟨s, hs, -⟩ := (on_ok_iff _ _ _ _ _ _).mp hrun
    exact h.answer a s hs
  early e u hrun := by
    unfold Step.on at hrun
    cases hp : step (part t) with
    | ok a s =>
      rw [hp] at hrun
      cases hrun
    | error e' s =>
      rw [hp] at hrun
      cases hrun
      exact h.early _ _ hp

end Step

open Workspace Step

variable {bad : Fault → Prop}

/-! ## Looking for modules -/

theorem endsBy_entry (id : Nat) (w : Workspace) : EndsBy bad (entry id) w :=
  (endsBy_get w).bind fun _ t _ _ => ends_pure trivial t

theorem endsBy_exists? (name : String) (w : Workspace) : EndsBy bad (exists? name) w :=
  Ends.bind (endsBy_modifyGet _ w) fun _ t _ _ => (endsBy_entry _ t).bind fun _ t _ _ =>
    ends_pure trivial t

theorem endsBy_say (line : String) (w : Workspace) : EndsBy bad (say line) w := endsBy_modify _ w

/-- A name in which an import can be found. -/
def Path.IsModuleName (file : String) : Prop := IsSourceName file ∨ IsScriptName file

namespace ModuleSearch

/-- What is found, if anything, has a name of the known kinds. -/
def Named (found : Option FoundModule) : Prop := ∀ m ∈ found, Path.IsModuleName m.file

theorem named_none : Named none := fun _ h => by cases h

theorem named_some {m : FoundModule} (h : Path.IsModuleName m.file) : Named (some m) := by
  intro m' hm'
  cases hm'
  exact h

theorem ends_recordTakenOver (key base definition js : String) (relative : Bool) (w : Workspace) :
    Ends bad (fun m => m.file = definition) (recordTakenOver key base definition js relative) w :=
  Ends.bind (endsBy_modify _ w) fun _ t _ _ =>
    Ends.bind (endsBy_modify _ t) fun _ t _ _ => ends_pure (by rfl) t

theorem ends_findSource (key base js : String) (relative : Bool) (exts : List String) :
    ∀ w, Ends bad (fun found => ∀ m ∈ found, ∃ ext ∈ exts, m.file = base ++ ext)
      (findSource key base js relative exts) w := by
  induction exts with
  | nil => exact ends_pure fun _ h => by cases h
  | cons ext exts ih =>
    refine fun w => (endsBy_exists? _ w).bind fun found t _ _ => ?_
    split
    · refine Ends.bind (endsBy_modify _ t) fun _ t _ _ => ends_pure (fun m hm => ?_) t
      cases hm
      exact ⟨ext, List.mem_cons_self, rfl⟩
    · exact ⟨fun found t h m hm => ((ih _).answer found t h m hm).imp fun _ h =>
        ⟨List.mem_cons_of_mem _ h.1, h.2⟩, (ih _).early⟩

theorem ends_findAt (key base : String) (relative : Bool) (w : Workspace) :
    Ends bad Named (findAt key base relative) w := by
  have htaken : ∀ definition js t, Path.IsModuleName definition → Ends bad Named (do
      return some (← recordTakenOver key base definition js relative)) t :=
    fun definition js t hname => (ends_recordTakenOver _ _ _ _ _ t).bind fun m t _ hm =>
      ends_pure (named_some (hm ▸ hname)) t
  have hjs : ∀ t, Ends bad Named (do
      if ← exists? (base ++ ".js") then
        return some (← recordTakenOver key base (base ++ ".js") (base ++ ".js") relative)
      return none) t := by
    refine fun t => (endsBy_exists? _ t).bind fun found t _ _ => ?_
    split
    · exact htaken _ _ t (.inr ⟨base, rfl⟩)
    · exact ends_pure named_none t
  unfold findAt
  refine (ends_findSource _ _ _ _ _ w).bind fun found t _ hfound => ?_
  split
  · refine ends_pure (named_some ?_) t
    obtain ⟨ext, hext, hname⟩ := hfound _ rfl
    rcases List.mem_cons.mp hext with rfl | hext
    · exact .inl ⟨base, .inl hname⟩
    · obtain rfl := List.mem_singleton.mp hext
      exact .inl ⟨base, .inr (.inl hname)⟩
  · refine (endsBy_exists? _ t).bind fun declared t _ _ => ?_
    split
    · refine (endsBy_exists? _ t).bind fun there t _ _ => ?_
      split
      · exact htaken _ _ t (.inl ⟨base, .inr (.inr rfl)⟩)
      · exact hjs t
    · exact hjs t

theorem ends_findIn (specifier : String) (dirs : List String) :
    ∀ w, Ends bad Named (findIn specifier dirs) w := by
  induction dirs with
  | nil => exact ends_pure named_none
  | cons dir dirs ih =>
    refine fun w => (ends_findAt _ _ _ w).bind fun found t _ hfound => ?_
    split
    · exact ends_pure hfound t
    · exact ih t

theorem ends_orSay (specifier file : String) {found : Option FoundModule} (h : Named found)
    (w : Workspace) : Ends bad Named (orSay specifier file found) w := by
  unfold orSay
  split
  · exact (endsBy_say _ w).bind fun _ t _ _ => ends_pure h t
  · exact ends_pure h w

theorem ends_findRelative (specifier file : String) (w : Workspace) :
    Ends bad Named (findRelative specifier file) w := by
  have hat : ∀ base t, Ends bad Named (do orSay specifier file (← findAt base base true)) t :=
    fun base t => (ends_findAt _ _ _ t).bind fun _ t _ h => ends_orSay _ _ h t
  unfold findRelative
  split
  · exact (endsBy_say _ w).bind fun _ t _ _ => hat _ t
  · exact hat _ w

theorem ends_findPackage (specifier file : String) (w : Workspace) :
    Ends bad Named (findPackage specifier file) w := by
  unfold findPackage
  refine Ends.bind (endsBy_modifyGet _ w) fun id t _ _ => (endsBy_entry id t).bind fun e t _ _ => ?_
  split
  · exact ends_pure named_none t
  · split
    · exact (endsBy_say _ t).bind fun _ t _ _ => ends_pure named_none t
    · exact (ends_findAt _ _ _ t).bind fun _ t _ h => ends_orSay _ _ h t

/-- Looking for a module does not end early, and it finds one under a name of the known kinds. -/
theorem ends_find (specifier file : String) (w : Workspace) :
    Ends bad Named (find specifier file) w := by
  unfold find
  split
  · exact ends_findRelative _ _ w
  · refine (ends_findIn _ _ w).bind fun found t _ hfound => ?_
    split
    · exact ends_pure hfound t
    · exact ends_findPackage _ _ t

end ModuleSearch

/-! ## References -/

namespace References

variable {resolve : String → Except Fault String}

theorem resource?_error {args : List Expr} {f : Fault} (h : resource? resolve args = .error f) :
    ∃ text, resolve text = .error f := by
  unfold resource? at h
  split at h
  · rename_i text _
    cases hr : resolve text with
    | ok name =>
      rw [hr] at h
      cases h
    | error f' =>
      rw [hr] at h
      cases h
      exact ⟨text, hr⟩
  · cases h

theorem useOf?_error {c : Call} {f : Fault} (h : useOf? resolve c = .error f) :
    ∃ text, resolve text = .error f := by
  -- the calls of two methods name a resource, and nothing else about a call can fail
  have hresource : ∀ {use : Option String → Use},
      (do return some (use (← resource? resolve c.args)) : Except Fault (Option Use)) = .error f →
      ∃ text, resolve text = .error f := by
    intro use huse
    cases hr : resource? resolve c.args with
    | ok name =>
      rw [hr] at huse
      cases huse
    | error f' =>
      rw [hr] at huse
      cases huse
      exact resource?_error hr
  unfold useOf? at h
  split at h
  · split at h
    · cases h
    · split at h
      · exact hresource h
      · split at h
        · exact hresource h
        · split at h
          · cases h
          · split at h <;> cases h
  · split at h
    · cases h
    · split at h <;> cases h

theorem sitesFrom_error {f : Fault} :
    ∀ {cs : List Call} {id : Nat}, sitesFrom resolve id cs = .error f →
      ∃ text, resolve text = .error f
  | [], _, h => by cases h
  | c :: cs, id, h => by
    unfold sitesFrom at h
    cases huse : useOf? resolve c with
    | error f' =>
      rw [huse] at h
      cases h
      exact useOf?_error huse
    | ok use =>
      cases hrest : sitesFrom resolve (id + 1) cs with
      | error f' =>
        rw [huse, hrest] at h
        cases h
        exact sitesFrom_error hrest
      | ok rest =>
        rw [huse, hrest] at h
        cases use with
        | none => cases h
        | some use => cases h

/-- Gathering references fails only at the name of a resource. -/
theorem gather_error {s : Script} {deps : List (String × String)} {f : Fault}
    (h : gather s deps resolve = .error f) : ∃ text, resolve text = .error f := by
  unfold gather at h
  cases hsites : sitesFrom resolve 0 s.calls with
  | ok sites =>
    rw [hsites] at h
    cases h
  | error f' =>
    rw [hsites] at h
    cases h
    exact sitesFrom_error hsites

end References

/-! ## Files -/

/-- The faults of resource names: a name begins with the project directory, and the cut behind it falls
inside a character. -/
def Project.Unnamable (p : Project) (f : Fault) : Prop :=
  ∃ file text, p.resourceName file text = .error f

theorem Project.Unnamable.congr {p q : Project} {f : Fault} (hconfig : q.config = p.config)
    (hdir : q.dir = p.dir) (h : q.Unnamable f) : p.Unnamable f := by
  obtain ⟨file, text, h⟩ := h
  refine ⟨file, text, ?_⟩
  rw [← h]
  unfold resourceName resourceDir relativize absolute directory
  rw [hconfig, hdir]

namespace Session

/-- Looking for the imports of a file does not end early, and what is found has a name of the known
kinds. -/
theorem ends_findImports (file : String) (specifiers : List String) :
    ∀ w, Ends bad (fun deps => ∀ d ∈ deps, Path.IsModuleName d.2) (findImports file specifiers) w := by
  induction specifiers with
  | nil => exact ends_pure fun _ h => absurd h List.not_mem_nil
  | cons specifier rest ih =>
    refine fun w => (ModuleSearch.ends_find _ _ w).bind fun found t _ hfound =>
      (ih t).bind fun others t _ hothers => ?_
    split
    · refine ends_pure (fun d hd => ?_) t
      rcases List.mem_cons.mp hd with rfl | hd
      · exact hfound _ rfl
      · exact hothers d hd
    · exact ends_pure hothers t

theorem endsBy_refreshScript (file : String) (id : Nat) (w : Workspace) :
    EndsBy bad (refreshScript file id) w := by
  unfold refreshScript
  refine (endsBy_entry id w).bind fun e t _ _ => ?_
  split
  · refine Ends.bind (endsBy_lift fun f hf => ?_) fun _ t _ _ => endsBy_modify _ t
    obtain ⟨script, ds, hread, -⟩ := Script.read_ok file (e.text.getD "")
    rw [hread] at hf
    cases hf
  · exact ends_pure trivial t

/-- The settings that names of resources depend on stay as they are. -/
theorem endsBy_refreshReferences (file : String) (id : Nat) (w : Workspace)
    (hbad : ∀ p : Project, p.config = w.project.config → p.dir = w.project.dir →
      ∀ f, p.Unnamable f → bad f) :
    EndsBy bad (refreshReferences file id) w := by
  unfold refreshReferences
  refine (endsBy_entry id w).bind fun e t he _ => ?_
  obtain ⟨rfl, rfl⟩ := (entry_ok_iff _ _ _ _).mp he
  split
  · refine (ends_findImports _ _ w).bind fun deps t hdeps _ => (endsBy_get t).bind fun v t' hget _ => ?_
    obtain ⟨rfl, rfl⟩ := (get_ok_iff _ _ _).mp hget
    refine (endsBy_entry id t).bind fun e t' he _ => ?_
    obtain ⟨rfl, rfl⟩ := (entry_ok_iff _ _ _ _).mp he
    split
    · exact ends_pure trivial t
    · refine Ends.bind (endsBy_lift fun f hf => ?_) fun _ t _ _ => endsBy_modify _ t
      obtain ⟨text, htext⟩ := References.gather_error hf
      have hmoves := (obeys_findImports Frame.looking_reading file _).ok hdeps
      exact hbad t.project hmoves.1 hmoves.2.1 f ⟨file, text, htext⟩
  · exact ends_pure trivial w

theorem endsBy_liftWorkspace {α : Type} {step : Step Workspace α} {s : Session}
    (h : EndsBy bad step s.toWorkspace) : EndsBy bad (liftM step : Step Session α) s := Ends.on h

/-- Bringing a file up to date ends early only at the name of a resource. -/
theorem endsBy_loadFile (file : String) (s : Session) :
    EndsBy s.project.Unnamable (loadFile file) s := by
  unfold loadFile
  refine (endsBy_liftWorkspace (endsBy_modifyGet _ _)).bind fun id t hcontent _ => ?_
  obtain ⟨w, hw, rfl⟩ := (liftWorkspace_ok_iff _ _ _ _).mp hcontent
  obtain ⟨hid, rfl⟩ := (onCache_ok_iff (fun disk dir c => c.content disk dir file) _ _ _).mp hw
  have hfind := Cache.find?_content s.disk s.project.dir file s.cache
  rw [hid] at hfind
  refine (endsBy_liftWorkspace (endsBy_entry id _)).bind fun e t he _ => ?_
  obtain ⟨w, hw, rfl⟩ := (liftWorkspace_ok_iff _ _ _ _).mp he
  obtain ⟨rfl, rfl⟩ := (entry_ok_iff _ _ _ _).mp hw
  split
  · exact Ends.bind (endsBy_modify _ _) fun _ t _ _ => ends_pure trivial t
  · rename_i htext
    refine (endsBy_liftWorkspace (endsBy_refreshScript file id _)).bind fun u t hscript _ => ?_
    obtain ⟨w, hw, rfl⟩ := (liftWorkspace_ok_iff _ _ _ _).mp hscript
    obtain ⟨-, hproject, -⟩ :=
      refreshScript_ok (Cache.find?_some hfind).1 (by simpa using htext) hw
    refine (endsBy_liftWorkspace (endsBy_refreshReferences file id w fun p hconfig hdir f hf =>
      hf.congr ?_ ?_)).bind fun u t _ _ => (endsBy_liftWorkspace (endsBy_entry id _)).bind
        fun _ t _ _ => ends_pure trivial t
    · rw [hconfig, hproject]
    · rw [hdir, hproject]

end Session

end Bundler

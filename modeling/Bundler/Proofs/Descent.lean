/-
What entry files lead to.

Loading comes to a file down the imports from an entry file, and it records the imports of a file
before it goes on to them. So each file that it lists is led to, by what is recorded when it is over:
it is an entry file, or a file that is led to imports it (`Workspace.LeadsTo`). A cached file that no
entry file leads to any more is never listed, whatever is recorded of it.

What is recorded of a file as it is stays so while others are loaded (`Entry.Loads.imports`), so what
is led to at one time is led to at all later ones.
-/
import Bundler.Proofs.Freshness
import Bundler.Proofs.Loading

set_option autoImplicit false

namespace Bundler

open Workspace Step

/-! ## Records of files as they are -/

namespace Entry

variable {N : String → Prop} {s : Surroundings} {disk : Disk} {e e' : Entry} {name : String}
  {refs : References}

theorem imports_of_record {t : Nat} (hmod : disk.modified? e.fullName = some t)
    (hinfo : e.infoTime = .at t) (hrefs : e.references = some refs) :
    e.imports disk = refs.files := by
  unfold imports
  rw [hmod]
  simp only
  rw [if_pos hinfo, hrefs]
  rfl

/-- Imports stay as they are while files are loaded. -/
theorem Loads.imports (h : Loads N s e e') (hseen : e.Seen s.disk)
    (hname : name ∈ e.imports s.disk) : e'.imports s.disk = e.imports s.disk := by
  obtain ⟨t, refs, hmod, hinfo, hrefs, -⟩ := mem_imports_iff.mp hname
  obtain ⟨hinfo', hrefs'⟩ := h.info hseen t hmod hinfo (by rw [hrefs]; rfl)
  rw [imports_of_record hmod hinfo hrefs,
    imports_of_record (by rw [h.fullName]; exact hmod) (hinfo'.trans hinfo) (hrefs'.trans hrefs)]

/-- A loaded file imports what its references name. -/
theorem Loaded.imports (h : e.Loaded) (hseen : e.Seen disk) (hrefs : e.references = some refs) :
    e.imports disk = refs.files := by
  obtain ⟨hfound, htime, -⟩ := isInfoCurrent_iff.mp h.info
  obtain ⟨t, hcur, hmod⟩ := hseen.at_of_found hfound
  exact imports_of_record hmod (htime.trans hcur) hrefs

end Entry

/-! ## What is led to -/

/-- Entry files lead to a name: it is that of an entry file, or it is imported by a file that they
lead to. -/
inductive Workspace.LeadsTo (mains : List String) (w : Workspace) : String → Prop where
  | main {name : String} (h : name ∈ mains) : LeadsTo mains w name
  | down {file name : String} {i : Nat} (h : LeadsTo mains w file)
      (hfind : w.cache.find? w.project.dir file = some i)
      (hname : name ∈ (w.cache.entry i).imports w.disk) : LeadsTo mains w name

namespace Workspace

variable {N : String → Prop} {mains : List String} {w w' : Workspace} {file name : String}
  {deps : List String}

theorem LeadsTo.of_loaded (h : w.LeadsTo mains file) (hl : w.HasLoaded file deps)
    (hseen : w.cache.Seen w.disk) (hname : name ∈ deps) : w.LeadsTo mains name := by
  obtain ⟨i, refs, hfind, hloaded, hrefs, rfl⟩ := hl
  refine .down h hfind ?_
  rw [hloaded.imports (hseen i (Cache.find?_some hfind).1) hrefs]
  exact hname

/-- What is led to is led to when more was loaded. -/
theorem LeadsTo.of_advances (h : w.LeadsTo mains name) (hsame : w'.surroundings = w.surroundings)
    (hcache : Cache.Advances w.project.dir (Entry.Loads N w.surroundings) w.cache w'.cache)
    (hseen : w.cache.Seen w.disk) : w'.LeadsTo mains name := by
  have hdir : w'.project.dir = w.project.dir := congrArg Surroundings.dir hsame
  have hdisk : w'.disk = w.disk := congrArg Surroundings.disk hsame
  induction h with
  | main hmain => exact .main hmain
  | @down file name i _ hfind hname ih =>
    have hi := (Cache.find?_some hfind).1
    refine .down ih (by rw [hdir]; exact hcache.find? hfind) ?_
    have hkept : (w'.cache.entry i).imports w.disk = (w.cache.entry i).imports w.disk :=
      (hcache.old i hi).imports (hseen i hi) hname
    rw [hdisk, hkept]
    exact hname

end Workspace

/-! ## Loading -/

namespace Session

variable {mains : List String} {s s' : Session} {l l' : Loaded} {file : String}

/-- A session in the course of loading, in which what is listed is led to. -/
structure Leading (mains : List String) (s : Session) (l : Loaded) : Prop where
  destination : s.destination = none
  recorded : s.toWorkspace.Recorded
  seen : s.cache.Seen s.disk
  listed : ∀ f ∈ l.program, s.toWorkspace.LeadsTo mains f

theorem Advanced.leadsTo (hs : Advanced mains s s') (hseen : s.cache.Seen s.disk)
    (h : s.toWorkspace.LeadsTo mains file) : s'.toWorkspace.LeadsTo mains file :=
  h.of_advances hs.moves.surroundings
    (hs.moves.cache.mono fun _ _ hchain => Entry.loads_of_chain hchain) hseen

theorem Leading.mono (h : Leading mains s l) (hs : Advanced mains s s') : Leading mains s' l where
  destination := hs.moves.destination
  recorded := hs.recorded h.recorded
  seen := hs.moves.seen_of_loads h.seen
  listed f hf := hs.leadsTo h.seen (h.listed f hf)

/-- The imports of a loaded file one after the other, given that the visit of each is as it should
be. -/
private theorem leading_imports {depth : Nat} {deps : List String}
    (hvisit : ∀ (l : Loaded) (dep : String) (s s' : Session) (l' : Loaded), Leading mains s l →
      Loadable mains dep → s.toWorkspace.LeadsTo mains dep → visit depth l dep s = .ok l' s' →
      Advanced mains s s' ∧ Leading mains s' l') :
    ∀ (ds : List String) (l : Loaded) (s s' : Session) (l' : Loaded), (∀ dep ∈ ds, dep ∈ deps) →
      Leading mains s l → s.toWorkspace.LeadsTo mains file → s.toWorkspace.HasLoaded file deps →
      (ds.foldlM (fun l dep => do
        if ← Path.isJs dep then return l else visit depth l dep) l : Step Session Loaded) s
        = .ok l' s' →
      Advanced mains s s' ∧ Leading mains s' l' := by
  intro ds
  induction ds with
  | nil =>
    intro l s s' l' _ h _ _ hrun
    obtain ⟨rfl, rfl⟩ := (pure_ok_iff _ _ _ _).mp hrun
    exact ⟨Advanced.of_messages rfl h.destination, h⟩
  | cons dep ds ih =>
    intro l s s' l' hds h hfile hl hrun
    have hdep : dep ∈ deps := hds dep List.mem_cons_self
    have hds' : ∀ d ∈ ds, d ∈ deps := fun d hd => hds d (List.mem_cons_of_mem _ hd)
    obtain ⟨l₁, s₁, ⟨-, rfl, rfl⟩ | ⟨hsaid, hone⟩, hrest⟩ := visit_import_cases hrun
    · exact ih l₁ s₁ s' l' hds' h hfile hl hrest
    · have hloadable : Loadable mains dep := by
        obtain ⟨i, refs, -, -, hrefs, rfl⟩ := id hl
        exact loadable_of_import ⟨h.destination, h.recorded⟩ hrefs hdep hsaid
      obtain ⟨hadvanced, h₁⟩ :=
        hvisit l dep s s₁ l₁ h hloadable (hfile.of_loaded hl h.seen hdep) hone
      obtain ⟨himports, h'⟩ := ih l₁ s₁ s' l' hds' h₁ (hadvanced.leadsTo h.seen hfile)
        (hl.mono hadvanced.moves h.seen) hrest
      exact ⟨hadvanced.trans himports, h'⟩

/-- The visit of a file that is led to lists files that are led to. The induction is on the number of
steps left. -/
theorem visit_leads : ∀ (depth : Nat) (l : Loaded) (file : String) (s s' : Session) (l' : Loaded),
    Leading mains s l → Loadable mains file → s.toWorkspace.LeadsTo mains file →
    visit depth l file s = .ok l' s' → Advanced mains s s' ∧ Leading mains s' l' := by
  intro depth
  induction depth with
  | zero =>
    intro l file s s' l' h _ _ hrun
    obtain ⟨rfl, rfl⟩ := (pure_ok_iff _ _ _ _).mp hrun
    exact ⟨Advanced.of_messages rfl h.destination, h⟩
  | succ depth ih =>
    intro l file s s' l' h hfile hled hrun
    rcases visit_cases hrun with ⟨-, rfl, rfl⟩ | ⟨-, answer, s₂, hload, hrest⟩
    · exact ⟨Advanced.of_messages rfl h.destination, h⟩
    · have hfirst : Advanced mains s { s with messages := s.messages.clearFile file } :=
        Advanced.of_messages rfl h.destination
      obtain ⟨hloading, hanswer⟩ := loadFile_ok (h.mono hfirst).destination hfile hload
      have hadvanced := hfirst.trans hloading
      have h₂ : Leading mains s₂ { l with met := Text.lower file :: l.met } := by
        have hmono := h.mono hadvanced
        exact ⟨hmono.destination, hmono.recorded, hmono.seen, hmono.listed⟩
      rcases hrest with ⟨-, rfl, rfl⟩ | ⟨deps, l₃, rfl, hfold, rfl⟩
      · exact ⟨hadvanced, h₂⟩
      · obtain ⟨hnone, -⟩ | ⟨_, hsome, -, hl⟩ := hanswer
        · exact absurd hnone (by simp)
        obtain rfl := Option.some.inj hsome
        have hled₂ := hadvanced.leadsTo h.seen hled
        obtain ⟨himports, h₃⟩ :=
          leading_imports ih deps _ s₂ s' l₃ (fun _ hd => hd) h₂ hled₂ hl hfold
        -- the file itself comes last, behind its imports
        refine ⟨hadvanced.trans himports, h₃.destination, h₃.recorded, h₃.seen, fun f hf => ?_⟩
        rcases List.mem_append.mp hf with hf | hf
        · exact h₃.listed f hf
        · rw [List.mem_singleton.mp hf]
          exact himports.leadsTo h₂.seen hled₂

/-- Every file of a program that was loaded is led to. -/
theorem loadProgram_leads {program : List String} (hs : Ready s.toWorkspace)
    (h : loadProgram mains s = .ok program s') :
    ∀ file ∈ program, s'.toWorkspace.LeadsTo mains file := by
  unfold loadProgram at h
  obtain ⟨t, s₁, hget, h⟩ := (bind_ok_iff _ _ _ _ _).mp h
  obtain ⟨rfl, rfl⟩ := (get_ok_iff _ _ _).mp hget
  obtain ⟨l, s₁, hfold, h⟩ := (bind_ok_iff _ _ _ _ _).mp h
  obtain ⟨u, s₂, hretain, h⟩ := (bind_ok_iff _ _ _ _ _).mp h
  obtain ⟨rfl, rfl⟩ := (pure_ok_iff _ _ _ _).mp h
  obtain rfl := (modify_ok_iff _ _ _ _).mp hretain
  have hall : ∀ (ms : List String) (l l' : Loaded) (t t' : Session), (∀ m ∈ ms, m ∈ mains) →
      Leading mains t l → ms.foldlM (visit (fileBound mains s.toWorkspace)) l t = .ok l' t' →
      Leading mains t' l' := by
    intro ms
    induction ms with
    | nil =>
      intro l l' t t' _ hl hrun
      obtain ⟨rfl, rfl⟩ := (pure_ok_iff _ _ _ _).mp hrun
      exact hl
    | cons m ms ih =>
      intro l l' t t' hms hl hrun
      rw [List.foldlM_cons] at hrun
      obtain ⟨l₁, t₁, hone, hrun⟩ := (bind_ok_iff _ _ _ _ _).mp hrun
      have hmain := hms m List.mem_cons_self
      obtain ⟨-, hl₁⟩ := visit_leads _ l m t t₁ l₁ hl (.inl hmain) (.main hmain) hone
      exact ih l₁ l' t₁ t' (fun x hx => hms x (List.mem_cons_of_mem _ hx)) hl₁ hrun
  have hl := hall mains ⟨[], []⟩ l s s₁ (fun _ hm => hm)
    ⟨hs.destination, hs.recorded, hs.seen, by simp⟩ hfold
  exact hl.listed

end Session

end Bundler

/-
What is copied is current.

The steps of a pass over the scripts and the assets either have nothing to do with a delivery or are those
of it, so what these keep is kept by the pass (`Delivery.Keeps.copyDependencyJs`,
`Delivery.Keeps.processAssets`), and by every sequence of passes, changes of the disk and clearings of the
probes (`Delivery.Copying`). After a pass over files that are looked at anew the last content written of a
delivery is that of its file (`Delivery.Copying.current`), and a file whose time is that of its stamp is not
written again (`Delivery.Copying.unwritten`).

A style sheet has to be known before the assets are processed. One that is found while another is written is
lost: it is not among the sheets that are written in that pass, and it is stamped with the assets.
-/
import Bundler.Proofs.Copies

set_option autoImplicit false

namespace Bundler

open Workspace Step Assembly

namespace Delivery

variable {d : Delivery} {w w' : Workspace} {load : Entry → Option Bytes} {output? : Option String}

/-! ### Passes -/

/-- What the steps that deal with a delivery keep, and what has nothing to do with it. -/
structure Keeps (d : Delivery) (I : Workspace → Prop) : Prop where
  tracked : ∀ {w}, I w → w.Tracked
  aside : ∀ {w w'}, I w → d.Aside w w' → I w'
  treated : ∀ {w w'}, I w → Treated d.role.load d.name (some d.output) w w' → I w'
  sheet : ∀ {w w' s}, I w → s.Met w → s.name = d.name → SheetTreated s w w' → I w'
  stamped : ∀ {w w'}, I w → d.Ready w → Treated Entry.buffer? d.name none w w' → I w'

theorem keeps_sound (d : Delivery) : d.Keeps d.Sound where
  tracked h := h.toTracked
  aside := Sound.of_aside
  treated := Sound.of_treated
  sheet := Sound.of_sheetTreated
  stamped := Sound.of_stamped

private theorem tracked_of_treated (hw : w.Tracked) (h : Treated load d.name output? w w') : w'.Tracked := by
  cases h with
  | passed hreads => exact hw.of_reads hreads
  | taken hreads hfind => exact ((hw.of_reads hreads).copied _ _ hfind).1

/-- What is done stays done. -/
theorem keeps_done (d : Delivery) : d.Keeps fun w => w.Tracked ∧ d.Done w where
  tracked := And.left
  aside h hm := ⟨h.1.of_aside hm, h.2.of_aside hm⟩
  treated h ht := ⟨tracked_of_treated h.1 ht, done_of_treated h.1 ht⟩
  sheet h _ _ ht := by
    cases ht with
    | passed hreads => exact ⟨h.1.of_reads hreads, h.2.of_aside (Frame.aside_of_reads hreads)⟩
    | written hreads =>
      have hv := h.1.of_reads hreads
      have hdone := h.2.of_aside (Frame.aside_of_reads hreads)
      refine ⟨hv.written _ _, ?_⟩
      rw [Workspace.written_of_tracked hv]
      exact hdone
  stamped h _ ht := ⟨tracked_of_treated h.1 ht, done_of_treated h.1 ht⟩

/-- The time of the file is that of its stamp, and so much was written of it. -/
structure Idle (d : Delivery) (past : List Bytes) (w : Workspace) : Prop extends w.Tracked where
  fresh : ∃ i t, w.cache.find? w.project.dir d.name = some i ∧ (w.cache.entry i).outputTime = .at t ∧
    w.disk.modified? (w.cache.entry i).fullName = some t
  past : w.project.output.contents d.output = past

variable {past : List Bytes} {I : Workspace → Prop}

/-- What is idle is not newer than its copy. -/
theorem Idle.not_needsCopy {i : Nat} (h : d.Idle past w)
    (hi : w.cache.find? w.project.dir d.name = some i) : (w.cache.entry i).needsCopy ≠ true := by
  intro hneed
  obtain ⟨j, t, hj, hstamp, hmod⟩ := h.fresh
  obtain rfl := Option.some.inj (hi.symm.trans hj)
  exact (h.entries i (Cache.find?_some hi).1).stamp_ne hneed hmod hstamp

theorem Idle.of_aside (h : d.Idle past w) (hm : d.Aside w w') : d.Idle past w' := by
  obtain ⟨i, t, hi, hstamp, hmod⟩ := h.fresh
  obtain ⟨hlt, hkey⟩ := Cache.find?_some hi
  have hread := Entry.read_of_readings ((hm.cache.old i hlt).2 hkey)
  refine ⟨h.toTracked.of_aside hm, ⟨i, t, hm.find? hi, hread.outputTime.trans hstamp, ?_⟩,
    hm.project.2.trans h.past⟩
  rw [hread.fullName, hm.disk]
  exact hmod

private theorem Idle.of_treated (h : d.Idle past w) (ht : Treated load d.name output? w w') :
    d.Idle past w' := by
  cases ht with
  | passed hreads => exact h.of_aside (Frame.aside_of_reads hreads)
  | taken hreads hfind hneed =>
    exact absurd hneed ((h.of_aside (Frame.aside_of_reads hreads)).not_needsCopy hfind)

theorem keeps_idle (d : Delivery) (past : List Bytes) : d.Keeps (d.Idle past) where
  tracked h := h.toTracked
  aside := Idle.of_aside
  treated := Idle.of_treated
  sheet h hmet hname ht := by
    cases ht with
    | passed hreads => exact h.of_aside (Frame.aside_of_reads hreads)
    | written hreads hstale _ =>
      exact absurd (hmet.stale.symm.trans hstale) (h.not_needsCopy (hname ▸ hmet.find))
  stamped h _ := h.of_treated

/-- A file that has neither the entry of a delivery nor goes where it goes. -/
def Apart (d : Delivery) (dir : String) (e : String × String) : Prop :=
  Cache.keyOf dir e.1 ≠ Cache.keyOf dir d.name ∧ e.2 ≠ d.output

/-- Among the scripts that are taken over there is nothing else for the entry and the output of a delivery. -/
def AloneInScripts (d : Delivery) (dir : String) (scripts : OrderedMap String String) : Prop :=
  ∀ e ∈ scripts.toList, (d.role = .script ∧ e = (d.name, d.output)) ∨ d.Apart dir e

/-- Nor among the assets. -/
def AloneInAssets (d : Delivery) (dir : String) (assets : OrderedMap String String) : Prop :=
  ∀ e ∈ assets.toList, (d.role ≠ .script ∧ e = (d.name, d.output)) ∨ d.Apart dir e

theorem not_apart {dir : String} {e : String × String} (he : e = (d.name, d.output)) : ¬ d.Apart dir e :=
  fun h => h.1 (by rw [he])

end Delivery

/-- What every step over a list keeps is kept, and what some of the steps come to and all keep is so in the
end. -/
theorem Step.forM_reaches {σ α : Type} {f : α → Step σ PUnit} {I Q : σ → Prop} {B : α → Prop} :
    ∀ {as : List α} {s t : σ} {u : PUnit},
      (∀ a ∈ as, ∀ s t u, I s → f a s = .ok u t → I t ∧ (Q s ∨ B a → Q t)) →
      I s → as.forM f s = .ok u t → I t ∧ (Q s ∨ (∃ a ∈ as, B a) → Q t)
  | [], s, t, u, _, hs, h => by
    obtain ⟨-, rfl⟩ := (pure_ok_iff _ _ _ _).mp h
    exact ⟨hs, fun hQ => hQ.elim id fun ⟨a, ha, _⟩ => absurd ha List.not_mem_nil⟩
  | a :: as, s, t, u, hstep, hs, h => by
    obtain ⟨_, s₁, hone, hrest⟩ := (bind_ok_iff _ _ _ _ _).mp h
    obtain ⟨hs₁, hQ₁⟩ := hstep a List.mem_cons_self _ _ _ hs hone
    obtain ⟨ht, hQ⟩ := forM_reaches (fun c hc => hstep c (List.mem_cons_of_mem _ hc)) hs₁ hrest
    refine ⟨ht, fun hsome => hQ ?_⟩
    rcases hsome with hold | ⟨c, hc, hB⟩
    · exact .inl (hQ₁ (.inl hold))
    · rcases List.mem_cons.mp hc with rfl | hc
      · exact .inl (hQ₁ (.inr hB))
      · exact .inr ⟨c, hc, hB⟩

namespace Delivery

variable {d : Delivery} {w w' : Workspace} {I : Workspace → Prop} {u : Unit}

/-- One script that is taken over. -/
private theorem Keeps.copyScript {e : String × String} (hI : d.Keeps I) (hw : I w)
    (halone : (d.role = .script ∧ e = (d.name, d.output)) ∨ d.Apart w.project.dir e)
    (h : Assembly.copyScript false e w = .ok u w') :
    I w' ∧ w'.project.dir = w.project.dir ∧ (d.Done w ∨ e = (d.name, d.output) → d.Done w') := by
  have htreated := copyScript_treated (hI.tracked hw).destination h
  rcases halone with ⟨hrole, rfl⟩ | hapart
  · refine ⟨hI.treated hw ?_, htreated.dir, fun _ => done_of_treated (hI.tracked hw) htreated⟩
    rw [hrole]
    exact htreated
  · have haside : d.Aside w w' := aside_of_treated (hI.tracked hw) hapart.1
      (fun heq => hapart.2 (Option.some.inj heq)) htreated
    exact ⟨hI.aside hw haside, htreated.dir, fun hsome =>
      hsome.elim (fun hold => hold.of_aside haside) fun heq => absurd hapart (not_apart heq)⟩

/-- Taking scripts over keeps what the steps keep, and a script that is delivered is dealt with. -/
theorem Keeps.copyDependencyJs (hI : d.Keeps I) (hw : I w)
    (halone : d.AloneInScripts w.project.dir w.project.depJs)
    (h : Assembly.copyDependencyJs w = .ok u w') :
    I w' ∧ w'.project.dir = w.project.dir ∧
      ((d.name, d.output) ∈ w.project.depJs.toList → d.Done w') := by
  unfold Assembly.copyDependencyJs at h
  obtain ⟨_, w₁, henter, h⟩ := (bind_ok_iff _ _ _ _ _).mp h
  have hreads := Frame.moves_of_obeys (obeys_enter Frame.looking_reads _) (hI.tracked hw).destination henter
  have hw₁ := hI.aside hw (Frame.aside_of_reads hreads)
  obtain ⟨_, _, hget, h⟩ := (bind_ok_iff _ _ _ _ _).mp h
  obtain ⟨rfl, rfl⟩ := (get_ok_iff _ _ _).mp hget
  have hproject : w₁.project = w.project := by rw [← (modify_ok_iff _ _ _ _).mp henter]
  have hbundled : (w.project.config.bundle != .none) = false := by rw [(hI.tracked hw).bundle]; rfl
  simp only [hproject, hbundled] at h
  have hstep : ∀ e ∈ w.project.depJs.toList, ∀ v v' u, I v ∧ v.project.dir = w.project.dir →
      Assembly.copyScript false e v = .ok u v' → (I v' ∧ v'.project.dir = w.project.dir) ∧
        (d.Done v ∨ e = (d.name, d.output) → d.Done v') := by
    rintro e he v v' u ⟨hv, hdir⟩ hrun
    obtain ⟨hv', hdir', hdone⟩ := hI.copyScript hv (by rw [hdir]; exact halone e he) hrun
    exact ⟨⟨hv', hdir'.trans hdir⟩, hdone⟩
  obtain ⟨⟨hw', hdir⟩, hdone⟩ := forM_reaches hstep ⟨hw₁, by rw [hproject]⟩ h
  exact ⟨hw', hdir, fun hmem => hdone (.inr ⟨_, hmem, rfl⟩)⟩

/-- One style sheet that goes to its output. -/
private theorem Keeps.copySheet {s : Sheet} {output : String} (hI : d.Keeps I) (hw : I w) (hmet : s.Met w)
    (houtput : w.project.depAssets.get? s.name = some output)
    (halone : (d.role = .sheet ∧ (s.name, output) = (d.name, d.output)) ∨
      d.Apart w.project.dir (s.name, output)) (h : SheetTreated s w w') :
    I w' ∧ (d.Ready w ∨ s.name = d.name → d.Ready w') := by
  have hgoes : (w.project.depAssets.get? s.name).getD s.name = output := by
    rw [houtput]
    rfl
  rcases halone with ⟨hrole, heq⟩ | hapart
  · obtain ⟨hname, rfl⟩ := Prod.mk.inj heq
    exact ⟨hI.sheet hw hmet hname h, fun _ =>
      ready_of_sheetTreated (hI.tracked hw) hmet hname hrole hgoes h⟩
  · have haside : d.Aside w w' := aside_of_sheetTreated (hI.tracked hw) (by rw [hgoes]; exact hapart.2) h
    exact ⟨hI.aside hw haside, fun hsome => hsome.elim (fun hold => hold.of_aside haside)
      fun heq => absurd (congrArg (Cache.keyOf w.project.dir) heq) hapart.1⟩

/-- What stays so while style sheets are written. -/
private structure Writing (I : Workspace → Prop) (sheets : List Sheet) (w v : Workspace) : Prop where
  kept : I v
  dir : v.project.dir = w.project.dir
  assets : ∀ name output, w.project.depAssets.get? name = some output →
    v.project.depAssets.get? name = some output
  met : ∀ s ∈ sheets, s.Met v

/-- Writing style sheets keeps what the steps keep, and one that is delivered is ready to be stamped. -/
private theorem Keeps.copySheets {sheets : List Sheet} (hI : d.Keeps I) (hw : I w)
    (hmet : ∀ s ∈ sheets, s.Met w)
    (halone : ∀ s ∈ sheets, ∃ output, w.project.depAssets.get? s.name = some output ∧
      ((d.role = .sheet ∧ (s.name, output) = (d.name, d.output)) ∨
        d.Apart w.project.dir (s.name, output)))
    (h : sheets.forM Assembly.copySheet w = .ok u w') :
    Writing I sheets w w' ∧ (d.Ready w ∨ (∃ s ∈ sheets, s.name = d.name) → d.Ready w') := by
  have hstep : ∀ s ∈ sheets, ∀ v v' u, Writing I sheets w v → Assembly.copySheet s v = .ok u v' →
      Writing I sheets w v' ∧ (d.Ready v ∨ s.name = d.name → d.Ready v') := by
    rintro s hs v v' u ⟨hv, hdir, hassets, hmets⟩ hrun
    have htreated := copySheet_treated (hI.tracked hv).destination (hmets s hs) hrun
    obtain ⟨output, houtput, hown⟩ := halone s hs
    obtain ⟨hv', hready⟩ := hI.copySheet hv (hmets s hs) (hassets _ _ houtput) (by rwa [hdir]) htreated
    exact ⟨⟨hv', htreated.dir.trans hdir, fun name output houtput =>
      (copySheet_keepsOutput s name output).ok hrun (hassets name output houtput),
      fun s' hs' => (hmets s' hs').of_sheetTreated htreated⟩, hready⟩
  exact forM_reaches hstep ⟨hw, rfl, fun _ _ => id, hmet⟩ h

/-- One asset. A style sheet has to be ready. -/
private theorem Keeps.copyAsset {e : String × String} (hI : d.Keeps I) (hw : I w)
    (halone : (d.role ≠ .script ∧ e = (d.name, d.output)) ∨ d.Apart w.project.dir e)
    (hready : d.role = .sheet → e = (d.name, d.output) → d.Ready w)
    (h : Assembly.copyAsset e w = .ok u w') :
    I w' ∧ w'.project.dir = w.project.dir ∧ (d.Ready w → d.Ready w') ∧
      (d.Done w ∨ e = (d.name, d.output) → d.Done w') := by
  have htreated := copyAsset_treated (hI.tracked hw).destination h
  rcases halone with ⟨hrole, rfl⟩ | hapart
  · refine ⟨?_, htreated.dir, fun hready => ready_of_treated (hI.tracked hw) hready htreated,
      fun _ => done_of_treated (hI.tracked hw) htreated⟩
    cases hrole' : d.role with
    | script => exact absurd hrole' hrole
    | sheet =>
      rw [assetOutput?_of_isCss (d.isSheet hrole')] at htreated
      exact hI.stamped hw (hready hrole' rfl) htreated
    | plain =>
      rw [assetOutput?_of_plain (d.isPlain hrole').1 (d.isPlain hrole').2] at htreated
      refine hI.treated hw ?_
      rw [hrole', Role.load_plain]
      exact htreated
  · have haside : d.Aside w w' := aside_of_treated (hI.tracked hw) hapart.1
      (fun heq => hapart.2 (eq_of_assetOutput? heq)) htreated
    exact ⟨hI.aside hw haside, htreated.dir, fun hready => hready.of_aside haside, fun hsome =>
      hsome.elim (fun hold => hold.of_aside haside) fun heq => absurd hapart (not_apart heq)⟩

/-- Copying assets keeps what the steps keep, and one that is delivered is dealt with. -/
private theorem Keeps.copyAssets {assets : OrderedMap String String} (hI : d.Keeps I) (hw : I w)
    (halone : d.AloneInAssets w.project.dir assets)
    (hready : d.role = .sheet → (d.name, d.output) ∈ assets.toList → d.Ready w)
    (h : assets.toList.forM Assembly.copyAsset w = .ok u w') :
    I w' ∧ w'.project.dir = w.project.dir ∧ ((d.name, d.output) ∈ assets.toList → d.Done w') := by
  have hstep : ∀ e ∈ assets.toList, ∀ v v' u, (I v ∧ v.project.dir = w.project.dir ∧
      (d.role = .sheet → (d.name, d.output) ∈ assets.toList → d.Ready v)) →
      Assembly.copyAsset e v = .ok u v' → (I v' ∧ v'.project.dir = w.project.dir ∧
        (d.role = .sheet → (d.name, d.output) ∈ assets.toList → d.Ready v')) ∧
        (d.Done v ∨ e = (d.name, d.output) → d.Done v') := by
    rintro e he v v' u ⟨hv, hdir, hready⟩ hrun
    obtain ⟨hv', hdir', hready', hdone⟩ := hI.copyAsset hv (by rw [hdir]; exact halone e he)
      (fun hsheet heq => hready hsheet (heq ▸ he)) hrun
    exact ⟨⟨hv', hdir'.trans hdir, fun hsheet hmem => hready' (hready hsheet hmem)⟩, hdone⟩
  obtain ⟨⟨hw', hdir, -⟩, hdone⟩ := forM_reaches hstep ⟨hw, rfl, hready⟩ h
  exact ⟨hw', hdir, fun hmem => hdone (.inr ⟨_, hmem, rfl⟩)⟩

/-- Assets that are found keep their outputs while they are looked at and copied. -/
private theorem depAssets_of_adding {α : Type} {step : Step Workspace α} {a : α} {v v' : Workspace}
    (hadds : Obeys (Workspace.adding (fun _ => False) (fun _ => False) (fun _ => False) fun _ => False) step)
    (h : step v = .ok a v') : v'.project.depAssets = v.project.depAssets :=
  (hadds.ok h).same fun _ hnone => hnone

/-- A style sheet that was looked for and not written is not newer than its copy. -/
private theorem ready_of_unfound {i : Nat} (hfind : w.cache.find? w.project.dir d.name = some i)
    (hset : (w.cache.entry i).current.isSet = true) (hunfound : (w.cache.entry i).found ≠ true) : d.Ready w :=
  ⟨i, hfind, hset, fun hneed => absurd (Entry.found_of_needsCopy hneed) hunfound⟩

/-- Processing the assets keeps what the steps keep, and an asset that is delivered is dealt with: a style
sheet where it is known before they are processed. -/
theorem Keeps.processAssets (hI : d.Keeps I) (hw : I w)
    (halone : d.AloneInAssets w.project.dir w'.project.depAssets)
    (hsheet : d.role = .sheet → d.name ∈ w'.project.depAssets.keys → d.name ∈ w.project.depAssets.keys)
    (h : Assembly.processAssets w = .ok u w') :
    I w' ∧ w'.project.dir = w.project.dir ∧
      ((d.name, d.output) ∈ w'.project.depAssets.toList → d.Done w') := by
  unfold Assembly.processAssets at h
  obtain ⟨_, w₁, henter, h⟩ := (bind_ok_iff _ _ _ _ _).mp h
  have hreads₁ := Frame.moves_of_obeys (obeys_enter Frame.looking_reads _) (hI.tracked hw).destination henter
  have hproject : w₁.project = w.project := by rw [← (modify_ok_iff _ _ _ _).mp henter]
  obtain ⟨_, _, hget, h⟩ := (bind_ok_iff _ _ _ _ _).mp h
  obtain ⟨rfl, rfl⟩ := (get_ok_iff _ _ _).mp hget
  rw [hproject] at h
  obtain ⟨sheets, w₂, hfind, h⟩ := (bind_ok_iff _ _ _ _ _).mp h
  obtain ⟨hreads₂, hmet, hfound⟩ := findSheets_met hreads₁.destination hfind
  have hw₂ := hI.aside hw (Frame.aside_of_reads (hreads₁.trans hreads₂))
  have hassets₂ : w₂.project.depAssets = w.project.depAssets := by
    rw [depAssets_of_adding (adding_findSheets _) hfind, hproject]
  have hmerged : (w.project.config.bundle == .merged) = false := by rw [(hI.tracked hw).bundle]; rfl
  simp only [hmerged, Bool.false_eq_true, if_false] at h
  obtain ⟨_, w₃, hsheets, h⟩ := (bind_ok_iff _ _ _ _ _).mp h
  obtain ⟨_, _, hget, h⟩ := (bind_ok_iff _ _ _ _ _).mp h
  obtain ⟨rfl, rfl⟩ := (get_ok_iff _ _ _).mp hget
  have hassets₃ : w'.project.depAssets = w₃.project.depAssets :=
    depAssets_of_adding (obeys_forM (fun asset => adding_copyAsset asset) _) h
  -- the assets that there are in the end say what every style sheet is
  have hkept : ∀ name output, w₂.project.depAssets.get? name = some output →
      w'.project.depAssets.get? name = some output := by
    rw [hassets₃]
    exact fun name output => (obeys_forM (fun s => copySheet_keepsOutput s name output) sheets).ok hsheets
  have hown : ∀ s ∈ sheets, ∃ output, w₂.project.depAssets.get? s.name = some output ∧
      ((d.role = .sheet ∧ (s.name, output) = (d.name, d.output)) ∨
        d.Apart w₂.project.dir (s.name, output)) := by
    intro s hs
    obtain ⟨hmem, hcss, -⟩ := hmet s hs
    rw [← hassets₂] at hmem
    obtain ⟨output, houtput⟩ := OrderedMap.get?_of_mem_keys hmem
    refine ⟨output, houtput, ?_⟩
    rw [hreads₂.dir, hproject]
    refine (halone _ (OrderedMap.mem_of_get? (hkept _ _ houtput))).imp_left fun ⟨hrole, heq⟩ => ⟨?_, heq⟩
    cases hrole' : d.role with
    | script => exact absurd hrole' hrole
    | sheet => rfl
    | plain =>
      have hno := (d.isPlain hrole').1
      rw [← (Prod.mk.inj heq).1, hcss] at hno
      cases hno
  obtain ⟨hwritten, hready⟩ := hI.copySheets hw₂ (fun s hs => (hmet s hs).2.2) hown hsheets
  have hdir : w₃.project.dir = w.project.dir := by rw [hwritten.dir, hreads₂.dir, hproject]
  rw [hassets₃] at halone hsheet ⊢
  -- a style sheet that was looked for is written, or it is not there
  have hready₃ : d.role = .sheet → (d.name, d.output) ∈ w₃.project.depAssets.toList → d.Ready w₃ := by
    intro hrole hmem
    obtain ⟨i, hi, hset, hthere⟩ := hfound d.name (hsheet hrole (List.mem_map_of_mem hmem)) (d.isSheet hrole)
    by_cases hf : (w₂.cache.entry i).found = true
    · exact hready (.inr (hthere hf))
    · exact hready (.inl (ready_of_unfound hi hset hf))
  obtain ⟨hw', hdir', hdone⟩ := hI.copyAssets hwritten.kept (by rwa [hdir]) hready₃ h
  exact ⟨hw', hdir'.trans hdir, hdone⟩

/-! ### Sequences of passes -/

/-- What passes over the scripts and the assets lead to, with changes of the disk, of the project and of
anything that has nothing to do with the delivery in between. It says whether files are looked at anew since
the disk was changed last. -/
inductive Copying (d : Delivery) : Bool → Workspace → Prop where
  | start {disk : Disk} {project : Project} (hdated : disk.Dated) (hbundle : project.config.bundle = .none)
      (hfailing : project.output.failing = []) : Copying d true (Workspace.start disk project)
  | change {b : Bool} {w : Workspace} {disk : Disk} (h : Copying d b w) (hd : w.disk.Changes disk) :
      Copying d false { w with disk }
  | clear {b : Bool} {w : Workspace} (h : Copying d b w) :
      Copying d true { w with cache := w.cache.clearProbes }
  | note {b : Bool} {w : Workspace} {project : Project} (h : Copying d b w)
      (hconfig : project.config = w.project.config) (hdir : project.dir = w.project.dir)
      (houtput : project.output = w.project.output) : Copying d b { w with project }
  | aside {b : Bool} {w w' : Workspace} (h : Copying d b w) (hm : d.Aside w w') : Copying d b w'
  | scripts {b : Bool} {w w' : Workspace} {u : Unit} (h : Copying d b w)
      (halone : d.AloneInScripts w.project.dir w.project.depJs)
      (hrun : Assembly.copyDependencyJs w = .ok u w') : Copying d b w'
  | assets {b : Bool} {w w' : Workspace} {u : Unit} (h : Copying d b w)
      (halone : d.AloneInAssets w.project.dir w'.project.depAssets)
      (hsheet : d.role = .sheet → d.name ∈ w'.project.depAssets.keys → d.name ∈ w.project.depAssets.keys)
      (hrun : Assembly.processAssets w = .ok u w') : Copying d b w'

private theorem seen_of_builds {α : Type} {step : Step Workspace α} {a : α} (hdest : w.destination = none)
    (hstep : Session.anyBuild.law.Allows w (step w)) (h : step w = .ok a w') (hseen : w.cache.Seen w.disk) :
    w'.cache.Seen w'.disk := by
  rw [h] at hstep
  have hm := Frame.moves_of_law hstep hdest
  rw [hm.disk]
  exact hm.cache.keeps (P := Entry.Seen w.disk)
    (fun _ _ hone he => Entry.Building.seen hone he) (fun _ => .inl rfl) hseen

/-- A change of the disk gives no file the time of an old stamp. -/
private theorem Sound.of_changes {disk : Disk} (h : d.Sound w) (hd : w.disk.Changes disk) :
    d.Sound { w with disk } := by
  refine ⟨⟨h.destination, hd.dated h.dated, h.bundle, h.failing, fun i hi => (h.entries i hi).of_changes hd⟩,
    fun i t bytes hi hstamp hmod hbytes => ?_⟩
  -- a stamp is not ahead of the old clock, so a file with its time is the file of before
  obtain ⟨hmod', hbytes'⟩ := hd.same _ t hmod
    ((h.entries i (Cache.find?_some hi).1).behind.clock t hstamp)
  exact h.kept i t bytes hi hstamp hmod' (hbytes'.symm.trans hbytes)

private theorem Sound.cleared (h : d.Sound w) : d.Sound { w with cache := w.cache.clearProbes } := by
  refine ⟨⟨h.destination, h.dated, h.bundle, h.failing, fun i hi => ?_⟩,
    fun i t bytes hi hstamp hmod hbytes => ?_⟩
  · change i < w.cache.clearProbes.entries.length at hi
    rw [Cache.length_clearProbes] at hi
    change (w.cache.clearProbes.entry i).Tracked w.surroundings
    rw [Cache.entry_clearProbes hi]
    exact (h.entries i hi).unlooked
  · change w.cache.clearProbes.find? _ _ = _ at hi
    rw [Cache.find?_clearProbes] at hi
    have hentry : w.cache.clearProbes.entry i = { w.cache.entry i with current := .unset } :=
      Cache.entry_clearProbes (Cache.find?_some hi).1
    change (w.cache.clearProbes.entry i).outputTime = _ at hstamp
    change w.disk.modified? (w.cache.clearProbes.entry i).fullName = _ at hmod
    change w.disk.content? (w.cache.clearProbes.entry i).fullName = _ at hbytes
    rw [hentry] at hstamp hmod hbytes
    exact h.kept i t bytes hi hstamp hmod hbytes

private theorem Sound.noted {project : Project} (h : d.Sound w)
    (hconfig : project.config = w.project.config) (hdir : project.dir = w.project.dir)
    (houtput : project.output = w.project.output) : d.Sound { w with project } := by
  have hsurroundings : ({ w with project } : Workspace).surroundings = w.surroundings := by
    unfold Workspace.surroundings
    rw [hconfig, hdir]
  have hlast : d.last? ({ w with project } : Workspace) = d.last? w := by
    unfold Delivery.last?
    rw [houtput]
  refine ⟨⟨h.destination, h.dated, by rw [hconfig]; exact h.bundle, by rw [houtput]; exact h.failing, ?_⟩,
    fun i t bytes hi => ?_⟩
  · rw [hsurroundings]
    exact h.entries
  · rw [hlast]
    rw [hdir] at hi
    exact h.kept i t bytes hi

private theorem seen_cleared (c : Cache) (disk : Disk) : c.clearProbes.Seen disk := by
  intro i hi
  rw [Cache.length_clearProbes] at hi
  rw [Cache.entry_clearProbes hi]
  exact .inl rfl

/-- What is stamped with the time of the file was written of the file, after whatever led there. -/
theorem Copying.sound {b : Bool} (h : d.Copying b w) : d.Sound w ∧ (b = true → w.cache.Seen w.disk) := by
  have hdelivering : Bundler.Delivering Session.anyBuild.law fun _ => True := Frame.delivering_builds
  have hnone : ∀ i, ¬ i < (Cache.empty).entries.length := fun i => Nat.not_lt_zero i
  induction h with
  | start hdated hbundle hfailing =>
    exact ⟨⟨⟨rfl, hdated, hbundle, hfailing, fun i hi => absurd hi (hnone i)⟩,
      fun i _ _ hi => absurd (Cache.find?_some hi).1 (hnone i)⟩, fun _ i hi => absurd hi (hnone i)⟩
  | change _ hd ih => exact ⟨ih.1.of_changes hd, fun hb => absurd hb (by simp)⟩
  | clear _ ih => exact ⟨ih.1.cleared, fun _ => seen_cleared _ _⟩
  | note _ hconfig hdir houtput ih => exact ⟨ih.1.noted hconfig hdir houtput, ih.2⟩
  | aside _ hm ih => exact ⟨ih.1.of_aside hm, fun hb => Workspace.seen_of_aside (ih.2 hb) hm⟩
  | scripts _ halone hrun ih =>
    exact ⟨((keeps_sound d).copyDependencyJs ih.1 halone hrun).1, fun hb => seen_of_builds ih.1.destination
      (allows_copyDependencyJs hdelivering.toTaking _ fun _ _ => trivial) hrun (ih.2 hb)⟩
  | assets _ halone hsheet hrun ih =>
    exact ⟨((keeps_sound d).processAssets ih.1 halone hsheet hrun).1, fun hb =>
      seen_of_builds ih.1.destination (obeys_processAssets hdelivering.toCopying _) hrun (ih.2 hb)⟩

/-- A file that was dealt with was written as it is, if it can be read. -/
private theorem current_of_done (hs : d.Sound w) (hseen : w.cache.Seen w.disk) (hdone : d.Done w) :
    ∃ i, w.cache.find? w.project.dir d.name = some i ∧
      ∀ bytes, w.disk.read? (w.cache.entry i).fullName = some bytes →
        d.last? w = some (d.role.content bytes) := by
  obtain ⟨i, hi, hset, hneed⟩ := hdone
  refine ⟨i, hi, fun bytes hbytes => ?_⟩
  have hlt := (Cache.find?_some hi).1
  have hcopied : (w.cache.entry i).needsCopy ≠ true := by
    intro hyes
    rw [hneed hyes] at hbytes
    cases hbytes
  have hcontent := Disk.content?_of_read? hbytes
  obtain ⟨t, hmod⟩ : ∃ t, w.disk.modified? (w.cache.entry i).fullName = some t := by
    unfold Disk.content? at hcontent
    obtain ⟨file, hfile, -⟩ := Option.map_eq_some_iff.mp hcontent
    exact ⟨file.time, Option.map_eq_some_iff.mpr ⟨file, hfile, rfl⟩⟩
  have hcur : (w.cache.entry i).current = .at t := by
    rcases hseen i hlt with hunset | hstamp
    · rw [hunset] at hset
      cases hset
    · rw [hstamp]
      exact Disk.stamp_eq_at.mpr hmod
  -- the stamp is neither older nor younger than the file
  obtain ⟨u, hstamp, hle⟩ : ∃ u, (w.cache.entry i).outputTime = .at u ∧ t ≤ u := by
    unfold Entry.needsCopy at hcopied
    rw [hcur] at hcopied
    cases hout : (w.cache.entry i).outputTime with
    | «at» u =>
      rw [hout] at hcopied
      exact ⟨u, rfl, Nat.not_lt.mp fun hlt => hcopied (decide_eq_true hlt)⟩
    | unset | missing =>
      rw [hout] at hcopied
      simp [Stamp.time?] at hcopied
  obtain rfl : u = t := Nat.le_antisymm ((hs.entries i hlt).behind.stamp u t hstamp hmod) hle
  exact hs.kept i u bytes hi hstamp hmod hcontent

variable {v : Workspace} {u' : Unit}

/-- After a pass over files that are looked at anew, the last content written of a delivery that was noted is
that of its file, if that can be read. -/
theorem Copying.current (h : d.Copying true w) (hscripts : Assembly.copyDependencyJs w = .ok u v)
    (hassets : Assembly.processAssets v = .ok u' w')
    (haloneScripts : d.AloneInScripts w.project.dir w.project.depJs)
    (haloneAssets : d.AloneInAssets v.project.dir w'.project.depAssets)
    (hsheet : d.role = .sheet → d.name ∈ w'.project.depAssets.keys → d.name ∈ v.project.depAssets.keys)
    (hnoted : (d.name, d.output) ∈ w.project.depJs.toList ∨
      (d.name, d.output) ∈ w'.project.depAssets.toList) :
    ∃ i, w'.cache.find? w'.project.dir d.name = some i ∧
      ∀ bytes, w'.disk.read? (w'.cache.entry i).fullName = some bytes →
        d.last? w' = some (d.role.content bytes) := by
  have hv := h.scripts haloneScripts hscripts
  obtain ⟨hw', hseen⟩ := (hv.assets haloneAssets hsheet hassets).sound
  refine current_of_done hw' (hseen rfl) ?_
  -- scripts are dealt with in the first half of the pass, and the second half leaves them alone
  rcases hnoted with hscript | hasset
  · have hdone := ((keeps_sound d).copyDependencyJs h.sound.1 haloneScripts hscripts).2.2 hscript
    exact ((keeps_done d).processAssets ⟨hv.sound.1.toTracked, hdone⟩ haloneAssets hsheet hassets).1.2
  · exact ((keeps_sound d).processAssets hv.sound.1 haloneAssets hsheet hassets).2.2 hasset

/-- A delivery is not written in a pass while the time of its file is that of its stamp. -/
theorem Copying.unwritten {b : Bool} {i t : Nat} (h : d.Copying b w)
    (hscripts : Assembly.copyDependencyJs w = .ok u v) (hassets : Assembly.processAssets v = .ok u' w')
    (haloneScripts : d.AloneInScripts w.project.dir w.project.depJs)
    (haloneAssets : d.AloneInAssets v.project.dir w'.project.depAssets)
    (hsheet : d.role = .sheet → d.name ∈ w'.project.depAssets.keys → d.name ∈ v.project.depAssets.keys)
    (hi : w.cache.find? w.project.dir d.name = some i) (hstamp : (w.cache.entry i).outputTime = .at t)
    (hmod : w.disk.modified? (w.cache.entry i).fullName = some t) :
    w'.project.output.contents d.output = w.project.output.contents d.output := by
  have hidle : d.Idle (w.project.output.contents d.output) w :=
    ⟨h.sound.1.toTracked, ⟨i, t, hi, hstamp, hmod⟩, rfl⟩
  have hv := ((keeps_idle d _).copyDependencyJs hidle haloneScripts hscripts).1
  exact ((keeps_idle d _).processAssets hv haloneAssets hsheet hassets).1.past

/-! ### Two style sheets -/

/-- Two style sheets, of which the first one refers to the second one and is the only one that is known. -/
private def sheetPair : Workspace :=
  .start ((Disk.empty.write "/p/a.css" (Text.toBytes "@import url(b.css);\n")).write "/p/b.css"
    (Text.toBytes ".b\x7bx:y\x7d\n"))
    { Session.entryProject [] with depAssets := .ofList [("a.css", "a.css")] }

/-- What a pass over the scripts and the assets leads to. -/
private def passed (w : Workspace) : Workspace :=
  final (Assembly.processAssets (final (Assembly.copyDependencyJs w)))

private def firstSheet : Delivery where
  name := "a.css"
  output := "a.css"
  role := .sheet
  isSheet _ := by decide +kernel
  isPlain h := by cases h

/-- The first one is current after a pass. -/
example : ∃ i, (passed sheetPair).cache.find? (passed sheetPair).project.dir "a.css" = some i ∧
    ∀ bytes, (passed sheetPair).disk.read? ((passed sheetPair).cache.entry i).fullName = some bytes →
      firstSheet.last? (passed sheetPair) = some (Text.toBytes (Stylesheet.plain (Text.ofBytes bytes))) := by
  have hdated : sheetPair.disk.Dated :=
    (Disk.changes_write _ _ _).dated ((Disk.changes_write _ _ _).dated Disk.dated_empty)
  have hstart : firstSheet.Copying true sheetPair := .start hdated (by decide +kernel) (by decide +kernel)
  have hassets : (passed sheetPair).project.depAssets = .ofList [("a.css", "a.css"), ("b.css", "b.css")] := by
    decide +kernel
  refine hstart.current (ok_of_answer? (a := ()) (by decide +kernel))
    (ok_of_answer? (a := ()) (by decide +kernel)) (fun e he => absurd he List.not_mem_nil) (fun e he => ?_)
    (fun _ _ => by decide +kernel) (.inr ?_)
  · change e ∈ (passed sheetPair).project.depAssets.toList at he
    rw [hassets] at he
    have hboth : e = ("a.css", "a.css") ∨ e = ("b.css", "b.css") := by
      simpa [OrderedMap.ofList, OrderedMap.insert, OrderedMap.insertList, OrderedMap.empty] using he
    rcases hboth with rfl | rfl
    · exact .inl ⟨by decide, rfl⟩
    · exact .inr ⟨by decide +kernel, by decide +kernel⟩
  · decide +kernel

/-- The second one is found too late: it is not written, in this pass or in the next one. -/
example : let w := passed sheetPair
    let w' := passed { w with cache := w.cache.clearProbes }
    w.project.depAssets.keys = ["a.css", "b.css"] ∧ w.project.output.contents "b.css" = [] ∧
      w'.project.output.contents "a.css" ≠ [] ∧ w'.project.output.contents "b.css" = [] := by
  decide +kernel

end Delivery

end Bundler

/-
Writing a program in lockstep.

Before a program is written the freshness of its files is worked out, and each file that is written
gets a stamp by it. The marks of two twins need not agree, nor need their stamps. It is enough that
no mark is older than the file itself: then a file that was stamped is not newer than its copy, in
either workspace, and this is all that twins have to agree on.

The first workspace writes everything because it is told to, the other one because nothing was ever
written. To have both do the same, step by step, the second one may as well be told to write everything
(`Session.emitProgram_pending`). This needs that each file of the program has an entry of its own, so
that a file that is written does not count as another one written.
-/
import Bundler.Proofs.TwinPreparing

set_option autoImplicit false

namespace Bundler

open Workspace Step Coupling

/-! ## Passes over twins -/

namespace Cache

variable {disk : Disk} {b c : Cache} {key : String}

/-- A pass makes no entries and changes no keys. -/
theorem OnBase.keys (h : OnBase disk b c) : c.keys = b.keys := by
  unfold Cache.keys
  apply List.ext_getElem (by simp [h.length])
  intro i hi hi'
  rw [List.length_map] at hi hi'
  rw [List.getElem_map, List.getElem_map, ← entry_eq hi, ← entry_eq hi']
  exact (h.walked i hi').key

theorem OnBase.at?_none (h : OnBase disk b c) (hb : b.at? key = none) : c.at? key = none := by
  unfold Cache.at? at hb ⊢
  rw [indexOf?_eq_keys] at hb ⊢
  rw [h.keys]
  rw [Option.map_eq_none_iff] at hb ⊢
  exact hb

theorem OnBase.at?_some {e : Entry} (h : OnBase disk b c) (hb : b.at? key = some e) :
    ∃ e', c.at? key = some e' ∧ Entry.Walked disk e e' := by
  obtain ⟨i, hi, rfl⟩ := Option.map_eq_some_iff.mp hb
  refine ⟨c.entry i, ?_, h.walked i (indexOf?_some hi).1⟩
  unfold Cache.at?
  rw [indexOf?_eq_keys, h.keys, ← indexOf?_eq_keys, hi]
  rfl

end Cache

namespace Entry

variable {N : String → Prop} {s : Surroundings} {e e' d d' : Entry} {old : Option Entry}

/-- What a pass makes of an entry without a mark: it may be looked at and gets a mark. -/
theorem Walked.made (N : String → Prop) (h : Walked s.disk { e with freshness := .unset } d) :
    ∃ e₁, Read s e e₁ ∧ Working N s e e₁ ∧ d = { e₁ with freshness := d.freshness } := by
  rcases h.current with hsame | ⟨hunset, hstamp⟩
  · refine ⟨e, Read.refl s e, Working.refl N s e, ?_⟩
    rw [h.same, hsame]
  · have hlooked : e.looked s.disk = { e with current := s.disk.stamp e.fullName } :=
      looked_of_unset hunset
    refine ⟨e.looked s.disk, Read.looked s e, Reading.working (.look e), ?_⟩
    rw [h.same, hstamp, hlooked]

/-- An entry that a pass has marked is reliable where its mark is not older than the file. -/
theorem Reliable.walked (he : e.Reliable N s) (hd : s.disk.Dated)
    (h : Walked s.disk { e with freshness := .unset } d)
    (hmark : ∀ t, d.freshness.time? = some t →
      ∃ own, s.disk.modified? e.fullName = some own ∧ own ≤ t) : d.Reliable N s := by
  obtain ⟨e₁, hread, hworking, hd'⟩ := h.made N
  rw [hd']
  refine (hworking.reliable hd he).marked hd fun t ht => ?_
  rw [hread.fullName]
  exact hmark t ht

/-- Passes keep entries matched. -/
theorem Matched.walked (h : Matched s.disk old (some e) (some e'))
    (hd : Walked s.disk { e with freshness := .unset } d)
    (hd' : Walked s.disk { e' with freshness := .unset } d') :
    Matched s.disk old (some d) (some d') := by
  obtain ⟨e₁, hread, -, hmark⟩ := hd.made fun _ => True
  obtain ⟨e₁', hread', -, hmark'⟩ := hd'.made fun _ => True
  cases h with
  | both h =>
    rw [hmark, hmark']
    exact .both ((h.of_reading hread hread').congr (Grows.of_stamps e₁ e₁.outputTime _)
      (Grows.of_stamps e₁' e₁'.outputTime _) rfl rfl rfl rfl rfl rfl
      ((h.of_reading hread hread').due))

theorem Matched.walked_alone (h : Matched s.disk old (some e) none)
    (hd : Walked s.disk { e with freshness := .unset } d) : Matched s.disk old (some d) none := by
  obtain ⟨e₁, hread, -, hmark⟩ := hd.made fun _ => True
  cases h with
  | alone hname hinfo hout hkept =>
    rw [hmark]
    exact .alone (by rw [hname, ← hread.fullName]) (hread.infoTime.trans hinfo)
      (hread.outputTime.trans hout) fun hsome => hkept (by rw [← hread.script]; exact hsome)

/-- A file with a new stamp is not newer than its copy. -/
theorem Reliable.isDue_stampOutput (h : e.Reliable N s) (hset : e.current.isSet = true) :
    e.stampOutput.isDue s.disk = false := by
  have hname : e.stampOutput.fullName = e.fullName := rfl
  unfold isDue
  rw [hname]
  cases hmod : s.disk.modified? e.fullName with
  | none => rfl
  | some now =>
    have hout : ∃ t, e.stampOutput.outputTime.time? = some t ∧ now ≤ t := by
      unfold stampOutput
      cases hfresh : e.freshness.time? with
      | some t =>
        obtain ⟨own, hown, hle⟩ := h.timely t hfresh
        rw [hmod] at hown
        obtain rfl := Option.some.inj hown
        exact ⟨t, rfl, hle⟩
      | none =>
        refine ⟨now, ?_, Nat.le_refl now⟩
        simp only
        rw [current_eq h.seen hset, Disk.stamp_eq_at.mpr hmod]
        rfl
    obtain ⟨t, ht, hle⟩ := hout
    rw [ht]
    simpa using hle

end Entry

namespace Workspace

variable {past : Past} {N : String → Prop} {w w' : Workspace} {c c' : Cache} {ignore : Bool}

/-- The entries after a pass. -/
private theorem entry_of_marked
    (hc : Cache.Marked w.disk w.project.dir ignore w.cache.clearFreshness c) {i : Nat}
    (hi : i < w.cache.entries.length) :
    Entry.Walked w.disk { w.cache.entry i with freshness := .unset } (c.entry i) := by
  rw [← Cache.entry_clearFreshness hi]
  exact hc.base.walked i (by rw [Cache.length_clearFreshness]; exact hi)

theorem Reliable.marked (h : w.Reliable N)
    (hc : Cache.Marked w.disk w.project.dir ignore w.cache.clearFreshness c) :
    Reliable N { w with cache := c } where
  destination := h.destination
  dated := h.dated
  distinct := by
    refine hc.base.keysDistinct fun i j hi hj hkey => ?_
    rw [Cache.length_clearFreshness] at hi hj
    rw [Cache.entry_clearFreshness hi, Cache.entry_clearFreshness hj] at hkey
    exact h.distinct i j hi hj hkey
  entries i hi := by
    have hlt : i < w.cache.entries.length := by
      change i < c.entries.length at hi
      rw [hc.base.length, Cache.length_clearFreshness] at hi
      exact hi
    refine (h.entries i hlt).walked h.dated (entry_of_marked hc hlt) fun t ht => ?_
    have hown := hc.memo.own i t ht
    unfold Cache.timeOf at hown
    rw [Cache.entry_clearFreshness hlt] at hown
    exact hown

private theorem at?_clearFreshness (c : Cache) (key : String) :
    c.clearFreshness.at? key = (c.at? key).map fun e => { e with freshness := .unset } :=
  Cache.at?_mapEntries (f := fun e => { e with freshness := .unset }) (fun _ => rfl) key

/-- Twins over which a pass has gone are twins. -/
theorem Twins.marked (h : Twins past w w')
    (hc : Cache.Marked w.disk w.project.dir ignore w.cache.clearFreshness c)
    (hc' : Cache.Marked w'.disk w'.project.dir ignore w'.cache.clearFreshness c') :
    Twins past { w with cache := c } { w' with cache := c' } where
  left := h.left.marked hc
  right := h.right.marked hc'
  disk := h.disk
  phase := h.phase
  project := h.project
  cache key := by
    have hmatched := h.cache key
    have hnone : ∀ (u : Workspace) (d : Cache), Cache.Marked u.disk u.project.dir ignore
        u.cache.clearFreshness d → u.cache.at? key = none → d.at? key = none := by
      intro u d hd hat
      refine hd.base.at?_none ?_
      rw [at?_clearFreshness, hat]
      rfl
    have hsome : ∀ (u : Workspace) (d : Cache) (e : Entry), Cache.Marked u.disk u.project.dir ignore
        u.cache.clearFreshness d → u.cache.at? key = some e →
        ∃ e', d.at? key = some e' ∧ Entry.Walked u.disk { e with freshness := .unset } e' := by
      intro u d e hd hat
      refine hd.base.at?_some ?_
      rw [at?_clearFreshness, hat]
      rfl
    change Entry.Matched w.disk _ (c.at? key) (c'.at? key)
    cases hat : w.cache.at? key with
    | none =>
      cases hat' : w'.cache.at? key with
      | none =>
        rw [hnone w c hc hat, hnone w' c' hc' hat']
        exact .absent
      | some e' =>
        rw [hat, hat'] at hmatched
        cases hmatched
    | some e =>
      obtain ⟨d, hd, hwalked⟩ := hsome w c e hc hat
      rw [hd]
      cases hat' : w'.cache.at? key with
      | none =>
        rw [hat, hat'] at hmatched
        rw [hnone w' c' hc' hat']
        exact Entry.Matched.walked_alone (s := w.surroundings) hmatched hwalked
      | some e' =>
        obtain ⟨d', hd', hwalked'⟩ := hsome w' c' e' hc' hat'
        rw [hat, hat'] at hmatched
        rw [hd']
        rw [h.disk] at hwalked'
        exact Entry.Matched.walked (s := w.surroundings) hmatched hwalked hwalked'

/-- A pass can walk where entries are reliable and imports have entries. -/
theorem Reliable.walkable (h : w.Reliable N) (hsourced : w.Sourced) :
    w.cache.Walkable w.disk w.project.dir :=
  ⟨h.distinct, hsourced.known, fun i hi => (h.entries i hi).seen⟩

end Workspace

theorem Frame.walking_grows : Bundler.Walking grows.law :=
  walking looking_grows fun _ e f => Entry.Grows.of_stamps e e.outputTime f

namespace Past

open Session

variable {past : Past} {file : String} {program : List String}

/-- The freshness of the files of a program is worked out in both. -/
theorem lockstep_refreshProgram (program : List String) : Lockstep past.coupling
    (fun w w' => (∀ file ∈ program, past.Shared file w w') ∧ w.Sourced ∧ w'.Sourced)
    (refreshProgram program) (refreshProgram program) same where
  left := (obeys_refreshProgram Frame.walking_grows program).weaken (fun hm => hm)
    fun _ _ _ => trivial
  right := (obeys_refreshProgram Frame.walking_grows program).weaken (fun hm => hm)
    fun _ _ _ => trivial
  run w w' hw hpre hfine := by
    obtain ⟨hshared, hsourced, hsourced'⟩ := hpre
    obtain ⟨c, hrun, hc, -⟩ := @refreshProgram_ok w program (hw.left.walkable hsourced)
      fun file hfile => by
        obtain ⟨-, i, i', hp⟩ := hshared file hfile
        exact ⟨i, hp.left⟩
    obtain ⟨c', hrun', hc', -⟩ := @refreshProgram_ok w' program
      (hw.right.walkable hsourced') fun file hfile => by
        obtain ⟨-, i, i', hp⟩ := hshared file hfile
        exact ⟨i', hp.right⟩
    rw [hrun, hrun']
    exact .ok (hw.marked hc hc') rfl

/-! ## Writing a file -/

theorem steady_keepModule (file : String) (refs : References) (written : Script.Written) :
    Steady past.coupling (keepModule file refs written) := by
  have hkeep : ∀ sourceMap : Option SourceMap, Steady past.coupling (do
      let id ← Path.moduleId file
      let deps ← (refs.files.mapM Path.moduleId : Except Fault (List String))
      changeProject fun p =>
        { p with emitted := p.emitted.insert id ⟨id, written.js, sourceMap, deps, false⟩ } :
      Step Workspace Unit) := fun sourceMap =>
    (Steady.of_lift _).bind fun _ => (Steady.of_lift _).bind fun _ =>
      steady_changeProject (steady_modify (fun _ q => ⟨q, rfl⟩) fun _ => ⟨rfl, rfl, rfl⟩)
  unfold keepModule
  simp only
  split
  · exact (Steady.of_pure _).bind hkeep
  · split
    · exact (Steady.of_pure _).bind hkeep
    · exact (Steady.of_throw _).bind hkeep

theorem steady_deliver (file jsName : String) (refs : References) (written : Script.Written) :
    Steady past.coupling (deliver file jsName refs written) := by
  have hrest : Steady past.coupling (deliverJs file jsName refs written) := by
    refine steady_read (f := fun bundle => if bundle != .none then keepModule file refs written
      else writeJs jsName written) (fun p => p.config.bundle) (fun _ _ => rfl) fun bundle => ?_
    split
    · exact steady_keepModule _ _ _
    · unfold writeJs
      cases written.sourceMap with
      | none => exact steady_write _ _
      | some text => exact (steady_write _ _).bind fun _ => steady_write _ _
  unfold deliver
  cases written.declaration with
  | none => exact hrest
  | some text => exact (steady_write _ _).bind fun _ => hrest

/-- The file is stamped in both. -/
theorem lockstep_stampOutput {i i' : Nat} : Lockstep past.coupling (Pair Entry.Loaded file i i')
    (changeEntry i Entry.stampOutput) (changeEntry i' Entry.stampOutput)
    fun w w' _ _ => Pair Entry.Loaded file i i' w w' := by
  have hgrows : ∀ e : Entry, Entry.Grows e e.stampOutput :=
    fun e => Entry.Grows.of_stamps e _ e.freshness
  refine lockstep_changeEntry (P := Entry.Loaded) hgrows hgrows fun w w' hw hp => ?_
  obtain ⟨hr, hr'⟩ := hp.reliable hw
  refine ⟨hp, Entry.Working.stamp _ _ _ _, Entry.Working.stamp _ _ _ _,
    (hp.twin hw).congr (hgrows _) (hgrows _) rfl rfl rfl rfl rfl rfl ?_,
    (hgrows _).loaded hp.holds, (hgrows _).loaded hp.holds'⟩
  have hdue := hr.isDue_stampOutput hp.holds.isSet
  have hdue' := hr'.isDue_stampOutput hp.holds'.isSet
  exact hdue'.trans hdue.symm

/-- Writes a file whose references and script are there. -/
def emitHeld (id : Nat) (file jsName : String) (overrides : List Override)
    (c : Option References × Option Script) : Step Workspace Unit :=
  match c.1, c.2 with
  | some refs, some script => do
    let o ← writeOptions (← get).project.config refs jsName
    let written ← onProject (render file script refs overrides o)
    deliver file jsName refs written
    changeEntry id Entry.stampOutput
  | _, _ => return

/-- A file that both have loaded is written in both. -/
theorem lockstep_emitFile {i i' : Nat} (overrides : List Override) :
    Lockstep past.coupling (Pair Entry.Loaded file i i') (emitFile i file overrides)
      (emitFile i' file overrides) same := by
  refine Lockstep.lift_bind fun jsName _ => ?_
  have hwrite : ∀ (refs : References) (script : Script) (config : Config), Lockstep past.coupling
      (Pair Entry.Loaded file i i')
      (do
        let o ← writeOptions config refs jsName
        let written ← onProject (render file script refs overrides o)
        deliver file jsName refs written
        changeEntry i Entry.stampOutput : Step Workspace Unit)
      (do
        let o ← writeOptions config refs jsName
        let written ← onProject (render file script refs overrides o)
        deliver file jsName refs written
        changeEntry i' Entry.stampOutput) same := by
    intro refs script config
    refine Lockstep.lift_bind fun o _ => ?_
    refine ((steady_onProject (steady_render _ _ _ _ _)).keeping stable_loaded).bind_same
      fun written => ?_
    refine ((steady_deliver _ _ _ _).keeping stable_loaded).bind_same fun _ => ?_
    exact lockstep_stampOutput.conseq (fun _ _ _ h => h) fun _ _ _ _ _ _ => rfl
  have hlook : ∀ c : Option References × Option Script, Lockstep past.coupling
      (fun w w' => Pair Entry.Loaded file i i' w w' ∧
        ((w.cache.entry i).references, (w.cache.entry i).script) = c ∧
        ((w'.cache.entry i').references, (w'.cache.entry i').script) = c)
      (emitHeld i file jsName overrides c) (emitHeld i' file jsName overrides c) same := by
    rintro ⟨refs, script⟩
    cases refs with
    | none => exact Lockstep.of_pure _ _ fun _ _ _ _ => rfl
    | some refs =>
      cases script with
      | none => exact Lockstep.of_pure _ _ fun _ _ _ _ => rfl
      | some script =>
        exact Lockstep.of_get (C := past.coupling) (fun w : Workspace => w.project.config)
          (fun w w' hw _ => hw.config.symm) fun config =>
            (hwrite refs script config).of_pre fun _ _ _ h => h.1.1
  refine lockstep_entry (fun e => (e.references, e.script)) (fun w w' hw hp => ?_) hlook
  have hinfo : ∀ e : Entry, e.Loaded → e.references? = e.references := by
    intro e he
    unfold Entry.references?
    rw [if_pos he.info]
  have hrefs := (hp.mono fun e he => he.isSet).references? hw
  rw [hinfo _ hp.holds, hinfo _ hp.holds'] at hrefs
  exact Prod.ext hrefs ((hp.mono fun _ he => he.source).script hw).1

end Past

/-! ## Nothing written yet -/

namespace Frame

/-- The frame in which no stamp changes. -/
def unstamped : Frame where
  entry _ e e' := e'.outputTime = e.outputTime
  project _ _ := True
  refl _ _ := rfl
  trans _ _ _ _ h h' := h'.trans h
  project_refl _ := trivial
  project_trans _ _ := trivial

theorem looking_unstamped : Looking unstamped.law :=
  looking unstamped (fun s e => (Entry.Read.looked s e).outputTime)
    (fun s e => (Entry.Read.withText s e).outputTime) (fun s e => (Entry.Read.withBuffer s e).outputTime)
    fun _ _ _ => trivial

theorem loading_unstamped (N : String → Prop) : Bundler.Loading unstamped.law N :=
  loading looking_unstamped (fun _ _ _ _ _ _ => rfl) fun _ _ _ _ _ _ _ => rfl

theorem walking_unstamped : Bundler.Walking unstamped.law :=
  walking looking_unstamped fun _ _ _ => rfl

theorem writing_unstamped : Writing unstamped.law := writing looking_unstamped fun _ _ _ => trivial

theorem placing_unstamped : Placing unstamped.law := placing fun _ _ => trivial

end Frame

/-- No file was written. -/
def Workspace.Unwritten (w : Workspace) : Prop :=
  ∀ i, i < w.cache.entries.length → (w.cache.entry i).outputTime = .unset

theorem Workspace.Unwritten.of_moves {w w' : Workspace} (h : w.Unwritten)
    (hm : Frame.unstamped.Moves w w') : w'.Unwritten := by
  intro i hi
  by_cases hold : i < w.cache.entries.length
  · have hkept : (w'.cache.entry i).outputTime = (w.cache.entry i).outputTime := hm.cache.old i hold
    rw [hkept, h i hold]
  · obtain ⟨name, hnew⟩ := hm.cache.new i (by omega) hi
    have hkept : (w'.cache.entry i).outputTime = .unset := hnew
    exact hkept

namespace Session

variable {atlasChanged : Bool} {overrides : FileOverrides}

/-- A file that can be written, and was not. -/
private def Pending (w : Workspace) (file : String) : Prop :=
  ∃ i, w.cache.find? w.project.dir file = some i ∧ (w.cache.entry i).Loaded ∧
    (w.cache.entry i).outputTime = .unset

/-- The stamp of another file does not matter. -/
private theorem Pending.of_stamped {w v : Workspace} {file other : String} {i : Nat}
    (h : Pending w other) (hi : w.cache.find? w.project.dir file = some i)
    (hne : Cache.keyOf w.project.dir file ≠ Cache.keyOf w.project.dir other)
    (hcache : v.cache = w.cache.modify i Entry.stampOutput) (hdir : v.project.dir = w.project.dir) :
    Pending v other := by
  obtain ⟨j, hj, hloaded, hout⟩ := h
  have hij : i ≠ j := by
    intro heq
    rw [← (Cache.find?_some hi).2, ← (Cache.find?_some hj).2, heq] at hne
    exact hne rfl
  have hkeys : (w.cache.modify i Entry.stampOutput).keys = w.cache.keys :=
    Cache.keys_modify fun _ => rfl
  refine ⟨j, ?_, ?_, ?_⟩
  · rw [hcache, hdir, Cache.find?_eq_keys, hkeys, ← Cache.find?_eq_keys]
    exact hj
  · rw [hcache, Cache.entry_modify_ne _ hij]
    exact hloaded
  · rw [hcache, Cache.entry_modify_ne _ hij]
    exact hout

/-- A file that was not written is to be, whether all are or not. -/
private theorem needsEmit_of_unset {e : Entry} (hout : e.outputTime = .unset) (force : Bool) :
    needsEmit force atlasChanged e = true := by
  have hold : e.isOutputCurrent = false := by
    unfold Entry.isOutputCurrent
    rw [hout]
    cases e.freshness.time? <;> rfl
  unfold needsEmit
  simp [hold]

/-- Noting a pending file as it is, or writing it, and then the rest: it is the same whether all files
are to be written or not, if it is for the rest once the entry of the file has got its stamp. -/
private theorem emitNext_pending {w : Workspace} {i : Nat} {file : String} {files : List String}
    (hdest : w.destination = none) (hloaded : (w.cache.entry i).Loaded)
    (hout : (w.cache.entry i).outputTime = .unset)
    (hrest : ∀ v : Workspace, v.destination = none → v.project.dir = w.project.dir →
      v.cache = w.cache.modify i Entry.stampOutput →
      emitProgram false atlasChanged overrides files v
        = emitProgram true atlasChanged overrides files v) (asIs : Bool) :
    (do
      if asIs then
        changeEntry i Entry.stampOutput
        emitProgram false atlasChanged overrides files
      else if needsEmit false atlasChanged (← entry i) then
        emitFile i file ((overrides.filter fun o => o.1 == file).map Prod.snd)
        return file :: (← emitProgram false atlasChanged overrides files)
      else emitProgram false atlasChanged overrides files : Step Workspace (List String)) w
    = (do
      if asIs then
        changeEntry i Entry.stampOutput
        emitProgram true atlasChanged overrides files
      else if needsEmit true atlasChanged (← entry i) then
        emitFile i file ((overrides.filter fun o => o.1 == file).map Prod.snd)
        return file :: (← emitProgram true atlasChanged overrides files)
      else emitProgram true atlasChanged overrides files : Step Workspace (List String)) w := by
  cases asIs with
  | true =>
    simp only [if_true]
    refine bind_congr_at rfl fun _ v hv => ?_
    obtain rfl := (modify_ok_iff _ _ _ _).mp hv
    exact hrest _ hdest rfl rfl
  | false =>
    have hentry : entry i w = .ok (w.cache.entry i) w := (entry_ok_iff _ _ _ _).mpr ⟨rfl, rfl⟩
    simp only [Bool.false_eq_true, if_false]
    rw [bind_of_ok hentry, bind_of_ok hentry, if_pos (needsEmit_of_unset hout false),
      if_pos (needsEmit_of_unset hout true)]
    refine bind_congr_at rfl fun _ v hv => ?_
    obtain ⟨-, -, script, hscript⟩ := Entry.isSourceCurrent_iff.mp hloaded.source
    obtain ⟨-, -, refs, hrefs⟩ := Entry.isInfoCurrent_iff.mp hloaded.info
    have hm := Frame.moves_of_obeys
      (obeys_emitFile (Frame.delivering_delivers (K := fun _ => True)) i file _) hdest hv
    exact bind_congr_at (hrest v hm.destination hm.dir (emitFile_cache hdest hrefs hscript hv))
      fun _ _ _ => rfl

/-- Where nothing was written all files are, whether they are to be or not. The induction is on the
files: what is pending stays so when the entry of another file gets its stamp. -/
private theorem emitProgram_pending : ∀ (files : List String) (w : Workspace),
    w.destination = none → (files.map (Cache.keyOf w.project.dir)).Nodup →
    (∀ file ∈ files, Pending w file) →
    emitProgram false atlasChanged overrides files w = emitProgram true atlasChanged overrides files w
  | [], _, _, _, _ => rfl
  | file :: files, w, hdest, hnodup, hpending => by
    obtain ⟨i, hi, hloaded, hout⟩ := hpending file List.mem_cons_self
    rw [List.map_cons, List.nodup_cons] at hnodup
    have hrest : ∀ v : Workspace, v.destination = none → v.project.dir = w.project.dir →
        v.cache = w.cache.modify i Entry.stampOutput →
        emitProgram false atlasChanged overrides files v
          = emitProgram true atlasChanged overrides files v := by
      intro v hdest' hdir hcache
      refine emitProgram_pending files v hdest' (by rw [hdir]; exact hnodup.2) fun other hother =>
        (hpending other (List.mem_cons_of_mem _ hother)).of_stamped hi (fun heq => ?_) hcache hdir
      exact hnodup.1 (by rw [heq]; exact List.mem_map_of_mem hother)
    have hget : onCache (fun _ dir c => c.get dir file) w = .ok i w := by
      refine (onCache_ok_iff _ _ _ _).mpr ?_
      rw [Cache.get_of_find? hi]
      exact ⟨rfl, rfl⟩
    unfold emitProgram
    rw [bind_of_ok hget, bind_of_ok hget]
    refine bind_congr_at rfl fun declaration v hlift => ?_
    obtain ⟨-, rfl⟩ := (lift_ok_iff _ _ _ _).mp hlift
    cases declaration with
    | true =>
      refine bind_congr_at rfl fun asIs v hv => ?_
      obtain ⟨rfl, rfl⟩ := (pure_ok_iff _ _ _ _).mp hv
      exact emitNext_pending hdest hloaded hout hrest true
    | false =>
      refine bind_congr_at rfl fun asIs v hv => ?_
      obtain ⟨-, rfl⟩ := (lift_ok_iff _ _ _ _).mp hv
      exact emitNext_pending hdest hloaded hout hrest asIs

end Session

namespace Past

open Session

variable {past : Past} {program : List String}

/-- Files that both have loaded, in one of the two alone. -/
private def AllShared (past : Past) (program : List String) (w w' : Workspace) : Prop :=
  ∀ file ∈ program, past.Shared file w w'

private theorem stable_allShared : past.coupling.Stable (past.AllShared program) :=
  fun w w' t t' hw hm hm' ht h file hfile => stable_shared w w' t t' hw hm hm' ht (h file hfile)

/-- A program is written in both from beginning to end. -/
private theorem lockstep_writeAll (atlasChanged : Bool) (overrides : FileOverrides) :
    ∀ files : List String, (∀ file ∈ files, file ∈ program) →
      Lockstep past.coupling (past.AllShared program)
        (emitProgram true atlasChanged overrides files)
        (emitProgram true atlasChanged overrides files) same
  | [], _ => Lockstep.of_pure _ _ fun _ _ _ _ => rfl
  | file :: files, hfiles => by
    have ih : Lockstep past.coupling (past.AllShared program)
        (emitProgram true atlasChanged overrides files)
        (emitProgram true atlasChanged overrides files) same :=
      lockstep_writeAll atlasChanged overrides files fun f hf => hfiles f (List.mem_cons_of_mem _ hf)
    have hneed : ∀ e : Entry, needsEmit true atlasChanged e = true := fun _ => by
      unfold needsEmit
      simp
    have hunread : ∀ (i : Nat) (next : Step Workspace (List String)),
        (entry i >>= fun _ => next) = next := fun _ _ => rfl
    have hone : ∀ (i i' : Nat) (asIs : Bool), Lockstep past.coupling
        (fun w w' => Pair Entry.Loaded file i i' w w' ∧ past.AllShared program w w')
        (do
          if asIs then
            changeEntry i Entry.stampOutput
            emitProgram true atlasChanged overrides files
          else if needsEmit true atlasChanged (← entry i) then
            emitFile i file ((overrides.filter fun o => o.1 == file).map Prod.snd)
            return file :: (← emitProgram true atlasChanged overrides files)
          else emitProgram true atlasChanged overrides files)
        (do
          if asIs then
            changeEntry i' Entry.stampOutput
            emitProgram true atlasChanged overrides files
          else if needsEmit true atlasChanged (← entry i') then
            emitFile i' file ((overrides.filter fun o => o.1 == file).map Prod.snd)
            return file :: (← emitProgram true atlasChanged overrides files)
          else emitProgram true atlasChanged overrides files) same := by
      intro i i' asIs
      cases asIs with
      | true =>
        exact (Lockstep.frame stable_allShared lockstep_stampOutput).bind fun _ _ =>
          ih.of_pre fun _ _ _ h => h.2
      | false =>
        simp only [Bool.false_eq_true, if_false, hneed, if_true]
        rw [hunread, hunread]
        refine ((Lockstep.frame stable_allShared (lockstep_emitFile _)).of_pre
          fun _ _ _ h => h).bind_same fun _ => ?_
        have hrest : Lockstep past.coupling (past.AllShared program)
            (emitProgram true atlasChanged overrides files)
            (emitProgram true atlasChanged overrides files) fun _ _ out out' => out = out' ∧ True :=
          ih.conseq (fun _ _ _ h => h) fun _ _ _ _ _ h => ⟨h, trivial⟩
        exact hrest.bind_same fun _ => Lockstep.of_pure _ _ fun _ _ _ _ => rfl
    have hget : Lockstep past.coupling (past.AllShared program)
        (onCache fun _ dir c => c.get dir file) (onCache fun _ dir c => c.get dir file)
        fun w w' i i' => Pair Entry.Loaded file i i' w w' ∧ past.AllShared program w w' := by
      refine (Lockstep.frame stable_allShared (lockstep_get file)).conseq
        (fun _ _ _ h => ⟨trivial, h⟩) fun w w' i i' _ h => ⟨?_, h.2⟩
      obtain ⟨-, j, j', hp⟩ := h.2 file (hfiles file List.mem_cons_self)
      obtain rfl : j = i := Option.some.inj (hp.left.symm.trans h.1.left)
      obtain rfl : j' = i' := Option.some.inj (hp.right.symm.trans h.1.right)
      exact hp
    unfold emitProgram
    refine hget.bind fun i i' => Lockstep.lift_bind fun declaration _ => ?_
    cases declaration with
    | true => exact hone i i' true
    | false => exact Lockstep.lift_bind fun asIs _ => hone i i' asIs

/-- One of the two writes all files because it is to, the other one because it wrote none. -/
theorem lockstep_emitProgram (atlasChanged : Bool) (overrides : FileOverrides)
    (program : List String) : Lockstep past.coupling
      (fun w w' => (∀ file ∈ program, past.Shared file w w') ∧ w'.Unwritten ∧ program.Nodup)
      (emitProgram true atlasChanged overrides program)
      (emitProgram false atlasChanged overrides program) same := by
  have hobeys : ∀ force, Obeys past.coupling.law
      (emitProgram force atlasChanged overrides program) := fun force =>
    obeys_of_grows (obeys_emitProgram Frame.delivering_grows force atlasChanged overrides program)
  refine Lockstep.of_eq (hobeys true) (hobeys false) fun w w' hw ⟨hshared, hunwritten, hnodup⟩ =>
    ⟨past.AllShared program, _, _, hshared, rfl, ?_,
      lockstep_writeAll atlasChanged overrides program fun _ h => h⟩
  refine emitProgram_pending program w' hw.right.destination ?_ fun file hfile => ?_
  · refine (List.nodup_map_iff_inj_on hnodup).mpr fun a ha b hb heq => ?_
    obtain ⟨hN, -⟩ := hshared a ha
    obtain ⟨hN', -⟩ := hshared b hb
    rw [hw.project.dir] at heq
    exact past.one a b hN hN' heq
  · obtain ⟨-, i, i', hp⟩ := hshared file hfile
    exact ⟨i', hp.right, hp.holds', hunwritten i' (Cache.find?_some hp.right).1⟩

end Past

end Bundler

/-
A forced rebuild and a first build.

A cycle that builds everything anew, in a session with any history, is set beside the first cycle of
a new session on the same disk with the same settings. Once the marks of earlier passes are cleared
the two workspaces are twins (`Session.Lived.twins`): the entries of the one have lost all that a new
build must not take over, and the other one has no entries. What is left of an entry, text and script,
is what would be read of the file.

So the two cycles return the same report or end early in the same way, with the same messages and the
same maps, and the first one says and writes what the other one does (`Session.SameRun`). This takes
for granted that files are always referred to by the same names, that a file that could be read can
still be read if it was not changed, and that values are not given to constants of a file that was read
once and is not read any more. It is about cycles that build everything anew; a configuration that is
changed before the first cycle is not noticed, as there is none that it could differ from.
-/
import Bundler.Proofs.TwinCycles

set_option autoImplicit false

namespace Bundler

open Workspace Step Coupling

/-! ## Where the two begin -/

namespace Entry

variable {N : String → Prop} {s : Surroundings} {e : Entry}

/-- An entry that has lost all that a new build must not take over. -/
def stripped (e : Entry) : Entry :=
  { e with current := .unset, infoTime := .unset, outputTime := .unset, freshness := .unset }

/-- What is left can be relied on. -/
theorem Rereadable.stripped (h : e.Rereadable N s) : e.stripped.Reliable N s where
  seen := .inl rfl
  faithful := h.unlooked.forgotten.faithful.of_same_pieces rfl rfl rfl rfl rfl rfl rfl rfl rfl rfl rfl
    rfl
  legible := h.legible.congr rfl rfl rfl
  graspable := h.graspable.congr rfl rfl rfl
  recent hset := absurd hset (by simp [Entry.stripped, Stamp.isSet])
  timely _ ht := absurd ht (by simp [Entry.stripped, Freshness.time?])

end Entry

/-- A new project with the settings of a project. -/
def Project.renewed (p : Project) : Project :=
  { ofConfig p.config p.dir with
    resolvers := p.resolvers
    encoder := p.encoder
    catalogue := p.catalogue
    reporting := p.reporting
    output := { Output.empty with failing := p.output.failing } }

namespace Session

variable {N : String → Prop} {s : Session}

/-- A new session on the same disk, with the same settings. -/
def renewed (s : Session) : Session := start s.disk s.project.renewed

/-- What a session has behind it. -/
def past (s : Session) (N : String → Prop) (hplain : s.project.config.spriteMerge = false)
    (hone : ∀ a b, N a → N b → Cache.keyOf s.project.dir a = Cache.keyOf s.project.dir b → a = b) :
    Past :=
  { config := s.project.config
    plain := hplain
    dir := s.project.dir
    names := N
    one := hone
    cache := s.cache
    log := s.project.log
    writes := s.project.output.writes }

/-- When all maps are cleared a project is a new one with a past. -/
private theorem recalls_begun {past : Past} {p : Project} (hconfig : past.config = p.config)
    (hdir : past.dir = p.dir) (hlog : past.log = p.log) (hwrites : past.writes = p.output.writes)
    (hcatalogue : p.catalogue = none) :
    Project.Recalls past p.clearMaps.beginCycle p.renewed.beginCycle := by
  refine ⟨⟨p.clearMaps.beginCycle, ?_⟩, ?_, ?_, ?_⟩
  · have hlog' : past.log ++ [] = p.log := by rw [List.append_nil, hlog]
    have hwrites' : past.writes ++ [] = p.output.writes := by rw [List.append_nil, hwrites]
    have hbundle : p.clearMaps.config.bundle = p.config.bundle := rfl
    have hbundle' : p.renewed.config.bundle = p.config.bundle := rfl
    unfold Project.beginCycle
    simp only [hbundle, hbundle']
    by_cases hnone : (p.config.bundle == .none) = true
    · rw [if_pos hnone, if_pos hnone]
      simp only [Project.behind, Project.renewed, Project.ofConfig, Output.empty, hlog', hwrites']
      rfl
    · rw [if_neg hnone, if_neg hnone]
      simp only [Project.behind, Project.renewed, Project.ofConfig, Output.empty, Project.shorten,
        hlog', hwrites']
      rfl
  · exact (Project.quiet_beginCycle p.renewed).config.trans hconfig.symm
  · exact (Project.quiet_beginCycle p.renewed).dir.trans hdir.symm
  · unfold Project.beginCycle
    simp only
    split
    · exact hcatalogue
    · exact hcatalogue

private theorem begun_of_forced (h : s.isForced = true) :
    s.begun = { s with
      cache := s.cache.forceRebuild
      messages := .empty
      project := s.project.clearMaps.beginCycle
      configText := some s.project.config.toJson
      force := false
      phase := .entrySelection } := by
  unfold begun
  rw [h]
  rfl

theorem ready_of_empty {w : Workspace} (hdest : w.destination = none) (h : w.cache.entries = []) :
    Ready w := by
  have hnone : ∀ i, ¬ i < w.cache.entries.length := by simp [h]
  exact ⟨hdest, ⟨fun i hi => absurd hi (hnone i), fun i hi => absurd hi (hnone i),
    fun i hi => absurd hi (hnone i)⟩, fun i hi => absurd hi (hnone i), fun i hi => absurd hi (hnone i),
    fun i _ hi => absurd hi (hnone i)⟩

/-- Where a forced rebuild and a first build look for what is stale, they are twins. -/
theorem Lived.twins (h : Lived N s) (hforced : s.isForced = true)
    (hplain : s.project.config.spriteMerge = false)
    (hone : ∀ a b, N a → N b → Cache.keyOf s.project.dir a = Cache.keyOf s.project.dir b → a = b)
    (huntranslated : s.project.catalogue = none) :
    Twins (s.past N hplain hone) s.clearProbes.begun.unmarked.toWorkspace
      s.renewed.begun.unmarked.toWorkspace := by
  have hbegun := begun_of_forced (s := s.clearProbes) hforced
  have hreread := h.rereadable
  have hcache : s.clearProbes.begun.unmarked.cache = s.cache.mapEntries Entry.stripped := by
    rw [hbegun]
    change ((s.cache.mapEntries _).mapEntries _).mapEntries _ = _
    unfold Cache.mapEntries
    simp only [List.map_map]
    rfl
  refine ⟨⟨?_, ?_, ?_, ?_⟩, ⟨rfl, hreread.dated, fun i _ hi => absurd hi (Nat.not_lt_zero i),
    fun i hi => absurd hi (Nat.not_lt_zero i)⟩, ?_, ?_, ?_, fun key => ?_⟩
  · rw [hbegun]
    exact hreread.destination
  · rw [hbegun]
    exact hreread.dated
  · intro i j hi hj hkey
    rw [hcache, Cache.length_mapEntries] at hi hj
    rw [hcache, Cache.entry_mapEntries _ hi, Cache.entry_mapEntries _ hj] at hkey
    exact hreread.distinct i j hi hj hkey
  · intro i hi
    have hsurroundings : s.clearProbes.begun.unmarked.surroundings = s.surroundings := by
      rw [hbegun]
      change Surroundings.mk _ s.project.clearMaps.beginCycle.config
        s.project.clearMaps.beginCycle.dir = _
      rw [(Project.quiet_beginCycle _).config, (Project.quiet_beginCycle _).dir]
      rfl
    rw [hcache, Cache.length_mapEntries] at hi
    rw [hcache, hsurroundings, Cache.entry_mapEntries _ hi]
    exact (hreread.entries i hi).stripped
  · rw [hbegun]
    rfl
  · rw [hbegun]
    rfl
  · rw [hbegun]
    exact recalls_begun rfl rfl rfl rfl huntranslated
  · have hnone : s.renewed.begun.unmarked.cache.at? key = none := rfl
    rw [hnone, hcache, Cache.at?_mapEntries (f := Entry.stripped) (fun _ => rfl)]
    change Entry.Matched _ (s.cache.at? key) _ _
    cases s.cache.at? key with
    | none => exact .absent
    | some e => exact .alone rfl rfl rfl fun hsome => ⟨e, rfl, hsome⟩

/-! ## The two cycles -/

/-- The session in which a cycle has loaded its program, if it loads one. -/
def loaded? (s : Session) : Option Session :=
  match select s with
  | .error _ _ => none
  | .ok (_, mains, stale) t =>
    if stale.isEmpty then none
    else
      match loadChecked mains t with
      | .error _ _ => none
      | .ok _ u => some u

/-- What a session has of a forced rebuild, from where it was before, and what another one has of its
first build. -/
structure Alike (s t t' : Session) : Prop where
  messages : t.messages = t'.messages
  modules : t.project.modules = t'.project.modules
  depJs : t.project.depJs = t'.project.depJs
  depAssets : t.project.depAssets = t'.project.depAssets
  emitted : t.project.emitted = t'.project.emitted
  assetValues : t.project.assetValues = t'.project.assetValues
  cssToLink : t.project.cssToLink = t'.project.cssToLink
  bundleJs : t.project.bundleJs = t'.project.bundleJs
  log : t.project.log = s.project.log ++ t'.project.log
  writes : t.project.output.writes = s.project.output.writes ++ t'.project.output.writes

/-- Two cycles that go the same way: both return the same report, or end early in the same way. -/
inductive SameRun (s : Session) :
    EStateM.Result Failure Session CycleReport → EStateM.Result Failure Session CycleReport → Prop
  where
  | returned {report : CycleReport} {t t' : Session} (h : Alike s t t') :
      SameRun s (.ok report t) (.ok report t')
  | ended {failure : Failure} {t t' : Session} (h : Alike s t t') :
      SameRun s (.error failure t) (.error failure t')

private theorem alike_of_rel {past : Past} {t t' : Session} (h : past.sessions.rel t t')
    (hlog : past.log = s.project.log) (hwrites : past.writes = s.project.output.writes) :
    Alike s t t' := by
  obtain ⟨q, hq⟩ := h.1.project.behind
  refine ⟨h.2.symm, ?_, ?_, ?_, ?_, ?_, ?_, ?_, ?_, ?_⟩
  all_goals rw [hq]
  all_goals first
    | rfl
    | rw [← hlog]; rfl
    | rw [← hwrites]; rfl

theorem SameRun.alike {run first : EStateM.Result Failure Session CycleReport}
    (h : SameRun s run first) : Alike s (Step.final run) (Step.final first) := by
  cases h with
  | returned h => exact h
  | ended h => exact h

/-- What a new session has loaded, from what it has selected. -/
private theorem loaded?_renewed {stale program : List String} {t u : Session}
    (hselect : (liftM (selectStale false s.project.mains) : Step Session (List String))
      s.renewed.begun.unmarked = .ok stale t) (hne : stale ≠ [])
    (hload : loadChecked s.project.mains t = .ok program u) : s.renewed.loaded? = some u := by
  obtain ⟨w, hw, rfl⟩ := (liftWorkspace_ok_iff _ _ _ _).mp hselect
  have hpass : staleMains s.renewed.isForced s.renewed.begun.project.mains
      s.renewed.begun.toWorkspace = .ok stale w := by
    rw [begun_mains]
    exact hw
  have hrun : select s.renewed
      = .ok (false, s.project.mains, stale) { s.renewed.begun.unmarked with toWorkspace := w } :=
    select_ok_iff.mpr ⟨rfl, (begun_mains s.renewed).symm, w, hpass, rfl⟩
  have hsome : stale.isEmpty = false := by simpa using hne
  unfold loaded?
  rw [hrun]
  simp only [hsome, Bool.false_eq_true, if_false, hload]

/-- A forced rebuild does what a first build does. -/
theorem Lived.rebuilt (h : Lived N s) (hforced : s.isForced = true)
    (hplain : s.project.config.spriteMerge = false) (huntranslated : s.project.catalogue = none)
    (hone : ∀ a b, N a → N b → Cache.keyOf s.project.dir a = Cache.keyOf s.project.dir b → a = b)
    (hmains : ∀ main ∈ s.project.mains, N main)
    (himports : ∀ name ∈ (Step.final (compile s.renewed)).imports, N name)
    (hspelt : (Step.final (compile s.renewed)).SpeltAs s.cache)
    (hover : ∀ u, s.renewed.loaded? = some u → u.messages.hasErrors = false →
      u.Overridable s.project.config s.cache) :
    SameRun s (Session.cycle s) (compile s.renewed) := by
  rw [cycle_eq]
  have htwins := h.twins hforced hplain hone huntranslated
  have hready : Ready s.clearProbes.begun.unmarked.toWorkspace :=
    (h.ready hforced).of_marks (Frame.moves_of_law (Frame.walking_marks.unmark _)
      (h.ready hforced).destination)
  have hready' : Ready s.renewed.begun.unmarked.toWorkspace := ready_of_empty rfl rfl
  have hunwritten : s.renewed.begun.unmarked.toWorkspace.Unwritten :=
    fun i hi => absurd hi (Nat.not_lt_zero i)
  have hmessages : s.renewed.begun.unmarked.messages = s.clearProbes.begun.unmarked.messages := by
    rw [begun_of_forced (s := s.clearProbes) hforced]
    rfl
  have hleft : compile s.clearProbes = proceed true s.project.mains s.clearProbes.begun.unmarked := by
    rw [compile_eq_proceed, begun_mains]
    exact congrArg (fun force => proceed force s.project.mains _) hforced
  have hright : compile s.renewed = proceed false s.project.mains s.renewed.begun.unmarked := by
    rw [compile_eq_proceed, begun_mains]
    rfl
  have hlock := @Past.lockstep_proceed (s.past N hplain hone) s.project.mains hmains
  have hfine : (s.past N hplain hone).sessions.fine (Step.final (compile s.renewed)) := by
    refine ⟨?_, himports, hspelt⟩
    have hlaw := (hlock.right s.renewed.begun.unmarked).final
    rw [hright]
    exact hlaw.2.2.1
  have hends := hlock.run _ _ ⟨htwins, hmessages⟩ ⟨⟨hready, hready', hunwritten⟩, ?_⟩
    (by rw [← hright]; exact hfine)
  · rw [← hleft, ← hright] at hends
    generalize compile s.clearProbes = run at hends
    generalize compile s.renewed = first at hends
    cases hends with
    | ok hrel hsame =>
      obtain rfl := hsame
      exact .returned (alike_of_rel hrel rfl rfl)
    | error hrel => exact .ended (alike_of_rel hrel rfl rfl)
  · exact fun stale t' hstale hne program u hload herrors =>
      hover u (loaded?_renewed hstale hne hload) herrors

/-! ## Sessions that build again -/

/-- The pair was built, and everything is to be built anew. -/
def pairAgain : Session :=
  forceNext (Step.final (compile (start pairDisk (entryProject ["a.ts"]))))

private theorem speltAs_of_entries {w : Workspace} {before : Cache}
    (h : ∀ o ∈ before.entries, ∀ e ∈ w.cache.entries, e.key = o.key → e.fullName = o.fullName) :
    w.SpeltAs before := by
  intro key o e ho he
  obtain ⟨i, hi, rfl, hkey⟩ := Cache.at?_some ho
  obtain ⟨j, hj, rfl, hkey'⟩ := Cache.at?_some he
  exact h _ (Cache.entry_mem hi) _ (Cache.entry_mem hj) (hkey'.trans hkey.symm)

theorem rebuilt_pairAgain : pairAgain.isForced = true ∧
    SameRun pairAgain (Session.cycle pairAgain) (compile pairAgain.renewed) := by
  have hdated : pairDisk.Dated :=
    (Disk.changes_write _ _ _).dated ((Disk.changes_write _ _ _).dated Disk.dated_empty)
  have hstart : Lived (fun name => name ∈ ["a.ts", "b.ts"])
      (start pairDisk (entryProject ["a.ts"])) := .start _ hdated
  have hlived : Lived _ pairAgain := (hstart.cycle (by decide +kernel) (by decide +kernel)).force
  have hagain : pairAgain.isForced = true ∧ pairAgain.project.config.spriteMerge = false ∧
      pairAgain.project.catalogue.isNone = true ∧
      pairAgain.project.config.constantOverrides.toList = [] ∧
      (∀ a ∈ ["a.ts", "b.ts"], ∀ b ∈ ["a.ts", "b.ts"],
        Cache.keyOf pairAgain.project.dir a = Cache.keyOf pairAgain.project.dir b → a = b) ∧
      ∀ main ∈ pairAgain.project.mains, main ∈ ["a.ts", "b.ts"] := by decide +kernel
  have hfirst : (∀ name ∈ (Step.final (compile pairAgain.renewed)).imports,
        name ∈ ["a.ts", "b.ts"]) ∧
      ∀ old ∈ pairAgain.cache.entries, ∀ e ∈ (Step.final (compile pairAgain.renewed)).cache.entries,
        e.key = old.key → e.fullName = old.fullName := by decide +kernel
  obtain ⟨hforced, hplain, hnone, hvalues, hnames, hmains⟩ := hagain
  obtain ⟨himports, hspelt⟩ := hfirst
  refine ⟨hforced, hlived.rebuilt hforced hplain (Option.isNone_iff_eq_none.mp hnone)
    (fun a b ha hb => hnames a ha b hb) hmains himports (speltAs_of_entries hspelt)
    fun u _ _ m hm => ?_⟩
  rw [hvalues] at hm
  exact absurd hm List.not_mem_nil

/-- An entry file that refers to an image. -/
def logoDisk : Disk :=
  (Disk.empty.write "/p/a.ts" (Text.toBytes "b.asset(\"logo.png\");\n")).write "/p/logo.png"
    (Text.toBytes "png")

/-- Before the first cycle the project is to be merged into one file. -/
def lateMerge : Session :=
  let project := entryProject ["a.ts"]
  { start logoDisk project with
    project := { project with config := { project.config with bundle := .merged } } }

/-- A script, and a file that imports it. -/
def scriptDisk : Disk :=
  (Disk.empty.write "/p/a.ts" (Text.toBytes "import \"./lib\";\n")).write "/p/lib.js"
    (Text.toBytes "exports.y = 1;\n")

/-- A project that has a value for a constant of the script. -/
def valueProject (main : String) : Project :=
  let constants : Constants := OrderedMap.ofList [("X", .null)]
  .ofConfig { Config.default with main := [main], constantOverrides := .ofList [("lib", constants)] }
    "/p"

/-- The script was an entry file, and now the file that imports it is. -/
def formerEntry : Session :=
  let s := Step.final (Session.cycle (start scriptDisk (valueProject "lib.js")))
  { s with project := { s.project with config := (valueProject "a.ts").config } }

/-- An entry file was built and cannot be read any more, when everything is to be built anew. -/
def hiddenEntry : Session :=
  let s := Step.final (Session.cycle (start loneDisk (entryProject ["a.ts"])))
  forceNext { s with disk := s.disk.setUnreadable ["/p/a.ts"] }

/-- In three cases a build is not what it would be in a new session. A configuration that is changed
before the first cycle does not have everything built anew, so the image keeps its name. The values for
constants are looked for in a script that was read when it was an entry file. And a text that was read
is kept although the file cannot be read any more. -/
theorem rebuilt_apart :
    ¬SameRun lateMerge (Session.cycle lateMerge) (compile lateMerge.renewed) ∧
      (formerEntry.isForced = true ∧
        ¬SameRun formerEntry (Session.cycle formerEntry) (compile formerEntry.renewed)) ∧
      hiddenEntry.isForced = true ∧
        ¬SameRun hiddenEntry (Session.cycle hiddenEntry) (compile hiddenEntry.renewed) := by
  refine ⟨fun h => ?_, ⟨by decide +kernel, fun h => ?_⟩, by decide +kernel, fun h => ?_⟩
  · have hassets := congrArg OrderedMap.values h.alike.depAssets
    revert hassets
    decide +kernel
  · have hlog := congrArg List.length h.alike.log
    revert hlog
    decide +kernel
  · have hmessages := congrArg Messages.errors h.alike.messages
    revert hmessages
    decide +kernel

end Session

end Bundler

/-
Loading in lockstep.

Two twins load the same program. A search for imports looks at the same files in both, so it finds the
same. Scripts and references are another matter: the workspace with a past may have a script already
and leave it, where the other one reads it. Both then have what would be read. So a script, or the
references of one, may as well be read in both and kept where they are not current
(`Session.refreshScript_eq`, `Session.refreshReferences_eq`), and steps that do so are in lockstep.

What comes out is that both have loaded the same files, which stays so (`Workspace.Pair` with
`Entry.Loaded`), and have the same messages.
-/
import Bundler.Proofs.Overall
import Bundler.Proofs.TwinSteps

set_option autoImplicit false

namespace Bundler

open Workspace Step Coupling

/-! ## Searches -/

namespace Past

variable {past : Past}

theorem steady_exists? (name : String) : Steady past.coupling (exists? name) :=
  (lockstep_existence name).bind fun _ _ => lockstep_ask Entry.found
    (fun _ _ ht hp => Pair.found hp ht) fun _ => Steady.of_pure _

open ModuleSearch

theorem steady_record (key : String) (info : ModuleInfo) :
    Steady past.coupling (record key info) :=
  steady_changeProject (steady_modify (fun _ q => ⟨q, rfl⟩) fun _ => ⟨rfl, rfl, rfl⟩)

theorem steady_recordTakenOver (key base definition js : String) (relative : Bool) :
    Steady past.coupling (recordTakenOver key base definition js relative) :=
  have hadd : Steady past.coupling (changeProject (·.addDepJs js)) :=
    steady_changeProject (steady_modify (fun _ q => ⟨q, rfl⟩) fun _ => ⟨rfl, rfl, rfl⟩)
  hadd.bind fun _ => (steady_record _ _).bind fun _ => Steady.of_pure _

theorem steady_findSource (key base js : String) (relative : Bool) (exts : List String) :
    Steady past.coupling (findSource key base js relative exts) := by
  induction exts with
  | nil => exact Steady.of_pure _
  | cons ext exts ih =>
    refine (steady_exists? _).bind fun b => ?_
    split
    · exact (steady_record _ _).bind fun _ => Steady.of_pure _
    · exact ih

theorem steady_findAt (key base : String) (relative : Bool) :
    Steady past.coupling (findAt key base relative) := by
  have htaken : ∀ definition js, Steady past.coupling (do
      return some (← recordTakenOver key base definition js relative) :
        Step Workspace (Option FoundModule)) := fun definition js =>
    (steady_recordTakenOver _ _ _ _ _).bind fun _ => Steady.of_pure _
  have hscript : Steady past.coupling (do
      if ← exists? (base ++ ".js") then
        return some (← recordTakenOver key base (base ++ ".js") (base ++ ".js") relative)
      return none : Step Workspace (Option FoundModule)) := by
    refine (steady_exists? _).bind fun b => ?_
    split
    · exact htaken _ _
    · exact Steady.of_pure _
  unfold findAt
  refine (steady_findSource _ _ _ _ _).bind fun found => ?_
  split
  · exact Steady.of_pure _
  · refine (steady_exists? _).bind fun b => ?_
    split
    · refine (steady_exists? _).bind fun b => ?_
      split
      · exact htaken _ _
      · exact hscript
    · exact hscript

theorem steady_findIn (specifier : String) (dirs : List String) :
    Steady past.coupling (findIn specifier dirs) := by
  induction dirs with
  | nil => exact Steady.of_pure _
  | cons dir dirs ih =>
    refine (steady_findAt _ _ _).bind fun found => ?_
    split
    · exact Steady.of_pure _
    · exact ih

theorem steady_orSay (specifier file : String) (found : Option FoundModule) :
    Steady past.coupling (orSay specifier file found) := by
  unfold orSay
  split
  · exact (steady_say _).bind fun _ => Steady.of_pure _
  · exact Steady.of_pure _

theorem steady_findRelative (specifier file : String) :
    Steady past.coupling (findRelative specifier file) := by
  have hfind : Steady past.coupling (do
      let base := Path.join (Path.dirname file) specifier
      orSay specifier file (← findAt base base true) : Step Workspace (Option FoundModule)) :=
    (steady_findAt _ _ _).bind fun _ => steady_orSay _ _ _
  unfold findRelative
  split
  · exact (steady_say _).bind fun _ => hfind
  · exact hfind

/-- Looks for the file that a package names in the text of its description. -/
def findIndex (specifier file : String) (text : Option String) :
    Step Workspace (Option FoundModule) :=
  match text with
  | none => return none
  | some text =>
    match readPackage text with
    | .error e => do
      say ("Cannot parse " ++ ("node_modules/" ++ specifier ++ "/package.json") ++ " " ++ e.message)
      return none
    | .ok main => do
      let base := Path.join ("node_modules/" ++ specifier)
        (Path.stripExtension (main.getD "index.js"))
      orSay specifier file (← findAt specifier base false)

theorem steady_findPackage (specifier file : String) :
    Steady past.coupling (findPackage specifier file) := by
  have hread : ∀ text : Option String,
      Steady past.coupling (findIndex specifier file text) := by
    intro text
    unfold findIndex
    split
    · exact Steady.of_pure _
    · split
      · exact (steady_say _).bind fun _ => Steady.of_pure _
      · exact (steady_findAt _ _ _).bind fun _ => steady_orSay _ _ _
  exact (lockstep_content _).bind fun _ _ => lockstep_ask Entry.text?
    (fun _ _ ht hp => Pair.text? hp ht) hread

theorem steady_find (specifier file : String) :
    Steady past.coupling (find specifier file) := by
  unfold find
  split
  · exact steady_findRelative _ _
  · refine (steady_findIn _ _).bind fun found => ?_
    split
    · exact Steady.of_pure _
    · exact steady_findPackage _ _

theorem steady_findImports (file : String) (specifiers : List String) :
    Steady past.coupling (Session.findImports file specifiers) := by
  induction specifiers with
  | nil => exact Steady.of_pure _
  | cons specifier rest ih =>
    refine (steady_find _ _).bind fun found => ih.bind fun others => ?_
    split
    · exact Steady.of_pure _
    · exact Steady.of_pure _

end Past

/-! ## Scripts and references that are kept where they are not current -/

namespace Entry

variable {N : String → Prop} {s : Surroundings} {e e' : Entry} {disk : Disk} {old : Option Entry}
  {script : Script} {ds : List Diagnostic} {refs : References}

/-- The entry with a script, unless it has a current one. -/
def withScript (script : Script) (ds : List Diagnostic) (e : Entry) : Entry :=
  if e.isSourceCurrent then e
  else { e with script := some script, diagnostics := ds, sourceTime := e.textTime }

/-- The entry with references, unless it has current ones. -/
def withReferences (refs : References) (e : Entry) : Entry :=
  if e.isInfoCurrent then e else { e with references := some refs, infoTime := e.current }

theorem grows_withScript (script : Script) (ds : List Diagnostic) (e : Entry) :
    Grows e (e.withScript script ds) := by
  unfold withScript
  split
  · exact Grows.refl e
  · rename_i hout
    exact ⟨rfl, rfl, fun _ => rfl, fun _ => ⟨rfl, rfl⟩, fun hcur => absurd hcur hout,
      fun _ => ⟨rfl, rfl⟩⟩

theorem grows_withReferences (refs : References) (e : Entry) :
    Grows e (e.withReferences refs) := by
  unfold withReferences
  split
  · exact Grows.refl e
  · rename_i hout
    exact ⟨rfl, rfl, fun _ => rfl, fun _ => ⟨rfl, rfl⟩, fun _ => ⟨rfl, rfl, rfl⟩,
      fun hcur => absurd hcur hout⟩

theorem isSourceCurrent_withScript (htext : e.isTextCurrent = true) :
    (e.withScript script ds).isSourceCurrent = true := by
  unfold withScript
  split
  · assumption
  · exact isSourceCurrent_iff.mpr ⟨htext, rfl, script, rfl⟩

theorem isInfoCurrent_withReferences (htext : e.isTextCurrent = true) :
    (e.withReferences refs).isInfoCurrent = true := by
  unfold withReferences
  split
  · assumption
  · exact isInfoCurrent_iff.mpr ⟨(isTextCurrent_iff.mp htext).1, rfl, refs, rfl⟩

theorem working_withScript {file text : String} (hN : N file) (hkey : e.key = Cache.keyOf s.dir file)
    (htext : e.text? = some text) (hread : Script.read file text = .ok (script, ds)) :
    Working N s e (e.withScript script ds) := by
  unfold withScript
  split
  · exact Working.refl N s e
  · rename_i hout
    have hcur : e.isTextCurrent = true := by rw [isTextCurrent_eq, htext]; rfl
    have hsome : e.text = some text := by
      unfold text? at htext
      rw [if_pos hcur] at htext
      exact htext
    have hparse : Frame.Parsing N s e file script ds :=
      ⟨hN, hkey, hcur, by simpa using hout, by rw [hsome]; exact hread⟩
    exact ⟨.inl (.loading (.script hparse)), rfl, rfl⟩

theorem Twin.withScript (h : Twin disk old e e') (htext : e.isTextCurrent = true)
    (htext' : e'.isTextCurrent = true) :
    Twin disk old (e.withScript script ds) (e'.withScript script ds) := by
  have hkeep : ∀ d : Entry, (d.withScript script ds).infoTime = d.infoTime ∧
      (d.withScript script ds).references = d.references ∧
      (d.withScript script ds).outputTime = d.outputTime := by
    intro d
    unfold Entry.withScript
    split <;> exact ⟨rfl, rfl, rfl⟩
  obtain ⟨hinfo, hrefs, hout⟩ := hkeep e
  obtain ⟨hinfo', hrefs', hout'⟩ := hkeep e'
  have hs : (e.withScript script ds).isSourceCurrent = true := isSourceCurrent_withScript htext
  have hs' : (e'.withScript script ds).isSourceCurrent = true := isSourceCurrent_withScript htext'
  have hsome : (e'.withScript script ds).script.isSome = true := by
    exact Option.isSome_iff_exists.mpr (isSourceCurrent_iff.mp hs').2.2
  refine ⟨?_, ?_, ?_, ?_, fun _ => ⟨hs, hs'⟩, fun _ => .inl hsome⟩
  · rw [(grows_withScript script ds e).fullName, (grows_withScript script ds e').fullName, h.fullName]
  · rw [hinfo, hinfo', h.infoTime]
  · rw [hinfo, hrefs, hrefs']
    exact h.references
  · rw [isDue_congr (grows_withScript script ds e).fullName hout,
      isDue_congr (grows_withScript script ds e').fullName hout', h.due]

theorem Twin.withReferences (h : Twin disk old e e') (hseen : e.Seen disk) (hseen' : e'.Seen disk)
    (hset : e.current.isSet = true) (hset' : e'.current.isSet = true) :
    Twin disk old (e.withReferences refs) (e'.withReferences refs) := by
  have hsame := h.isInfoCurrent hseen hseen' hset hset'
  unfold Entry.withReferences
  rw [hsame]
  split
  · exact h
  · exact ⟨h.fullName, h.current hseen hseen' hset hset', fun _ => rfl, h.due, h.parsed, h.kept⟩

end Entry

/-- What is looked for when the references of a script are gathered. -/
def References.wanted (script : Script) : List String := script.imports.map Import.specifier

namespace Entry

theorem working_withReferences {N : String → Prop} {s : Surroundings} {e : Entry} {file : String}
    {script : Script} {deps : List (String × String)} {refs : References} {p : Project} (hN : N file)
    (hkey : e.key = Cache.keyOf s.dir file) (hsource : e.isSourceCurrent = true)
    (hscript : e.script = some script) (hfew : deps.length ≤ (References.wanted script).length)
    (hconfig : p.config = s.config) (hdir : p.dir = s.dir)
    (hgather : References.gather script deps (p.resourceName file) = .ok refs) :
    Working N s e (e.withReferences refs) := by
  unfold withReferences
  split
  · exact Working.refl N s e
  · rename_i hout
    rw [References.wanted, List.length_map] at hfew
    exact ⟨.inl (.loading (.references ⟨hN, hkey, hsource, by simpa using hout, hscript, hfew, p,
      hconfig, hdir, hgather⟩)), rfl, rfl⟩

end Entry

namespace Workspace

variable {w : Workspace} {i : Nat} {f g : Entry → Entry}

theorem changeEntry_congr (h : f (w.cache.entry i) = g (w.cache.entry i)) :
    changeEntry i f w = changeEntry i g w := by
  have hcache : w.cache.modify i f = w.cache.modify i g :=
    congrArg (fun entries => { w.cache with entries }) (Cache.entries_modify_congr fun _ => h)
  change EStateM.Result.ok _ { w with cache := w.cache.modify i f } = .ok _ { w with cache := w.cache.modify i g }
  rw [hcache]

theorem changeEntry_same (h : f (w.cache.entry i) = w.cache.entry i) :
    changeEntry i f w = .ok () w := by
  have hcache : w.cache.modify i f = w.cache :=
    congrArg (fun entries => { w.cache with entries }) (Cache.entries_modify_id fun _ => h)
  change EStateM.Result.ok _ { w with cache := w.cache.modify i f } = .ok _ w
  rw [hcache]

end Workspace

namespace Session

variable {N : String → Prop} {w : Workspace} {file text : String} {i : Nat}

/-- Reads a script, and keeps it unless the entry has a current one. -/
def keepScript (file text : String) (id : Nat) : Step Workspace Unit := do
  let (script, ds) ← Script.read file text
  changeEntry id (Entry.withScript script ds)

/-- Gathers the references of a script, and keeps them unless the entry has current ones. -/
def keepReferences (file : String) (script : Script) (id : Nat) : Step Workspace Unit := do
  let deps ← findImports file (References.wanted script)
  let w ← get
  let refs ← References.gather script deps (w.project.resourceName file)
  changeEntry id (Entry.withReferences refs)

/-- A script that is current was read from the text that there is, under the one name of the file. -/
theorem refreshScript_eq (hone : ∀ a b, N a → N b →
      Cache.keyOf w.project.dir a = Cache.keyOf w.project.dir b → a = b)
    (hreliable : (w.cache.entry i).Reliable N w.surroundings) (hN : N file)
    (hkey : (w.cache.entry i).key = Cache.keyOf w.project.dir file)
    (htext : (w.cache.entry i).text? = some text) :
    refreshScript file i w = keepScript file text i w := by
  have hcur : (w.cache.entry i).isTextCurrent = true := by rw [Entry.isTextCurrent_eq, htext]; rfl
  have hsome : (w.cache.entry i).text = some text := by
    unfold Entry.text? at htext
    rw [if_pos hcur] at htext
    exact htext
  have hentry : entry i w = .ok (w.cache.entry i) w := (entry_ok_iff _ _ _ _).mpr ⟨rfl, rfl⟩
  unfold refreshScript keepScript
  rw [bind_of_ok hentry]
  by_cases hsource : (w.cache.entry i).isSourceCurrent = true
  · simp only [hsource, Bool.not_true, Bool.false_eq_true, if_false]
    obtain ⟨script, hread⟩ : ∃ script ds, Script.read file text = .ok (script, ds) := by
      obtain ⟨htextcur, hstime, script, hscript⟩ := Entry.isSourceCurrent_iff.mp hsource
      obtain ⟨hfound, httime, -⟩ := Entry.isTextCurrent_iff.mp htextcur
      obtain ⟨t, hat, hmod⟩ := hreliable.seen.at_of_found hfound
      have htime : (w.cache.entry i).textTime = .at t := httime.trans hat
      obtain ⟨file', bytes, hN', hkey', hbytes, hread⟩ := hreliable.faithful.fits.script t script
        (hstime.trans htime) hscript hmod
      obtain ⟨bytes', hbytes', rfl⟩ := hreliable.faithful.fits.text t text htime hsome hmod
      obtain rfl : file' = file := hone file' file hN' hN (hkey'.symm.trans hkey)
      rw [hbytes] at hbytes'
      obtain rfl := Option.some.inj hbytes'
      exact ⟨script, _, hread⟩
    obtain ⟨ds, hread⟩ := hread
    rw [hread]
    refine (changeEntry_same ?_).symm
    unfold Entry.withScript
    rw [if_pos hsource]
  · have hout : (w.cache.entry i).isSourceCurrent = false := by simpa using hsource
    simp only [hout, Bool.not_false, if_true, hsome, Option.getD_some]
    refine bind_congr_at rfl fun ⟨script, ds⟩ v hread => ?_
    obtain ⟨-, rfl⟩ := (lift_ok_iff _ _ _ _).mp hread
    refine changeEntry_congr ?_
    unfold Entry.withScript
    rw [if_neg hsource]

/-- References that are not current are still so when the imports have been looked for. -/
theorem refreshReferences_eq {script : Script} (hdest : w.destination = none)
    (hi : i < w.cache.entries.length) (hsource : (w.cache.entry i).isSourceCurrent = true)
    (hscript : (w.cache.entry i).script = some script)
    (hout : (w.cache.entry i).isInfoCurrent = false) :
    refreshReferences file i w = keepReferences file script i w := by
  have hentry : ∀ v : Workspace, entry i v = .ok (v.cache.entry i) v :=
    fun v => (entry_ok_iff _ _ _ _).mpr ⟨rfl, rfl⟩
  have hwanted : (((w.cache.entry i).script?.map Script.imports).getD []).map Import.specifier
      = References.wanted script := by
    unfold Entry.script? References.wanted
    rw [if_pos hsource, hscript]
    rfl
  unfold refreshReferences keepReferences
  rw [bind_of_ok (hentry w)]
  simp only [hout, Bool.not_false, if_true]
  rw [hwanted]
  refine bind_congr_at rfl fun deps v hdeps => ?_
  have hread : Entry.Read w.surroundings (w.cache.entry i) (v.cache.entry i) :=
    (Frame.moves_of_obeys (obeys_findImports Frame.looking_reading file _) hdest hdeps).cache.old i hi
  have hget : (get : Step Workspace Workspace) v = .ok v v := rfl
  rw [bind_of_ok hget, bind_of_ok hget, bind_of_ok (hentry v), hread.script, hscript]
  refine bind_congr_at rfl fun refs u hrefs => ?_
  obtain ⟨-, rfl⟩ := (lift_ok_iff _ _ _ _).mp hrefs
  refine changeEntry_congr ?_
  have hout' : ¬ (v.cache.entry i).isInfoCurrent = true := by
    rw [hread.isInfoCurrent (Entry.isSet_of_isTextCurrent
      (Entry.isTextCurrent_of_isSourceCurrent hsource)), hout]
    simp
  unfold Entry.withReferences
  rw [if_neg hout']

end Session

/-! ## Files in lockstep -/

namespace Frame

/-- References that are recorded where none were current leave what is current. -/
private theorem grows_recorded {w v : Workspace} {i : Nat} {refs : References}
    (hm : grows.law.moves w v) (hout : (w.cache.entry i).isInfoCurrent = false) :
    grows.law.moves w (v.changed i fun e => { e with references := some refs, infoTime := e.current }) := by
  have hone : ∀ e d : Entry, e.isInfoCurrent = false → Entry.Grows e d →
      Entry.Grows e { d with references := some refs, infoTime := d.current } :=
    fun e d he hg => ⟨hg.fullName, hg.key, hg.seen, hg.text, hg.source,
      fun hcur => absurd hcur (by simp [he])⟩
  refine ⟨hm.1, hm.2.1, hm.2.2.1, fun hdest => ?_⟩
  obtain ⟨hdisk, -, hcache⟩ := hm.2.2.2 hdest
  have hkeys : (v.cache.modify i fun e =>
      { e with references := some refs, infoTime := e.current }).keys = v.cache.keys :=
    Cache.keys_modify fun _ => rfl
  refine ⟨hdisk, trivial, ⟨?_, fun j hj => ?_, fun j hj hj' => ?_, fun hd => ?_⟩⟩
  · change w.cache.keys <+: (v.cache.modify i _).keys
    rw [hkeys]
    exact hcache.keys
  · have hjv : j < v.cache.entries.length := Nat.lt_of_lt_of_le hj hcache.longer
    have hold := hcache.old j hj
    change Entry.Grows _ ((v.cache.modify i _).entry j)
    rw [Cache.entry_modify _ hjv]
    split
    · rename_i hij
      subst hij
      exact hone _ _ hout hold
    · exact hold
  · change j < (v.cache.modify i _).entries.length at hj'
    rw [Cache.length_modify] at hj'
    obtain ⟨name, hnew⟩ := hcache.new j hj hj'
    refine ⟨name, ?_⟩
    change Entry.Grows _ ((v.cache.modify i _).entry j)
    rw [Cache.entry_modify _ hj']
    split
    · exact hone _ _ rfl hnew
    · exact hnew
  · have hkeep : Cache.Advances w.project.dir (fun _ _ => True) v.cache (v.cache.modify i fun e =>
        { e with references := some refs, infoTime := e.current }) :=
      Cache.Advances.modify (fun _ => trivial) (fun _ => rfl) fun _ => trivial
    exact hkeep.distinct (hcache.distinct hd)

theorem loading_grows (N : String → Prop) : Bundler.Loading grows.law N :=
  loading looking_grows
    (fun s e file script ds h => by
      have hg := Entry.grows_withScript script ds e
      unfold Entry.withScript at hg
      rw [if_neg (by simp [h.outdated])] at hg
      exact hg)
    fun s e file script deps refs h => by
      have hg := Entry.grows_withReferences refs e
      unfold Entry.withReferences at hg
      rw [if_neg (by simp [h.outdated])] at hg
      exact hg

end Frame

namespace Past

open Session

variable {past : Past} {file text : String} {script : Script} {i i' : Nat}

private theorem obeys_refreshScript_coupling (file : String) (i : Nat) :
    Obeys past.coupling.law (refreshScript file i) := by
  intro w
  unfold refreshScript
  refine Law.Allows.bind (obeys_entry i w) fun e t he => ?_
  obtain ⟨rfl, rfl⟩ := (entry_ok_iff _ _ _ _).mp he
  split
  · rename_i hout
    refine Law.Allows.bind (obeys_lift _ w) fun r t hr => ?_
    obtain ⟨-, rfl⟩ := (lift_ok_iff _ _ _ _).mp hr
    obtain ⟨script, ds⟩ := r
    have hg := Entry.grows_withScript script ds (w.cache.entry i)
    unfold Entry.withScript at hg
    rw [if_neg (by simpa using hout)] at hg
    exact Frame.grows_changed w i (fun _ => rfl) hg
  · exact obeys_pure _ w

private theorem obeys_refreshReferences_coupling (file : String) (i : Nat) :
    Obeys past.coupling.law (refreshReferences file i) := fun _ =>
  allows_refreshReferences (Looking.free Frame.looking_grows) fun _ _ _ _ hout _ _ _ hm =>
    Frame.grows_recorded hm hout

/-- A script is read from one text under one name. -/
private theorem lockstep_keepScript (hN : past.names file) :
    Lockstep past.coupling (Pair (fun e => e.text? = some text) file i i')
      (keepScript file text i) (keepScript file text i')
      fun w w' _ _ => Pair (fun e => e.isSourceCurrent = true) file i i' w w' := by
  refine Lockstep.lift_bind fun ⟨script, ds⟩ hread => lockstep_changeEntry
    (P := fun e => e.text? = some text) (Entry.grows_withScript script ds) (Entry.grows_withScript script ds) fun w w' hw hp => ?_
  have hcur : ∀ e : Entry, e.text? = some text → e.isTextCurrent = true := by
    intro e he
    rw [Entry.isTextCurrent_eq, he]
    rfl
  have hleft := hcur _ hp.holds
  have hright := hcur _ hp.holds'
  exact ⟨hp, Entry.working_withScript hN (Cache.find?_some hp.left).2 hp.holds hread,
    Entry.working_withScript hN (Cache.find?_some hp.right).2 hp.holds' hread,
    (hp.twin hw).withScript hleft hright, Entry.isSourceCurrent_withScript hleft,
    Entry.isSourceCurrent_withScript hright⟩

theorem lockstep_refreshScript (hN : past.names file) :
    Lockstep past.coupling (Pair (fun e => e.text? = some text) file i i')
      (refreshScript file i) (refreshScript file i')
      fun w w' _ _ => Pair (fun e => e.isSourceCurrent = true) file i i' w w' := by
  refine Lockstep.of_eq (obeys_refreshScript_coupling file i) (obeys_refreshScript_coupling file i')
    fun w w' hw hp => ⟨_, keepScript file text i, keepScript file text i', hp, ?_, ?_,
      lockstep_keepScript hN⟩
  · have hdir : w.project.dir = past.dir := hw.dir.symm.trans hw.project.dir
    refine refreshScript_eq (fun a b ha hb hab => past.one a b ha hb ?_) (hp.reliable hw).1 hN
      (Cache.find?_some hp.left).2 hp.holds
    rw [← hdir, hab]
  · refine refreshScript_eq (fun a b ha hb hab => past.one a b ha hb ?_)
      (hw.right.entries i' (Cache.find?_some hp.right).1) hN (Cache.find?_some hp.right).2 hp.holds'
    rw [← hw.project.dir, hab]

/-- What is known of a file whose references are gathered. -/
private def Parsed (script : Script) (e : Entry) : Prop :=
  e.isSourceCurrent = true ∧ e.script = some script

private theorem stable_parsed : past.coupling.Stable (Pair (Parsed script) file i i') :=
  stable_pair fun e e' hg h => ⟨hg.isSourceCurrent h.1, by rw [(hg.source h.1).1, h.2]⟩

/-- References are gathered of one script, with the imports that were found. -/
private theorem lockstep_keepReferences (hN : past.names file) :
    Lockstep past.coupling (Pair (Parsed script) file i i')
      (keepReferences file script i) (keepReferences file script i')
      fun w w' _ _ => Pair Entry.Loaded file i i' w w' := by
  have hfind : Lockstep past.coupling (Pair (Parsed script) file i i')
      (findImports file (References.wanted script)) (findImports file (References.wanted script))
      fun w w' deps deps' => deps = deps' ∧ (Pair (Parsed script) file i i' w w' ∧
        deps.length ≤ (References.wanted script).length) := by
    have hkeep : Lockstep past.coupling (Pair (Parsed script) file i i')
        (findImports file (References.wanted script)) (findImports file (References.wanted script))
        fun w w' deps deps' => deps = deps' ∧ Pair (Parsed script) file i i' w w' :=
      (steady_findImports file (References.wanted script)).keeping stable_parsed
    have hone := hkeep.also (P := fun _ _ => True)
      (Q := fun _ _ deps _ => deps.length ≤ (References.wanted script).length)
      fun _ _ _ _ _ _ _ hrun _ => length_findImports hrun
    exact hone.conseq (fun _ _ _ hp => ⟨hp, trivial⟩) fun _ _ _ _ _ hp => ⟨hp.1.1, hp.1.2, hp.2⟩
  refine hfind.bind_same fun deps => ?_
  have hgather : ∀ resolve, Lockstep past.coupling
      (fun w w' => (Pair (Parsed script) file i i' w w' ∧
        deps.length ≤ (References.wanted script).length) ∧
        w.project.resourceName file = resolve ∧ w'.project.resourceName file = resolve)
      (do
        let refs ← References.gather script deps resolve
        changeEntry i (Entry.withReferences refs))
      (do
        let refs ← References.gather script deps resolve
        changeEntry i' (Entry.withReferences refs))
      fun w w' _ _ => Pair Entry.Loaded file i i' w w' := by
    intro resolve
    refine Lockstep.lift_bind fun refs hrefs => lockstep_changeEntry (P := Parsed script)
      (Entry.grows_withReferences refs) (Entry.grows_withReferences refs)
      fun w w' hw ⟨⟨hp, hfew⟩, hresolve, hresolve'⟩ => ?_
    obtain ⟨hr, hr'⟩ := hp.reliable hw
    have hset : ∀ e : Entry, e.isSourceCurrent = true → e.current.isSet = true := fun e he =>
      Entry.isSet_of_isTextCurrent (Entry.isTextCurrent_of_isSourceCurrent he)
    have hloaded : ∀ e : Entry, e.isSourceCurrent = true → (e.withReferences refs).Loaded := fun e he =>
      ⟨(Entry.grows_withReferences refs e).isSourceCurrent he,
        Entry.isInfoCurrent_withReferences (Entry.isTextCurrent_of_isSourceCurrent he)⟩
    refine ⟨hp, ?_, ?_, (hp.twin hw).withReferences hr.seen hr'.seen (hset _ hp.holds.1)
      (hset _ hp.holds'.1), hloaded _ hp.holds.1, hloaded _ hp.holds'.1⟩
    · exact Entry.working_withReferences hN (Cache.find?_some hp.left).2 hp.holds.1 hp.holds.2 hfew
        rfl rfl (by rw [hresolve]; exact hrefs)
    · exact Entry.working_withReferences hN (Cache.find?_some hp.right).2 hp.holds'.1 hp.holds'.2 hfew
        rfl rfl (by rw [hresolve']; exact hrefs)
  refine Lockstep.of_get (C := past.coupling) (fun w : Workspace => w.project.resourceName file)
    (fun w w' hw _ => ?_) hgather
  exact recalls_congr hw.project (fun p => p.resourceName file) fun _ => rfl

theorem lockstep_refreshReferences (hN : past.names file) :
    Lockstep past.coupling (Pair (fun e => e.isSourceCurrent = true) file i i')
      (refreshReferences file i) (refreshReferences file i')
      fun w w' _ _ => Pair Entry.Loaded file i i' w w' := by
  refine Lockstep.of_eq (obeys_refreshReferences_coupling file i)
    (obeys_refreshReferences_coupling file i') fun w w' hw hp => ?_
  have hset : ∀ e : Entry, e.isSourceCurrent = true → Looked e := fun e he =>
    Entry.isSet_of_isTextCurrent (Entry.isTextCurrent_of_isSourceCurrent he)
  have hsame : (w'.cache.entry i').isInfoCurrent = (w.cache.entry i).isInfoCurrent :=
    (hp.mono hset).isInfoCurrent hw
  by_cases hinfo : (w.cache.entry i).isInfoCurrent = true
  · have hstop : ∀ (v : Workspace) (j : Nat), (v.cache.entry j).isInfoCurrent = true →
        refreshReferences file j v = (pure () : Step Workspace Unit) v := by
      intro v j hj
      have hentry : entry j v = .ok (v.cache.entry j) v := (entry_ok_iff _ _ _ _).mpr ⟨rfl, rfl⟩
      unfold refreshReferences
      rw [bind_of_ok hentry]
      simp only [hj, Bool.not_true, Bool.false_eq_true, if_false]
    have hboth : Pair Entry.Loaded file i i' w w' :=
      ⟨hp.left, hp.right, ⟨hp.holds, hinfo⟩, hp.holds', by rw [hsame, hinfo]⟩
    exact ⟨Pair Entry.Loaded file i i', pure (), pure (), hboth, hstop w i hinfo,
      hstop w' i' (by rw [hsame, hinfo]), Lockstep.of_pure _ _ fun _ _ _ h => h⟩
  · have hout : (w.cache.entry i).isInfoCurrent = false := by simpa using hinfo
    obtain ⟨hscript, -⟩ := hp.script hw
    obtain ⟨-, -, script, hsome⟩ := Entry.isSourceCurrent_iff.mp hp.holds
    have hsome' : (w'.cache.entry i').script = some script := by rw [hscript, hsome]
    exact ⟨Pair (Parsed script) file i i', keepReferences file script i, keepReferences file script i',
      ⟨hp.left, hp.right, ⟨hp.holds, hsome⟩, hp.holds', hsome'⟩,
      refreshReferences_eq hw.left.destination (Cache.find?_some hp.left).1 hp.holds hsome hout,
      refreshReferences_eq hw.right.destination (Cache.find?_some hp.right).1 hp.holds' hsome'
        (by rw [hsame, hout]), lockstep_keepReferences hN⟩

end Past

/-! ## Sessions in lockstep -/

/-- What the runs of two sessions keep: their workspaces are twins, and their messages are the
same. -/
def Past.sessions (past : Past) : Coupling Session where
  rel s s' := Workspace.Twins past s.toWorkspace s'.toWorkspace ∧ s'.messages = s.messages
  law := past.coupling.law.beneath
  early _ _ := trivial
  fine s := s.toWorkspace.Fine past
  back := Workspace.Fine.back

namespace Past

open Session

variable {past : Past} {α : Type} {file : String} {program mains : List String}
  {pre : Workspace → Workspace → Prop} {post : Workspace → Workspace → α → α → Prop}

theorem stable_beneath (h : past.coupling.Stable pre) :
    past.sessions.Stable fun s s' => pre s.toWorkspace s'.toWorkspace :=
  fun s s' t t' hs hm hm' ht hp =>
    h s.toWorkspace s'.toWorkspace t.toWorkspace t'.toWorkspace hs.1 hm hm' ht.1 hp

/-- Steps of the workspaces as steps of the sessions. -/
theorem lockstep_lift {x x' : Step Workspace α} (h : Lockstep past.coupling pre x x' post) :
    Lockstep past.sessions (fun s s' => pre s.toWorkspace s'.toWorkspace)
      (liftM x : Step Session α) (liftM x' : Step Session α)
      fun t t' a a' => post t.toWorkspace t'.toWorkspace a a' := by
  change Lockstep past.sessions _ (Session.onWorkspace x) (Session.onWorkspace x') _
  exact Lockstep.on (C := past.coupling) (D := past.sessions) (fun _ _ => rfl) (fun _ _ hs => hs.1)
    (fun _ _ _ _ hs hw => ⟨hw, hs.2⟩) (fun _ _ hm => hm) (fun _ hf => hf) h

theorem steady_lift {x : Step Workspace α} (h : Steady past.coupling x) :
    Steady past.sessions (liftM x : Step Session α) := lockstep_lift h

theorem steady_changeMessages (f : Messages → Messages) :
    Steady past.sessions (changeMessages f) :=
  Steady.of_modify (fun s => past.coupling.law.refl s.toWorkspace) fun s s' hs _ =>
    ⟨hs.1, by rw [hs.2]⟩

theorem steady_tell (d : Diagnostic) : Steady past.sessions (tell d) := steady_changeMessages _

/-! ### Loading -/

/-- A file that both have loaded, under one of the names of the past. -/
def Shared (past : Past) (file : String) (w w' : Workspace) : Prop :=
  past.names file ∧ ∃ i i', Pair Entry.Loaded file i i' w w'

theorem stable_loaded {i i' : Nat} : past.coupling.Stable (Pair Entry.Loaded file i i') :=
  stable_pair fun _ _ hg h => hg.loaded h

theorem stable_shared : past.coupling.Stable (past.Shared file) := by
  rintro w w' t t' hs hm hm' ht ⟨hN, i, i', hp⟩
  exact ⟨hN, i, i', stable_loaded w w' t t' hs hm hm' ht hp⟩

/-- What both have brought up to date. -/
private def Brought (past : Past) (file : String) (t t' : Session) (a a' : Option (List String)) :
    Prop :=
  a = a' ∧ ∀ deps, a = some deps → past.Shared file t.toWorkspace t'.toWorkspace ∧
    ∀ dep ∈ deps, past.names dep

/-- The imports of a file that both have loaded. They have names of the past, because in the end
everything that is imported has. -/
private theorem lockstep_answer (hN : past.names file) (i i' : Nat) :
    Lockstep past.sessions (fun s s' => Pair Entry.Loaded file i i' s.toWorkspace s'.toWorkspace)
      (do return some (((← entry i).references?.map References.files).getD []) :
        Step Session (Option (List String)))
      (do return some (((← entry i').references?.map References.files).getD []))
      (Brought past file) := by
  have hlook : ∀ refs : Option References, Lockstep past.sessions
      (fun s s' => Pair Entry.Loaded file i i' s.toWorkspace s'.toWorkspace ∧
        (s.cache.entry i).references? = refs ∧ (s'.cache.entry i').references? = refs)
      (pure (some ((refs.map References.files).getD [])) : Step Session (Option (List String)))
      (pure (some ((refs.map References.files).getD []))) (Brought past file) := by
    intro refs
    refine Lockstep.of_pure_fine _ _ fun s s' _ ⟨hp, _, hrefs'⟩ hfine => ⟨rfl, fun deps hdeps => ?_⟩
    obtain rfl := Option.some.inj hdeps
    refine ⟨⟨hN, i, i', hp⟩, fun dep hdep => hfine.imports dep ?_⟩
    cases refs with
    | none => exact absurd hdep List.not_mem_nil
    | some refs => exact mem_imports hrefs' hdep
  refine Lockstep.observe (C := past.sessions) (v := fun s : Session => s.cache.entry i)
    Entry.references? (fun _ => rfl) (fun _ => rfl) (fun s s' hs hp => ?_) hlook
  exact (hp.mono fun e he => he.isSet).references? hs.1

theorem lockstep_loadFile (hN : past.names file) :
    Lockstep past.sessions free (loadFile file) (loadFile file) (Brought past file) := by
  have hload : ∀ i i' (text : Option String), Lockstep past.sessions
      (fun s s' => Pair (Entry.Asked s.disk) file i i' s.toWorkspace s'.toWorkspace ∧
        (s.cache.entry i).text? = text ∧ (s'.cache.entry i').text? = text)
      (do
        if !text.isSome then
          tell (missingSource file)
          return none
        refreshScript file i
        refreshReferences file i
        return some (((← entry i).references?.map References.files).getD []) :
          Step Session (Option (List String)))
      (do
        if !text.isSome then
          tell (missingSource file)
          return none
        refreshScript file i'
        refreshReferences file i'
        return some (((← entry i').references?.map References.files).getD []))
      (Brought past file) := by
    intro i i' text
    cases text with
    | none =>
      exact ((steady_tell _).of_pre fun _ _ _ _ => trivial).bind fun _ _ =>
        Lockstep.of_pure _ _ fun _ _ _ _ => ⟨rfl, fun _ h => absurd h (by simp)⟩
    | some text =>
      exact ((lockstep_lift (lockstep_refreshScript hN)).of_pre fun _ _ _ ⟨hp, htext, htext'⟩ =>
        ⟨hp.left, hp.right, htext, htext'⟩).bind fun _ _ =>
          (lockstep_lift (lockstep_refreshReferences hN)).bind fun _ _ => lockstep_answer hN i i'
  have hlook : ∀ i i', Lockstep past.sessions
      (fun s s' => Pair (Entry.Asked s.disk) file i i' s.toWorkspace s'.toWorkspace)
      (do
        if !(← entry i).isTextCurrent then
          tell (missingSource file)
          return none
        refreshScript file i
        refreshReferences file i
        return some (((← entry i).references?.map References.files).getD []) :
          Step Session (Option (List String)))
      (do
        if !(← entry i').isTextCurrent then
          tell (missingSource file)
          return none
        refreshScript file i'
        refreshReferences file i'
        return some (((← entry i').references?.map References.files).getD []))
      (Brought past file) := by
    intro i i'
    simp only [Entry.isTextCurrent_eq]
    exact Lockstep.observe (C := past.sessions) (v := fun s : Session => s.cache.entry i)
      Entry.text? (fun _ => rfl) (fun _ => rfl) (fun _ _ hs hp => hp.text? hs.1) (hload i i')
  exact (lockstep_lift (lockstep_content file)).bind fun i i' => hlook i i'

end Past

/-! ### The program -/

namespace Past

open Session

variable {past : Past} {file : String} {program mains : List String}

/-- Files that both have loaded. -/
def Listed (past : Past) (program : List String) (s s' : Session) : Prop :=
  ∀ file ∈ program, past.Shared file s.toWorkspace s'.toWorkspace

theorem stable_listed : past.sessions.Stable (past.Listed program) :=
  fun s s' t t' hs hm hm' ht h file hfile =>
    stable_beneath stable_shared s s' t t' hs hm hm' ht (h file hfile)

private theorem obeys_visit_sessions (depth : Nat) (l : Loaded) (file : String) :
    Obeys past.sessions.law (visit depth l file) := fun s =>
  ((obeys_visit (Frame.loading_grows fun _ => True) depth l file s).beneath :
    Frame.grows.law.beneath.Allows s (visit depth l file s))

private theorem obeys_loadProgram_sessions (mains : List String) :
    Obeys past.sessions.law (loadProgram mains) := fun s =>
  ((obeys_loadProgram (Frame.loading_grows fun _ => True) mains s).beneath :
    Frame.grows.law.beneath.Allows s (loadProgram mains s))

/-- The imports of a file one after the other, given that the visit of each is in lockstep. -/
private theorem lockstep_imports {depth : Nat}
    (hvisit : ∀ l dep, Lockstep past.sessions
      (fun s s' => past.names dep ∧ past.Listed l.program s s') (visit depth l dep)
      (visit depth l dep) fun t t' l₁ l₁' => l₁ = l₁' ∧ past.Listed l₁.program t t') :
    ∀ (ds : List String) (l : Loaded), Lockstep past.sessions
      (fun s s' => (∀ dep ∈ ds, past.names dep) ∧ past.Shared file s.toWorkspace s'.toWorkspace ∧
        past.Listed l.program s s')
      (ds.foldlM (fun l dep => do
        if ← Path.isJs dep then return l else visit depth l dep) l : Step Session Loaded)
      (ds.foldlM (fun l dep => do
        if ← Path.isJs dep then return l else visit depth l dep) l)
      fun t t' l₁ l₁' => l₁ = l₁' ∧ past.Shared file t.toWorkspace t'.toWorkspace ∧
        past.Listed l₁.program t t' := by
  intro ds
  induction ds with
  | nil => exact fun l => Lockstep.of_pure l l fun _ _ _ hp => ⟨rfl, hp.2⟩
  | cons dep ds ih =>
    intro l
    rw [List.foldlM_cons]
    have hone : Lockstep past.sessions (fun s s' => past.names dep ∧ past.Listed l.program s s')
        (do if ← Path.isJs dep then return l else visit depth l dep : Step Session Loaded)
        (do if ← Path.isJs dep then return l else visit depth l dep)
        fun t t' l₁ l₁' => l₁ = l₁' ∧ past.Listed l₁.program t t' := by
      refine Lockstep.lift_bind fun js _ => ?_
      cases js with
      | true => exact Lockstep.of_pure l l fun _ _ _ hp => ⟨rfl, hp.2⟩
      | false => exact hvisit l dep
    have hkeep : past.sessions.Stable fun s s' => (∀ d ∈ ds, past.names d) ∧
        past.Shared file s.toWorkspace s'.toWorkspace :=
      (Coupling.stable_const _).and (stable_beneath stable_shared)
    refine Lockstep.bind_same ((hone.frame hkeep).conseq (fun s s' _ ⟨hds, hfile, hl⟩ =>
      ⟨⟨hds dep List.mem_cons_self, hl⟩, fun d hd => hds d (List.mem_cons_of_mem _ hd), hfile⟩)
      fun t t' l₁ l₁' _ h => ⟨h.1.1, h.2.1, h.2.2, h.1.2⟩) ih

theorem lockstep_visit (depth : Nat) : ∀ (l : Loaded) (file : String), Lockstep past.sessions
    (fun s s' => past.names file ∧ past.Listed l.program s s') (visit depth l file)
    (visit depth l file) fun t t' l₁ l₁' => l₁ = l₁' ∧ past.Listed l₁.program t t' := by
  induction depth with
  | zero => exact fun l file => Lockstep.of_pure l l fun _ _ _ hp => ⟨rfl, hp.2⟩
  | succ depth ih =>
    intro l file
    refine Lockstep.of_eq (obeys_visit_sessions _ l file) (obeys_visit_sessions _ l file)
      fun s s' _ h => ⟨past.Listed l.program, _, _, h.2, rfl, rfl, ?_⟩
    unfold visit
    by_cases hmet : l.met.contains (Text.lower file) = true
    · rw [if_pos hmet]
      exact Lockstep.of_pure l l fun _ _ _ hp => ⟨rfl, hp⟩
    · rw [if_neg hmet]
      refine ((steady_changeMessages _).keeping stable_listed).bind_same fun _ => ?_
      have hload : Lockstep past.sessions (past.Listed l.program) (loadFile file) (loadFile file)
          fun t t' a a' => a = a' ∧ (∀ deps, a = some deps →
            past.Shared file t.toWorkspace t'.toWorkspace ∧ ∀ dep ∈ deps, past.names dep) ∧
            past.Listed l.program t t' :=
        (Lockstep.frame stable_listed (lockstep_loadFile h.1)).conseq (fun _ _ _ hp => ⟨trivial, hp⟩)
          fun _ _ _ _ _ h => ⟨h.1.1, h.1.2, h.2⟩
      refine hload.bind_same fun answer => ?_
      cases answer with
      | none => exact Lockstep.of_pure _ _ fun _ _ _ hp => ⟨rfl, hp.2⟩
      | some deps =>
        refine Lockstep.bind_same ((lockstep_imports ih deps
          { l with met := Text.lower file :: l.met }).of_pre fun s s' _ hp =>
            ⟨(hp.1 deps rfl).2, (hp.1 deps rfl).1, hp.2⟩) fun l₁ => ?_
        refine Lockstep.of_pure _ _ fun _ _ _ hp => ⟨rfl, fun f hf => ?_⟩
        rcases List.mem_append.mp hf with hf | hf
        · exact hp.2 f hf
        · rw [List.mem_singleton.mp hf]
          exact hp.1

/-- The program that both load. -/
theorem lockstep_loadProgram (hmains : ∀ main ∈ mains, past.names main) :
    Lockstep past.sessions (fun s s' => Ready s.toWorkspace ∧ Ready s'.toWorkspace)
      (loadProgram mains) (loadProgram mains)
      fun t t' program program' => program = program' ∧ past.Listed program t t' := by
  have hfold : ∀ (depth : Nat) (ms : List String) (l : Loaded), (∀ m ∈ ms, past.names m) →
      Lockstep past.sessions (past.Listed l.program) (ms.foldlM (visit depth) l)
        (ms.foldlM (visit depth) l)
        fun t t' l₁ l₁' => l₁ = l₁' ∧ past.Listed l₁.program t t' := by
    intro depth ms
    induction ms with
    | nil => exact fun l _ => Lockstep.of_pure l l fun _ _ _ hp => ⟨rfl, hp⟩
    | cons m ms ih =>
      intro l hms
      rw [List.foldlM_cons]
      exact ((lockstep_visit depth l m).of_pre fun _ _ _ hp =>
        ⟨hms m List.mem_cons_self, hp⟩).bind_same fun l₁ =>
          ih l₁ fun x hx => hms x (List.mem_cons_of_mem _ hx)
  have hwithin : ∀ depth, Lockstep past.sessions free (loadWithin depth mains)
      (loadWithin depth mains)
      fun t t' program program' => program = program' ∧ past.Listed program t t' := by
    intro depth
    refine ((hfold depth mains ⟨[], []⟩ hmains).of_pre fun _ _ _ _ _ hf =>
      absurd hf List.not_mem_nil).bind_same fun l => ?_
    exact ((steady_changeMessages _).keeping stable_listed).bind_same fun _ =>
      Lockstep.of_pure _ _ fun _ _ _ hp => ⟨rfl, hp⟩
  refine Lockstep.of_eq (obeys_loadProgram_sessions mains) (obeys_loadProgram_sessions mains)
    fun s s' _ ⟨hs, hs'⟩ => ⟨free,
      loadWithin (fileBound mains s.toWorkspace + fileBound mains s'.toWorkspace) mains,
      loadWithin (fileBound mains s.toWorkspace + fileBound mains s'.toWorkspace) mains, trivial,
      loadProgram_eq hs (by omega), loadProgram_eq hs' (by omega), hwithin _⟩

/-- Modules are dropped in both. -/
theorem steady_dropModules (program : List String) :
    Steady past.coupling (dropModules program) :=
  (Steady.of_lift _).bind fun _ =>
    steady_changeProject (steady_modify (fun _ q => ⟨q, rfl⟩) fun _ => ⟨rfl, rfl, rfl⟩)

end Past

end Bundler

/-
Which disk the imports of a file were resolved on.

References are gathered when a file is loaded whose record of them is not current, that is when the
time of the file has moved on or everything is built anew. Then its imports are resolved on the disk
as it is. A record that is current is taken as it is: files that appear or disappear elsewhere do
not make it outdated. So a cycle uses, for every file, imports as they were resolved on the disk of
some cycle, this one or an earlier one, in which the importing file had the time that it has now
(`Session.Watched.resolved`). It is the disk of this cycle where no earlier cycle can have met the
file with that time, and where the cycle builds everything anew.

What one cycle does is a law (`Session.resolvingLaw`): a record that holds in the end held in the
beginning, or it was resolved on the disk of the cycle. It is put together from the changes of a
build like every other law, and the runs follow by induction.
-/
import Bundler.Proofs.Artifacts
import Bundler.Proofs.Resolution
import Bundler.Proofs.Sessions

set_option autoImplicit false

namespace Bundler

open Workspace Step

/-- The specifiers of the imports in a text. -/
def Script.specifiers (source : String) : Except Fault (List String) := do
  return (← readImports source.toList (Literals.scan source.toList)).map Import.specifier

theorem Script.specifiers_of_read {file source : String} {s : Script} {ds : List Diagnostic}
    (h : read file source = .ok (s, ds)) :
    specifiers source = .ok (s.imports.map Import.specifier) := by
  unfold read at h
  obtain ⟨imports, himports, h⟩ := (except_bind_ok_iff _ _ _).mp h
  obtain ⟨constants, -, h⟩ := (except_bind_ok_iff _ _ _).mp h
  obtain ⟨functions, -, h⟩ := (except_bind_ok_iff _ _ _).mp h
  obtain ⟨⟨calls, ds'⟩, -, h⟩ := (except_bind_ok_iff _ _ _).mp h
  cases h
  unfold specifiers
  rw [himports]
  rfl

/-! ## Resolving on a disk -/

/-- The spelling under which the file of a name is looked for: that of its entry, or its own. -/
def Cache.spelling (c : Cache) (dir name : String) : String :=
  match c.find? dir name with
  | some i => (c.entry i).fullName
  | none => canonicalName dir name

/-- The answers that a disk gives to a search. -/
def Disk.answers (d : Disk) (dir : String) (c : Cache) : ModuleSearch.Files where
  has name := (d.modified? (c.spelling dir name)).isSome
  text? name := (d.read? (c.spelling dir name)).map Text.ofBytes

theorem Disk.describes_answers (d : Disk) (dir : String) (c : Cache) :
    (d.answers dir c).Describes dir d c := by
  intro name i hi
  have hspelling : c.spelling dir name = (c.entry i).fullName := by
    unfold Cache.spelling
    rw [hi]
  unfold Disk.answers
  simp only [hspelling]
  exact ⟨trivial, trivial⟩

namespace Entry

/-- References whose imports are what a search on a disk finds for the imports in the text that the
file of an entry has there: by answers that are true of all files that have an entry. -/
def ResolvedOn (dir : String) (d : Disk) (c : Cache) (e : Entry) (refs : References) : Prop :=
  ∃ file bytes specifiers, Cache.keyOf dir file = e.key ∧ d.content? e.fullName = some bytes ∧
    Script.specifiers (Text.ofBytes bytes) = .ok specifiers ∧
    ∀ f : ModuleSearch.Files, f.Describes dir d c → refs.sourceDeps = f.imports file specifiers

/-- An entry has a record of references that was made at a time of its file, which it has now. -/
def Records (d : Disk) (e : Entry) (refs : References) (t : Nat) : Prop :=
  e.references = some refs ∧ e.infoTime = .at t ∧ d.modified? e.fullName = some t

variable {e e' : Entry} {refs : References} {d : Disk} {dir : String}

/-- What imports the present text of the file of an entry has, resolved by the answers of a disk on
which the file has the time that it has now. -/
def ImportsOn (dir : String) (now d : Disk) (c : Cache) (e : Entry)
    (deps : List (String × String)) : Prop :=
  d.modified? e.fullName = now.modified? e.fullName ∧
    ∃ file bytes specifiers, Cache.keyOf dir file = e.key ∧
      now.content? e.fullName = some bytes ∧
      Script.specifiers (Text.ofBytes bytes) = .ok specifiers ∧
      deps = (d.answers dir c).imports file specifiers

theorem ResolvedOn.of_advances {c c' : Cache} {P : Entry → Entry → Prop}
    (h : e.ResolvedOn dir d c refs) (hc : Cache.Advances dir P c c')
    (hP : ∀ e e', P e e' → e'.fullName = e.fullName) (hname : e'.fullName = e.fullName)
    (hkey : e'.key = e.key) : e'.ResolvedOn dir d c' refs := by
  obtain ⟨file, bytes, specifiers, hfile, hbytes, hspecifiers, hall⟩ := h
  refine ⟨file, bytes, specifiers, hfile.trans hkey.symm, ?_, hspecifiers, fun f hf =>
    hall f (hf.of_advances hc hP)⟩
  rw [hname]
  exact hbytes

/-- Where nothing is loaded, records stay as they are. -/
theorem Building.record {s : Surroundings} (h : Building (fun _ => False) s e e') :
    e'.references = e.references ∧ e'.infoTime = e.infoTime ∧ e'.fullName = e.fullName := by
  cases h with
  | loading h =>
    cases h with
    | reading h => exact ⟨h.read.references, h.read.infoTime, h.read.fullName⟩
    | script h => exact h.name.elim
    | references h => exact h.name.elim
  | delivering h => exact ⟨h.lasts.references, h.lasts.infoTime, h.lasts.fullName⟩
  | mark f => exact ⟨rfl, rfl, rfl⟩

theorem Building.names {N : String → Prop} {s : Surroundings} (h : Building N s e e') :
    e'.fullName = e.fullName ∧ e'.key = e.key := by
  cases h with
  | loading h => exact ⟨h.loads.fullName, h.loads.key⟩
  | delivering h => exact ⟨h.lasts.fullName, h.lasts.key⟩
  | mark f => exact ⟨rfl, rfl⟩

theorem Building.legible {N : String → Prop} {s : Surroundings} (h : Building N s e e')
    (he : e.Legible s.disk) : e'.Legible s.disk := by
  cases h with
  | loading h =>
    cases h with
    | reading h => exact h.legible he
    | script h => exact he.congr rfl rfl rfl
    | references h => exact he.congr rfl rfl rfl
  | delivering h =>
    cases h with
    | taking h =>
      cases h with
      | reading h => exact h.legible he
      | took _ _ _ => exact he.congr rfl rfl rfl
      | copied _ => exact he.congr rfl rfl rfl
    | stamp => exact he.congr rfl rfl rfl
  | mark f => exact he.congr rfl rfl rfl

theorem names_of_chain {N : String → Prop} {s : Surroundings}
    (h : Relation.ReflTransGen (Building N s) e e') :
    e'.fullName = e.fullName ∧ e'.key = e.key :=
  chain_keeps (P := fun e' => e'.fullName = e.fullName ∧ e'.key = e.key)
    (fun _ _ hone he => ⟨hone.names.1.trans he.1, hone.names.2.trans he.2⟩) h ⟨rfl, rfl⟩

end Entry

/-! ## What one cycle does -/

/-- A workspace in which what is seen and kept of a file is true of it. -/
structure Workspace.Truthful (w : Workspace) : Prop extends Workspace.Searchable w where
  dated : w.disk.Dated
  faithful : ∀ i, i < w.cache.entries.length →
    (w.cache.entry i).Faithful (fun _ => True) w.surroundings

namespace Workspace

variable {w w' : Workspace}

theorem Truthful.of_moves (h : w.Truthful) (hm : (Frame.builds fun _ => True).Moves w w') :
    w'.Truthful := by
  have hall := hm.cache.keeps
    (P := fun e => e.Seen w.disk ∧ e.Legible w.disk ∧ e.Faithful (fun _ => True) w.surroundings)
    (fun _ _ hone he => ⟨hone.seen he.1, hone.legible he.2.1, hone.faithful h.dated he.2.2⟩)
    (fun _ => ⟨Entry.Seen.blank _ _ _, Entry.Legible.blank _ _ _, Entry.Faithful.blank _ _ _ _⟩)
    fun i hi => ⟨h.seen i hi, h.legible i hi, h.faithful i hi⟩
  refine ⟨⟨hm.destination, fun i hi => ?_, fun i hi => ?_⟩, ?_, fun i hi => ?_⟩
  · rw [hm.disk]
    exact (hall i hi).1
  · rw [hm.disk]
    exact (hall i hi).2.1
  · rw [hm.disk]
    exact h.dated
  · rw [hm.surroundings]
    exact (hall i hi).2.2

/-- The references of an entry are resolved on the disk of the workspace. -/
def Resolved (w : Workspace) (i : Nat) (refs : References) : Prop :=
  (w.cache.entry i).ResolvedOn w.project.dir w.disk w.cache refs

theorem Resolved.of_moves {N : String → Prop} {i : Nat} {refs : References}
    (h : w.Resolved i refs) (hi : i < w.cache.entries.length)
    (hm : (Frame.builds N).Moves w w') : w'.Resolved i refs := by
  have hname := Entry.names_of_chain (hm.cache.old i hi)
  unfold Resolved
  rw [hm.dir, hm.disk]
  exact h.of_advances hm.cache (fun _ _ hchain => (Entry.names_of_chain hchain).1) hname.1 hname.2

/-- Every record that holds in the end held in the beginning, or was resolved on the disk. -/
def Resolves (w w' : Workspace) : Prop :=
  ∀ i refs t, i < w'.cache.entries.length → (w'.cache.entry i).Records w'.disk refs t →
    (i < w.cache.entries.length ∧ (w.cache.entry i).Records w.disk refs t) ∨ w'.Resolved i refs

/-- Where nothing is loaded, only records that were there hold. -/
private theorem resolves_of_moves (h : (Frame.builds fun _ => False).Moves w w') :
    w.Resolves w' := by
  intro i refs t hi hrecords
  by_cases hold : i < w.cache.entries.length
  · obtain ⟨hrefs, hinfo, hname⟩ :=
      Entry.chain_keeps (P := fun e => e.references = (w.cache.entry i).references ∧
          e.infoTime = (w.cache.entry i).infoTime ∧ e.fullName = (w.cache.entry i).fullName)
        (fun _ _ hone he => ⟨hone.record.1.trans he.1, hone.record.2.1.trans he.2.1,
          hone.record.2.2.trans he.2.2⟩) (h.cache.old i hold) ⟨rfl, rfl, rfl⟩
    unfold Entry.Records at hrecords
    rw [hrefs, hinfo, hname, h.disk] at hrecords
    exact .inl ⟨hold, hrecords⟩
  · obtain ⟨name, hnew⟩ := h.cache.new i (by omega) hi
    have hnone := Entry.chain_keeps (P := fun e => e.references = none)
      (fun _ _ hone he => hone.record.1.trans he) hnew rfl
    rw [hrecords.1] at hnone
    exact absurd hnone (by simp)

end Workspace

namespace Session

/-- The law of building where what is kept of the files is true: records are kept or resolved on the
disk. -/
def resolvingLaw : Law Workspace where
  moves w w' := (Frame.builds fun _ => True).law.moves w w' ∧ (w.Truthful → w.Resolves w')
  fails _ _ := True
  refl w := ⟨(Frame.builds _).law.refl w, fun _ i refs t hi h => .inl ⟨hi, h⟩⟩
  trans {w w' w''} h h' := by
    refine ⟨(Frame.builds _).law.trans h.1 h'.1, fun hw i refs t hi hrecords => ?_⟩
    have hm := Frame.moves_of_law h.1 hw.destination
    have hm' := Frame.moves_of_law h'.1 hm.destination
    rcases h'.2 (hw.of_moves hm) i refs t hi hrecords with ⟨hi', hrecords'⟩ | hresolved
    · exact (h.2 hw i refs t hi' hrecords').imp_right fun hresolved => hresolved.of_moves hi' hm'
    · exact .inr hresolved
  back _ _ := trivial
  fault _ _ := trivial

private theorem resolving_of_law {w w' : Workspace}
    (h : (Frame.builds fun _ => False).law.moves w w') : resolvingLaw.moves w w' :=
  ⟨Frame.law_builds_mono (fun _ hno => hno.elim) h,
    fun hw => resolves_of_moves (Frame.moves_of_law h hw.destination)⟩

private theorem delivering_resolvingLaw : Bundler.Delivering resolvingLaw fun _ => True :=
  Frame.delivering_builds.weaken resolving_of_law (fun _ _ => trivial) (fun hm => hm.1.1)
    fun hm => hm.1.2.1

/-- A script that is current was read from what is on the disk. -/
private theorem specifiers_of_source {w : Workspace} (hw : w.Truthful) {id : Nat}
    (hid : id < w.cache.entries.length) (hsource : (w.cache.entry id).isSourceCurrent = true) :
    ∃ bytes, w.disk.content? (w.cache.entry id).fullName = some bytes ∧
      Script.specifiers (Text.ofBytes bytes) = .ok
        ((((w.cache.entry id).script?.map Script.imports).getD []).map Import.specifier) := by
  obtain ⟨htext, htime, script, hscript⟩ := Entry.isSourceCurrent_iff.mp hsource
  obtain ⟨hfound, htime', -⟩ := Entry.isTextCurrent_iff.mp htext
  obtain ⟨t, hat, hmod⟩ := Entry.Seen.at_of_found (hw.seen id hid) hfound
  obtain ⟨file, bytes, -, -, hbytes, hread⟩ := (hw.faithful id hid).fits.script t script
    (htime.trans (htime'.trans hat)) hscript hmod
  refine ⟨bytes, hbytes, ?_⟩
  unfold Entry.script?
  rw [if_pos hsource, hscript]
  exact Script.specifiers_of_read hread

theorem loading_resolvingLaw : Bundler.Loading resolvingLaw fun _ => True where
  toLooking := delivering_resolvingLaw.toLooking
  script w id file sc ds hN hfind htext hout hread := by
    refine ⟨Frame.loading_builds.script w id file sc ds hN hfind htext hout hread,
      fun _ i refs t hi hrecords => .inl ?_⟩
    have hlen : i < w.cache.entries.length := by
      simpa [changed] using hi
    refine ⟨hlen, ?_⟩
    change (((w.cache.modify id _).entry i).Records w.disk refs t) at hrecords
    rw [Cache.entry_modify _ hlen] at hrecords
    split at hrecords
    · exact hrecords
    · exact hrecords
  refs w id file hN hfind hsource := by
    obtain ⟨hid, hkey⟩ := Cache.find?_some hfind
    refine allows_refreshReferences delivering_resolvingLaw.toLooking
      fun deps v script refs hout hdeps hscript hgather hm => ?_
    -- what is recorded is one change more
    have hrecord : (Frame.builds fun _ => True).law.moves v
        (v.changed id fun e => { e with references := some refs, infoTime := e.current }) := by
      refine ⟨rfl, rfl, rfl, fun _ => ⟨rfl, trivial, ?_⟩⟩
      refine Cache.Advances.modify (Frame.refl _ _) (fun _ => rfl) fun _ => .single (.loading ?_)
      exact .references (Frame.Gathering.of_findImports hN hfind hsource hout hdeps hscript hgather)
    refine ⟨(Frame.builds _).law.trans hm.1 hrecord, fun hw i refs' t hi hrecords => ?_⟩
    have hmv := Frame.moves_of_law hm.1 hw.destination
    have hmr := Frame.moves_of_law hrecord hmv.destination
    have hlen : i < v.cache.entries.length := by simpa [changed] using hi
    change ((v.cache.modify id _).entry i).Records v.disk refs' t at hrecords
    by_cases heq : id = i
    · subst heq
      rw [Cache.entry_modify_self _ hlen] at hrecords
      obtain rfl := Option.some.inj hrecords.1
      refine .inr (Resolved.of_moves (w := v) ?_ hlen hmr)
      obtain ⟨bytes, hbytes, hspecifiers⟩ := specifiers_of_source hw hid hsource
      obtain ⟨hname, hkey'⟩ := Entry.names_of_chain (hmv.cache.old id hid)
      refine ⟨file, bytes, _, ?_, ?_, hspecifiers, fun f hf => ?_⟩
      · rw [hkey', hkey, hmv.dir]
      · rw [hname, hmv.disk]
        exact hbytes
      · rw [References.sourceDeps_gather hgather]
        exact findImports_resolves hw.toSearchable hdeps hf
    · rw [Cache.entry_modify_ne _ heq] at hrecords
      exact (hm.2 hw i refs' t hlen hrecords).imp_right fun hresolved => hresolved.of_moves hlen hmr

/-- Records are kept or resolved on the disk by all that a cycle is made of. -/
theorem overall_resolvingLaw (mains : List String) : Overall resolvingLaw mains where
  loading s := (obeys_loadProgram loading_resolvingLaw mains s).beneath
  walking :=
    have h := Frame.walking_builds (N := fun _ => False)
    ⟨fun w name => resolving_of_law (h.get w name), fun w id => resolving_of_law (h.look w id),
      fun w id f => resolving_of_law (h.mark w id f), fun w => resolving_of_law (h.unmark w)⟩
  delivering := delivering_resolvingLaw
  placing w atlas := resolving_of_law (Frame.placing_builds w atlas)
  dropped w _ := resolving_of_law (Frame.moves_project _ w trivial rfl rfl)

end Session

/-! ## Sessions that watch their files -/

/-- What can be read can still be read as long as it is not changed. -/
def Disk.KeepsReadable (d d' : Disk) : Prop :=
  ∀ path, (d.read? path).isSome → d'.modified? path = d.modified? path → (d'.read? path).isSome

theorem Disk.keepsReadable_of_unreadable {d d' : Disk} (h : d'.unreadable = d.unreadable) :
    d.KeepsReadable d' := by
  intro path hread hmod
  unfold read? refuses at *
  rw [h]
  split at hread
  · exact absurd hread (by simp)
  · rename_i hrefuses
    rw [if_neg hrefuses, Option.isSome_map]
    rw [Option.isSome_map] at hread
    have hsome := congrArg Option.isSome hmod
    unfold modified? at hsome
    rw [Option.isSome_map, Option.isSome_map] at hsome
    rw [hsome]
    exact hread

theorem Disk.keepsReadable_write (d : Disk) (path : String) (content : Bytes) :
    d.KeepsReadable (d.write path content) := keepsReadable_of_unreadable rfl

theorem Entry.Legible.of_changes {N : String → Prop} {s : Surroundings} {e : Entry} {disk : Disk}
    (h : e.Legible s.disk) (hfits : e.Fits N s) (hd : s.disk.Changes disk)
    (hread : s.disk.KeepsReadable disk) : e.Legible disk := by
  intro t text ht htext hmod
  obtain ⟨hmod', hcontent⟩ := hd.same _ t hmod (hfits.textTime t ht)
  obtain ⟨bytes, hbytes, rfl⟩ := Option.map_eq_some_iff.mp (h t text ht htext hmod')
  obtain ⟨bytes', hbytes'⟩ := Option.isSome_iff_exists.mp
    (hread _ (by rw [hbytes]; rfl) (hmod.trans hmod'.symm))
  have heq : bytes' = bytes := Option.some.inj (by
    rw [← Disk.content?_of_read? hbytes', hcontent, Disk.content?_of_read? hbytes])
  rw [hbytes', heq]
  rfl

namespace Session

variable {s : Session} {ds : List Disk}

/-- What holds of a session that has run cycles on some disks: its entries are faithful, and every
record that holds was resolved on one of the disks, when the file had its present time. -/
structure Watching (ds : List Disk) (s : Session) : Prop extends s.Faithful fun _ => True where
  legible : ∀ i, i < s.cache.entries.length → (s.cache.entry i).Legible s.disk
  earlier : ∀ d ∈ ds, d.Dated ∧ d.Changes s.disk
  records : ∀ i refs t, i < s.cache.entries.length → (s.cache.entry i).Records s.disk refs t →
    ∃ d ∈ ds, d.modified? (s.cache.entry i).fullName = some t ∧
      (s.cache.entry i).ResolvedOn s.project.dir d s.cache refs

theorem Watching.of_changes (h : s.Watching ds) {disk : Disk} (hd : s.disk.Changes disk)
    (hread : s.disk.KeepsReadable disk) : Watching ds { s with disk } where
  destination := h.destination
  dated := hd.dated h.dated
  entries i hi := (h.entries i hi).of_changes hd
  legible i hi := (h.legible i hi).of_changes (h.entries i hi).fits hd hread
  earlier d hds := ⟨(h.earlier d hds).1, (h.earlier d hds).2.trans hd⟩
  records i refs t hi := by
    rintro ⟨hrefs, hinfo, hmod⟩
    exact h.records i refs t hi
      ⟨hrefs, hinfo, (hd.same _ t hmod ((h.entries i hi).fits.infoTime t hinfo)).1⟩

theorem Watching.clearProbes (h : s.Watching ds) : s.clearProbes.Watching ds := by
  have hlen : s.clearProbes.cache.entries.length = s.cache.entries.length :=
    Cache.length_clearProbes
  have hentry : ∀ i, i < s.cache.entries.length →
      s.clearProbes.cache.entry i = { s.cache.entry i with current := .unset } :=
    fun i hi => Cache.entry_clearProbes hi
  refine ⟨h.toFaithful.of_cache (fun _ => Entry.Faithful.unlooked) rfl rfl rfl, fun i hi => ?_,
    h.earlier, fun i refs t hi hrecords => ?_⟩
  · rw [hlen] at hi
    rw [hentry i hi]
    exact (h.legible i hi).congr rfl rfl rfl
  · rw [hlen] at hi
    rw [hentry i hi] at hrecords ⊢
    obtain ⟨d, hds, hmod, hresolved⟩ := h.records i refs t hi hrecords
    exact ⟨d, hds, hmod, hresolved.of_advances (Cache.Advances.mapEntries (fun _ => rfl)
      (P := fun e e' => e' = { e with current := .unset }) (fun _ => rfl))
      (fun _ _ heq => by rw [heq]) rfl rfl⟩

private theorem truthful_begun (h : s.Watching ds) (hseen : s.cache.Seen s.disk) :
    s.begun.Truthful := by
  have hbegun := h.toFaithful.begun
  refine ⟨⟨hbegun.destination, ?_, fun i hi => ?_⟩, hbegun.dated, hbegun.entries⟩
  · rw [begun_disk]
    exact seen_begun hseen
  · rw [begun_disk]
    rcases begun_cache s with hcache | hcache
    · rw [hcache] at hi ⊢
      exact h.legible i hi
    · rw [hcache, Cache.length_forceRebuild] at hi
      rw [hcache, Cache.entry_forceRebuild hi]
      exact (h.legible i hi).congr rfl rfl rfl

/-- After a cycle every record that holds was resolved on the disk of the cycle, or it was there
before and the cycle did not build everything anew. -/
theorem Watching.records_compile (h : s.Watching ds) (hseen : s.cache.Seen s.disk) {i : Nat}
    {refs : References} {t : Nat} (hi : i < (Step.final (compile s)).cache.entries.length)
    (hrecords : ((Step.final (compile s)).cache.entry i).Records s.disk refs t) :
    ∃ d, (d = s.disk ∨ d ∈ ds ∧ s.isForced = false) ∧
      d.modified? ((Step.final (compile s)).cache.entry i).fullName = some t ∧
      ((Step.final (compile s)).cache.entry i).ResolvedOn s.project.dir d
        (Step.final (compile s)).cache refs := by
  have htruthful := truthful_begun h hseen
  obtain ⟨hlaw, hresolves⟩ := (allows_compile (overall_resolvingLaw s.begun.project.mains)).final
  have hm := Frame.moves_of_law hlaw htruthful.destination
  have hdisk : (Step.final (compile s)).disk = s.disk := hm.disk.trans (begun_disk s)
  have hdir : (Step.final (compile s)).project.dir = s.project.dir := hm.dir.trans (begun_dir s)
  rcases hresolves htruthful i refs t hi (by rw [hdisk]; exact hrecords) with ⟨hold, hkept⟩ | hnow
  · have hunforced : s.isForced = false := by
      by_contra hforced
      obtain ⟨-, hinfo, -⟩ := hkept
      rw [begun_cache_of_forced (by simpa using hforced)] at hinfo hold
      rw [Cache.length_forceRebuild] at hold
      rw [Cache.entry_forceRebuild hold] at hinfo
      exact absurd hinfo (by simp)
    obtain ⟨hname, hkey⟩ := Entry.names_of_chain (hm.cache.old i hold)
    have hbegun : s.begun.cache = s.cache := begun_cache_of_not_forced hunforced
    rw [begun_disk] at hkept
    simp only [hbegun] at hold hkept hname hkey
    obtain ⟨d, hds, hmod, hresolved⟩ := h.records i refs t hold hkept
    refine ⟨d, .inr ⟨hds, hunforced⟩, by rw [hname]; exact hmod, ?_⟩
    have hadvances := hm.cache
    simp only [begun_dir, hbegun] at hadvances
    exact hresolved.of_advances hadvances (fun _ _ hchain => (Entry.names_of_chain hchain).1)
      hname hkey
  · unfold Workspace.Resolved at hnow
    rw [hdisk, hdir] at hnow
    exact ⟨s.disk, .inl rfl, hrecords.2.2, hnow⟩

/-- The sessions of a project that clears the probes before every cycle, with the disks of the
cycles, the last one first. Files are written, touched, created, removed and renamed, and what can
be read stays readable unless it is changed. -/
inductive Watched (project : Project) : List Disk → Session → Prop
  | start {disk : Disk} (h : disk.Dated) : Watched project [] (start disk project)
  | change {ds : List Disk} {s : Session} {disk : Disk} (h : Watched project ds s)
      (hd : s.disk.Changes disk) (hread : s.disk.KeepsReadable disk) :
      Watched project ds { s with disk }
  | force {ds : List Disk} {s : Session} (h : Watched project ds s) :
      Watched project ds s.forceNext
  | cycle {ds : List Disk} {s : Session} (h : Watched project ds s) :
      Watched project (s.disk :: ds) (Step.final (cycle s))

private theorem seen_clearProbes (s : Session) : s.clearProbes.cache.Seen s.disk := by
  intro i hi
  have hlen : s.clearProbes.cache.entries.length = s.cache.entries.length :=
    Cache.length_clearProbes
  rw [hlen] at hi
  have hentry : s.clearProbes.cache.entry i = { s.cache.entry i with current := .unset } :=
    Cache.entry_clearProbes hi
  rw [hentry]
  exact .inl rfl

private theorem Watching.cycle (h : s.Watching ds) :
    (Step.final (cycle s)).Watching (s.disk :: ds) := by
  rw [cycle_eq]
  have hcleared := h.clearProbes
  have hmoves : (Frame.builds fun _ => True).Moves s.clearProbes.begun.toWorkspace
      (Step.final (compile s.clearProbes)).toWorkspace :=
    builds_compile hcleared.toFaithful.begun.destination (fun _ _ => trivial) fun _ _ => trivial
  have htruthful := (truthful_begun hcleared (seen_clearProbes s)).of_moves hmoves
  have hdisk : (Step.final (compile s.clearProbes)).disk = s.disk :=
    hmoves.disk.trans (begun_disk _)
  have hdir : (Step.final (compile s.clearProbes)).project.dir = s.project.dir :=
    hmoves.dir.trans (begun_dir _)
  refine ⟨(hcleared.toFaithful.compile hmoves).1, htruthful.legible, fun d hd => ?_,
    fun i refs t hi hrecords => ?_⟩
  · rw [hdisk]
    rcases List.mem_cons.mp hd with rfl | hd
    · exact ⟨h.dated, Disk.Changes.refl _⟩
    · exact h.earlier d hd
  · rw [hdisk] at hrecords
    obtain ⟨d, hd, hmod, hresolved⟩ :=
      hcleared.records_compile (seen_clearProbes s) hi hrecords
    rw [hdir]
    refine ⟨d, ?_, hmod, hresolved⟩
    rcases hd with rfl | ⟨hd, -⟩
    · exact List.mem_cons_self
    · exact List.mem_cons_of_mem _ hd

theorem Watched.watching {project : Project} (h : Watched project ds s) : s.Watching ds := by
  induction h with
  | start hd =>
    exact ⟨⟨rfl, hd, fun i hi => absurd hi (Nat.not_lt_zero i)⟩,
      fun i hi => absurd hi (Nat.not_lt_zero i), fun _ hd => absurd hd List.not_mem_nil,
      fun i _ _ hi => absurd hi (Nat.not_lt_zero i)⟩
  | change _ hd hread ih => exact ih.of_changes hd hread
  | force _ ih => exact ⟨⟨ih.destination, ih.dated, ih.entries⟩, ih.legible, ih.earlier, ih.records⟩
  | cycle _ ih => exact ih.cycle

/-- The imports that a cycle uses for a file are those of its present text, resolved on the disk of
the cycle, or on that of an earlier cycle in which the file had the time that it has now. It is the
disk of this cycle if it builds everything anew. -/
theorem Watched.resolved {project : Project} (h : Watched project ds s) {e : Entry}
    (he : e ∈ (Step.final (Session.cycle s)).cache.entries) {refs : References}
    (hrefs : e.references? = some refs) :
    ∃ d, (d = s.disk ∨ d ∈ ds ∧ s.isForced = false) ∧
      e.ImportsOn s.project.dir s.disk d (Step.final (Session.cycle s)).cache refs.sourceDeps := by
  have hwatch := h.watching
  have hcleared := hwatch.clearProbes
  obtain ⟨i, hi, rfl⟩ := Cache.mem_iff_entry.mp he
  rw [cycle_eq] at hi hrefs ⊢
  have hmoves : (Frame.builds fun _ => True).Moves s.clearProbes.begun.toWorkspace
      (Step.final (compile s.clearProbes)).toWorkspace :=
    builds_compile hcleared.toFaithful.begun.destination (fun _ _ => trivial) fun _ _ => trivial
  have hdisk : (Step.final (compile s.clearProbes)).disk = s.disk :=
    hmoves.disk.trans (begun_disk _)
  have htruthful := (truthful_begun hcleared (seen_clearProbes s)).of_moves hmoves
  have hcur := Entry.isInfoCurrent_of_references? hrefs
  have hkept := Entry.references_of_references? hrefs
  unfold Entry.isInfoCurrent at hcur
  simp only [Bool.and_eq_true, beq_iff_eq] at hcur
  obtain ⟨t, hat, hmod⟩ := Entry.Seen.at_of_found (htruthful.seen i hi) hcur.1.1
  rw [hdisk] at hmod
  obtain ⟨d, hd, hdmod, file, bytes, specifiers, hfile, hbytes, hspecifiers, hall⟩ :=
    hcleared.records_compile (seen_clearProbes s) hi ⟨hkept, hcur.1.2.trans hat, hmod⟩
  refine ⟨d, hd, hdmod.trans hmod.symm, file, bytes, specifiers, hfile, ?_, hspecifiers,
    hall _ (Disk.describes_answers _ _ _)⟩
  rcases hd with rfl | ⟨hd, -⟩
  · exact hbytes
  · -- the file has not been changed since
    obtain ⟨hdated, hchanges⟩ := hwatch.earlier d hd
    rw [(hchanges.same _ t hmod (hdated _ t hdmod)).2]
    exact hbytes

/-- An entry file that imports a file that there is not. -/
def loneDisk : Disk := Disk.empty.write "/p/a.ts" (Text.toBytes "import \"./b\";\n")

/-- A session that has built the lone file. -/
def loneBuilt : Session := Step.final (Session.cycle (start loneDisk (entryProject ["a.ts"])))

/-- Afterwards the file that it imports has appeared. -/
def lateImport : Session :=
  { loneBuilt with disk := loneBuilt.disk.write "/p/b.ts" (Text.toBytes "export const x = 1;\n") }

theorem watched_lateImport : Watched (entryProject ["a.ts"]) [loneDisk] lateImport := by
  have hdated : loneDisk.Dated := (Disk.changes_write _ _ _).dated Disk.dated_empty
  have hbuilt : Watched (entryProject ["a.ts"]) [loneDisk] loneBuilt := (Watched.start hdated).cycle
  exact hbuilt.change (Disk.changes_write _ _ _) (Disk.keepsReadable_write _ _ _)

theorem resolved_lateImport :
    ∃ refs, ((Step.final (Session.cycle lateImport)).cache.entry 0).references? = some refs ∧
      ∃ d, (d = lateImport.disk ∨ d ∈ [loneDisk] ∧ lateImport.isForced = false) ∧
        ((Step.final (Session.cycle lateImport)).cache.entry 0).ImportsOn lateImport.project.dir
          lateImport.disk d (Step.final (Session.cycle lateImport)).cache refs.sourceDeps := by
  have hsome : ((Step.final (Session.cycle lateImport)).cache.entry 0).references?.isSome = true := by
    decide +kernel
  obtain ⟨refs, hrefs⟩ := Option.isSome_iff_exists.mp hsome
  have hmem : (Step.final (Session.cycle lateImport)).cache.entry 0
      ∈ (Step.final (Session.cycle lateImport)).cache.entries :=
    Cache.entry_mem (by decide +kernel)
  exact ⟨refs, hrefs, watched_lateImport.resolved hmem hrefs⟩

/-- A file that appears is not noticed where the file that imports it has not been changed: the
cycle is up to date, with no import for the entry file, while the import is found on the disk and a
session that starts there loads both files. -/
theorem lateImport_unnoticed :
    (Step.answer? (Session.cycle lateImport)).map CycleReport.isUpToDate = some true ∧
      ((Step.final (Session.cycle lateImport)).cache.entry 0).fullName = "/p/a.ts" ∧
      ((Step.final (Session.cycle lateImport)).cache.entry 0).references?.map
        References.sourceDeps = some [] ∧
      (lateImport.disk.answers "/p" (Step.final (Session.cycle lateImport)).cache).imports "a.ts"
        ["./b"] = [("./b", "b.ts")] ∧
      (start lateImport.disk (entryProject ["a.ts"])).clearProbes.loads?
        = some ["b.ts", "a.ts"] := by
  decide +kernel

end Session

end Bundler

/-
References that match their scripts.

Script and references of an entry are made at different times, and a file may change in between,
whether it is looked at again or not. What keeps them together is the order of the times
(`Entry.Timely`): no piece is newer than the file is on the disk or was when it was looked at, and
references are not newer than the script that they were gathered from. A script that is read again has
a later time than references that were gathered before, so where both have one time, the references are
those of the script, and so they are wherever both are current (`Entry.Timely.gathered_of_loaded`).

All that a build does to an entry keeps it timely, wherever the output goes, as writing a file only
makes it newer. Beside it a build does nothing to the catalogue of messages but use it. Both together
are one law (`Workspace.Timely.law`), which cycles obey whether they return or end early.
-/
import Bundler.Proofs.Built
import Bundler.Proofs.InnerPaths
import Bundler.Proofs.Orderly
import Bundler.Proofs.Sites

set_option autoImplicit false

namespace Bundler

open Workspace Step

/-! ## Entries -/

namespace Entry

variable {N : String → Prop} {s : Surroundings} {e e' : Entry} {disk : Disk}

/-- A piece of an entry has a time: the text, the script, or the references. -/
def PieceAt (e : Entry) (t : Nat) : Prop :=
  e.textTime = .at t ∨ e.sourceTime = .at t ∨ e.infoTime = .at t

/-- The times of an entry are in order. -/
structure Timely (disk : Disk) (e : Entry) : Prop where
  /-- Nothing is newer than the clock, or than the file. -/
  bounded : ∀ t, e.current = .at t ∨ e.PieceAt t →
    t ≤ disk.clock ∧ ∀ u, disk.modified? e.fullName = some u → t ≤ u
  /-- No piece is newer than the file was when it was looked at. -/
  seen : ∀ u, e.current = .at u → ∀ t, e.PieceAt t → t ≤ u
  parsed : ∀ t, e.sourceTime = .at t → e.script.isSome = true
  /-- References are not newer than the script. -/
  recorded : ∀ t, e.infoTime = .at t → ∃ u, e.sourceTime = .at u ∧ t ≤ u
  /-- References that are as new as the script were gathered from it. -/
  gathered : ∀ t script refs, e.sourceTime = .at t → e.infoTime = .at t → e.script = some script →
    e.references = some refs → refs.GatheredFrom script.calls

theorem Timely.blank (disk : Disk) (fullName key : String) : (Entry.blank fullName key).Timely disk where
  bounded t h := absurd h (by simp [PieceAt, Entry.blank])
  seen u h := absurd h (by simp [Entry.blank])
  parsed t h := absurd h (by simp [Entry.blank])
  recorded t h := absurd h (by simp [Entry.blank])
  gathered t _ _ h := absurd h (by simp [Entry.blank])

/-- Where script and references are current, the references are those of the script. -/
theorem Timely.gathered_of_loaded (h : e.Timely disk) (hl : e.Loaded) {script : Script} {refs : References}
    (hscript : e.script = some script) (hrefs : e.references = some refs) :
    refs.GatheredFrom script.calls := by
  obtain ⟨htext, hsource, -⟩ := isSourceCurrent_iff.mp hl.source
  obtain ⟨hfound, htime, -⟩ := isTextCurrent_iff.mp htext
  obtain ⟨-, hinfo, -⟩ := isInfoCurrent_iff.mp hl.info
  obtain ⟨t, hcur⟩ := at_of_found hfound
  exact h.gathered t script refs (hsource.trans (htime.trans hcur)) (hinfo.trans hcur) hscript hrefs

/-! ## What a build does -/

/-- Only the name, what was seen, and the pieces with their times matter. -/
theorem Timely.congr (h : e.Timely disk) (hname : e'.fullName = e.fullName)
    (hcur : e'.current = e.current) (htext : e'.textTime = e.textTime)
    (hsource : e'.sourceTime = e.sourceTime) (hinfo : e'.infoTime = e.infoTime)
    (hscript : e'.script = e.script) (hrefs : e'.references = e.references) : e'.Timely disk := by
  have hpiece : e'.PieceAt = e.PieceAt := by
    unfold PieceAt
    rw [htext, hsource, hinfo]
  refine ⟨?_, ?_, ?_, ?_, ?_⟩
  · rw [hcur, hpiece, hname]
    exact h.bounded
  · rw [hcur, hpiece]
    exact h.seen
  · rw [hsource, hscript]
    exact h.parsed
  · rw [hinfo, hsource]
    exact h.recorded
  · rw [hsource, hinfo, hscript, hrefs]
    exact h.gathered

/-- A text may be lost. -/
private theorem Timely.without_text (h : e.Timely disk) : { e with textTime := .missing }.Timely disk := by
  have hpiece : ∀ t, ({ e with textTime := .missing } : Entry).PieceAt t → e.PieceAt t := fun t ht =>
    ht.elim (fun h => absurd h (by simp)) .inr
  exact ⟨fun t ht => h.bounded t (ht.imp_right (hpiece t)), fun u hu t ht => h.seen u hu t (hpiece t ht),
    h.parsed, h.recorded, h.gathered⟩

/-- A text may be read of the file as it was seen. -/
private theorem Timely.with_text (h : e.Timely disk) (text : Option String) :
    { e with text, textTime := e.current }.Timely disk := by
  have hpiece : ∀ t, ({ e with text, textTime := e.current } : Entry).PieceAt t →
      e.current = .at t ∨ e.PieceAt t := fun t ht => ht.imp_right .inr
  refine ⟨fun t ht => h.bounded t (ht.elim .inl (hpiece t)), fun u hu t ht => ?_, h.parsed, h.recorded,
    h.gathered⟩
  rcases hpiece t ht with hcur | hold
  · rw [hu] at hcur
    exact (Stamp.at.inj hcur).ge
  · exact h.seen u hu t hold

theorem Reading.timely (h : Reading s e e') (hd : s.disk.Dated) (he : e.Timely s.disk) :
    e'.Timely s.disk := by
  cases h with
  | look =>
    cases hcur : e.current with
    | unset =>
      rw [looked_of_unset hcur]
      have hnow : ∀ t, s.disk.stamp e.fullName = .at t → s.disk.modified? e.fullName = some t :=
        fun t ht => Disk.stamp_eq_at.mp ht
      refine ⟨fun t ht => ?_, fun u hu t ht => ?_, he.parsed, he.recorded, he.gathered⟩
      · rcases ht with hseen | hpiece
        · have hmod := hnow t hseen
          refine ⟨hd _ _ hmod, fun u hu => ?_⟩
          rw [hmod] at hu
          exact (Option.some.inj hu).le
        · exact he.bounded t (.inr hpiece)
      · exact (he.bounded t (.inr ht)).2 u (hnow u hu)
    | missing =>
      rw [looked_of_isSet (by rw [hcur]; rfl)]
      exact he
    | «at» t =>
      rw [looked_of_isSet (by rw [hcur]; rfl)]
      exact he
  | text =>
    unfold withText
    split
    · exact he.without_text
    · split
      · exact he
      · split
        · exact he.with_text _
        · exact he.without_text
  | buffer =>
    unfold withBuffer
    split
    · exact he.congr rfl rfl rfl rfl rfl rfl rfl
    · split
      · exact he
      · split
        · exact he.congr rfl rfl rfl rfl rfl rfl rfl
        · exact he.congr rfl rfl rfl rfl rfl rfl rfl

/-- A script that is read is newer than all references, or it would have been kept. -/
theorem Timely.script_kept (he : e.Timely disk) {file : String} {sc : Script} {ds : List Diagnostic}
    (h : Frame.Parsing N s e file sc ds) :
    { e with script := some sc, diagnostics := ds, sourceTime := e.textTime }.Timely disk := by
  obtain ⟨hfound, htime, -⟩ := isTextCurrent_iff.mp h.text
  obtain ⟨c, hcur⟩ := at_of_found hfound
  have htext : e.textTime = .at c := htime.trans hcur
  have hpiece : ∀ t,
      ({ e with script := some sc, diagnostics := ds, sourceTime := e.textTime } : Entry).PieceAt t →
        e.PieceAt t := fun t ht => ht.elim .inl fun h => h.elim .inl fun h => .inr (.inr h)
  refine ⟨fun t ht => he.bounded t (ht.imp_right (hpiece t)), fun u hu t ht => he.seen u hu t (hpiece t ht),
    fun _ _ => rfl, fun t ht => ⟨c, htext, he.seen c hcur t (.inr (.inr ht))⟩, ?_⟩
  intro t script refs hsource hinfo _ _
  -- references of this very time were gathered from a script of this time, which would be current yet
  exfalso
  obtain rfl : c = t := Stamp.at.inj (htext.symm.trans hsource)
  obtain ⟨u, hu, hle⟩ := he.recorded c hinfo
  obtain rfl : c = u := Nat.le_antisymm hle (he.seen c hcur u (.inr (.inl hu)))
  have hcurrent : e.isSourceCurrent = true :=
    isSourceCurrent_iff.mpr ⟨h.text, hu.trans htext.symm, Option.isSome_iff_exists.mp (he.parsed c hu)⟩
  rw [h.outdated] at hcurrent
  cases hcurrent

theorem Timely.references_kept (he : e.Timely disk) {file : String} {sc : Script}
    {deps : List (String × String)} {refs : References}
    (h : Frame.Gathering N s e file sc deps refs) :
    { e with references := some refs, infoTime := e.current }.Timely disk := by
  obtain ⟨htext, hsource, -⟩ := isSourceCurrent_iff.mp h.source
  obtain ⟨-, htime, -⟩ := isTextCurrent_iff.mp htext
  have hpiece : ∀ t, ({ e with references := some refs, infoTime := e.current } : Entry).PieceAt t →
      e.current = .at t ∨ e.PieceAt t := fun t ht =>
    ht.elim (fun h => .inr (.inl h)) fun h => h.elim (fun h => .inr (.inr (.inl h))) .inl
  refine ⟨fun t ht => he.bounded t (ht.elim .inl (hpiece t)), fun u hu t ht => ?_, he.parsed,
    fun t ht => ⟨t, hsource.trans (htime.trans ht), Nat.le_refl t⟩, ?_⟩
  · rcases hpiece t ht with hcur | hold
    · rw [hu] at hcur
      exact (Stamp.at.inj hcur).ge
    · exact he.seen u hu t hold
  · intro t script refs' _ _ hscript hrefs
    rw [h.hasScript] at hscript
    obtain rfl := Option.some.inj hscript
    obtain rfl := Option.some.inj hrefs
    obtain ⟨p, -, -, hgather⟩ := h.gathered
    exact References.gatheredFrom_of_gather hgather

theorem Building.timely (h : Building N s e e') (hd : s.disk.Dated) (he : e.Timely s.disk) :
    e'.Timely s.disk := by
  cases h with
  | loading h =>
    cases h with
    | reading h => exact h.timely hd he
    | script h => exact he.script_kept h
    | references h => exact he.references_kept h
  | delivering h =>
    cases h with
    | taking h =>
      cases h with
      | reading h => exact h.timely hd he
      | took _ _ _ => exact he.congr rfl rfl rfl rfl rfl rfl rfl
      | copied _ => exact he.congr rfl rfl rfl rfl rfl rfl rfl
    | stamp => exact he.congr rfl rfl rfl rfl rfl rfl rfl
  | mark f => exact he.congr rfl rfl rfl rfl rfl rfl rfl

/-! ## What happens between cycles -/

/-- A file that changes gets a later time. -/
theorem Timely.of_changes {disk' : Disk} (h : e.Timely disk) (hd : disk.Changes disk') :
    e.Timely disk' := by
  refine ⟨fun t ht => ?_, h.seen, h.parsed, h.recorded, h.gathered⟩
  obtain ⟨hclock, hfile⟩ := h.bounded t ht
  refine ⟨Nat.le_trans hclock hd.clock, fun u hu => ?_⟩
  rcases Nat.lt_or_ge disk.clock u with hlt | hle
  · exact Nat.le_of_lt (Nat.lt_of_le_of_lt hclock hlt)
  · exact hfile u (hd.same _ u hu hle).1

theorem Timely.unlooked (h : e.Timely disk) : { e with current := .unset }.Timely disk :=
  ⟨fun t ht => h.bounded t (.inr (ht.elim (fun h => absurd h (by simp)) id)),
    fun _ hu => absurd hu (by simp), h.parsed, h.recorded, h.gathered⟩

theorem Timely.forgotten (h : e.Timely disk) :
    { e with infoTime := .unset, outputTime := .unset }.Timely disk := by
  have hpiece : ∀ t, ({ e with infoTime := .unset, outputTime := .unset } : Entry).PieceAt t →
      e.PieceAt t := fun t ht => ht.elim .inl fun h => h.elim (fun h => .inr (.inl h)) fun h =>
    absurd h (by simp)
  exact ⟨fun t ht => h.bounded t (ht.imp_right (hpiece t)), fun u hu t ht => h.seen u hu t (hpiece t ht),
    h.parsed, fun _ ht => absurd ht (by simp), fun _ _ _ _ ht => absurd ht (by simp)⟩

/-- Where nothing is loaded an entry keeps what it has. -/
theorem Building.lasts (h : Building N s e e') (hN : ∀ file, ¬N file) : e.Lasts s e' := by
  cases h with
  | loading h =>
    cases h with
    | reading h => exact h.read.lasts
    | script h => exact absurd h.name (hN _)
    | references h => exact absurd h.name (hN _)
  | delivering h => exact h.lasts
  | mark f => exact (Marking.mark e f).lasts

end Entry

/-! ## Workspaces -/

/-- The times of all entries are in order. -/
structure Workspace.Timely (w : Workspace) : Prop where
  dated : w.disk.Dated
  entries : ∀ i, i < w.cache.entries.length → (w.cache.entry i).Timely w.disk

theorem Project.write_catalogue (p : Project) (path : String) (content : Bytes) :
    (p.write path content).catalogue = p.catalogue := by
  unfold Project.write
  split <;> rfl

namespace Workspace

variable {w w' : Workspace} {N : String → Prop}

theorem written_catalogue (w : Workspace) (path : String) (content : Bytes) :
    (w.written path content).project.catalogue = w.project.catalogue := by
  unfold Workspace.written
  split
  · exact Project.write_catalogue w.project path content
  · rfl

/-- Writing a file changes the disk, if it changes it at all. -/
theorem changes_written (w : Workspace) (path : String) (content : Bytes) :
    w.disk.Changes (w.written path content).disk := by
  unfold Workspace.written
  cases w.destination with
  | none => exact Disk.Changes.refl w.disk
  | some t =>
    have hmap : (some t).mapM (fun t => t.put w.disk path content)
        = (some <$> t.put w.disk path content : Except DiskError (Option Disk)) := rfl
    rw [hmap]
    cases hput : t.put w.disk path content with
    | ok disk =>
      change w.disk.Changes disk
      rw [Disk.create_ok hput]
      exact Disk.changes_put w.disk _ content
    | error e => exact Disk.Changes.refl w.disk

namespace Timely

theorem of_changes (hw : w.Timely) (hd : w.disk.Changes w'.disk) (hcache : w'.cache = w.cache) :
    w'.Timely where
  dated := hd.dated hw.dated
  entries := by
    rw [hcache]
    exact fun i hi => (hw.entries i hi).of_changes hd

/-- What a build that loads files under the names `N` does: entries stay timely, the catalogue is used, and
where nothing is loaded, what was loaded before stays so. -/
structure Moves (N : String → Prop) (w w' : Workspace) : Prop where
  config : w'.project.config = w.project.config
  dir : w'.project.dir = w.project.dir
  catalogue : Catalogue.Continued w.project.catalogue w'.project.catalogue
  timely : w.Timely → w'.Timely
  loaded : (∀ file, ¬N file) → ∀ file deps, w.HasLoaded file deps → w'.HasLoaded file deps

def law (N : String → Prop) : Law Workspace where
  moves := Moves N
  fails _ _ := True
  refl _ := ⟨rfl, rfl, .refl _, fun h => h, fun _ _ _ h => h⟩
  trans h h' :=
    { config := h'.config.trans h.config
      dir := h'.dir.trans h.dir
      catalogue := h.catalogue.trans h'.catalogue
      timely := fun hw => h'.timely (h.timely hw)
      loaded := fun hN file deps hl => h'.loaded hN file deps (h.loaded hN file deps hl) }
  back _ _ := trivial
  fault _ _ := trivial

private theorem moves_of_builds (h : (Frame.builds N).law.moves w.aside w'.aside)
    (hcatalogue : Catalogue.Continued w.project.catalogue w'.project.catalogue) : Moves N w w' := by
  have hm := Frame.moves_of_law h rfl
  refine ⟨h.1, h.2.1, hcatalogue, fun hw => ⟨?_, ?_⟩, fun hN file deps hl => ?_⟩
  · exact hm.disk ▸ hw.dated
  · have hdisk : w'.disk = w.disk := hm.disk
    rw [hdisk]
    exact hm.cache.keeps (fun _ _ hone => hone.timely hw.dated) (fun _ => .blank _ _ _) hw.entries
  · have hl' : w.aside.HasLoaded file deps := hl.congr rfl rfl
    exact (hl'.of_advances (s := w.aside.surroundings) hm.cache hm.dir fun _ _ hchain => by
      induction hchain with
      | refl => exact .refl _ _
      | tail _ hlast ih => exact ih.trans (hlast.lasts hN)).congr rfl rfl

theorem looking : Looking (law N) where
  config := Moves.config
  dir := Moves.dir
  enter w phase := moves_of_builds (Frame.looking_builds.enter w.aside phase) (.refl _)
  get w name := moves_of_builds (Frame.looking_builds.get w.aside name) (.refl _)
  look w id := moves_of_builds (Frame.looking_builds.look w.aside id) (.refl _)
  text w id := moves_of_builds (Frame.looking_builds.text w.aside id) (.refl _)
  buffer w id := moves_of_builds (Frame.looking_builds.buffer w.aside id) (.refl _)
  quiet w p hq := moves_of_builds (Frame.looking_builds.quiet w.aside p hq) hq.catalogue

theorem loading : Loading (law N) N where
  toLooking := looking
  script w id file sc ds hN hfind htext hout hread :=
    moves_of_builds (Frame.loading_builds.script w.aside id file sc ds hN hfind htext hout hread) (.refl _)
  refs w id file hN hfind hsource := by
    refine Session.allows_refreshReferences looking fun deps v script refs hout hdeps hscript hgather hm =>
      (law N).trans hm (moves_of_builds ?_ (.refl _))
    have hgathering := Frame.Gathering.of_findImports hN hfind hsource hout hdeps hscript hgather
    exact Frame.moves_modify (Frame.builds N) v.aside id (fun _ => rfl) fun _ =>
      .single (.loading (.references hgathering))

theorem walking : Walking (law N) where
  get := looking.get
  look := looking.look
  mark w id f := moves_of_builds (Frame.walking_builds.mark w.aside id f) (.refl _)
  unmark w := moves_of_builds (Frame.walking_builds.unmark w.aside) (.refl _)

theorem delivering : Delivering (law N) fun _ => True where
  toLooking := looking
  write w path content := by
    refine ⟨w.written_config path content, w.written_dir path content, ?_, fun hw => ?_,
      fun _ file deps hl => hl.congr (w.written_cache path content) (w.written_dir path content)⟩
    · rw [w.written_catalogue]
      exact .refl _
    · exact hw.of_changes (w.changes_written path content) (w.written_cache path content)
  fails _ _ _ := trivial
  copied w id h := moves_of_builds (Frame.delivering_builds.copied w.aside id h) (.refl _)
  keep w id m h := moves_of_builds (Frame.delivering_builds.keep w.aside id m h) (.refl _)
  took w id hK htext hneed :=
    moves_of_builds (Frame.delivering_builds.took w.aside id hK htext hneed) (.refl _)
  stamp w id := moves_of_builds (Frame.delivering_builds.stamp w.aside id) (.refl _)

theorem placing : Placing (law N) := fun w atlas =>
  moves_of_builds (Frame.placing_builds w.aside atlas) (.refl _)

theorem dropped (w : Workspace) (keep : String → Module → Bool) : (law N).moves w
    { w with project := { w.project with emitted := w.project.emitted.filter keep } } :=
  moves_of_builds (Frame.moves_project (Frame.builds N) w.aside trivial rfl rfl) (.refl _)

theorem overall (mains : List String) : Overall (law fun _ => True) mains where
  loading s := (Session.obeys_loadProgram loading mains s).beneath
  walking := walking
  delivering := delivering
  placing := placing
  dropped := dropped

end Timely

end Workspace

end Bundler

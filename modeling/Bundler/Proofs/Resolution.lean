/-
What a search for an import answers.

A search asks two things only: whether there is a file of some name, and what the text of a package
description is. Given the answers, which file it finds is a matter of the specifier and of the
importing file alone, and it is worked out here without a cache and without anything that a search
notes on its way (`ModuleSearch.Files.resolve`).

What the session sees of the files decides the answers. A name that was asked for has an entry, and
the entry says under which spelling the file is looked for. So the answers to all that a search has
asked can be read off the disk and the cache in which it ends, and of any later one
(`Files.Describes`), and the search finds what these answers lead to
(`ModuleSearch.find_resolves`, `Session.findImports_resolves`).
-/
import Bundler.Proofs.Entries

set_option autoImplicit false

namespace Bundler

open Workspace Step

/-! ## Searches without a cache -/

namespace ModuleSearch

/-- The answers that a search gets: whether there is a file of some name, and its text. -/
structure Files where
  has : String → Bool
  text? : String → Option String

namespace Files

variable (f : Files)

/-- The first source file under a base name. -/
def source? (base : String) (exts : List String) : Option String :=
  (exts.map fun ext => base ++ ext).find? f.has

/-- The module under a base name: a source file, a declaration file whose script is there too, or a
script alone. -/
def at? (base : String) : Option String :=
  (f.source? base [".ts", ".tsx"]).or <|
    if f.has (base ++ ".js") then
      some (if f.has (base ++ ".d.ts") then base ++ ".d.ts" else base ++ ".js")
    else none

/-- The module in the first of some directories that has it. -/
def in? (specifier : String) (dirs : List String) : Option String :=
  dirs.findSome? fun dir => f.at? (Path.join dir specifier)

/-- The module that the description of a package names. -/
def package? (specifier : String) : Option String :=
  match f.text? ("node_modules/" ++ specifier ++ "/package.json") with
  | none => none
  | some text =>
    match readPackage text with
    | .error _ => none
    | .ok main =>
      f.at? (Path.join ("node_modules/" ++ specifier) (Path.stripExtension (main.getD "index.js")))

/-- The file that an import is resolved to. -/
def resolve (specifier file : String) : Option String :=
  if Text.startsWith specifier "." then f.at? (Path.join (Path.dirname file) specifier)
  else (f.in? specifier (ancestors (Path.dirname file))).or (f.package? specifier)

/-- The imports of a file that are resolved: specifier and file. -/
def imports (file : String) (specifiers : List String) : List (String × String) :=
  specifiers.filterMap fun specifier => (f.resolve specifier file).map fun found => (specifier, found)

end Files

end ModuleSearch

/-! ## What a search sees -/

/-- The frame of looks and reads, one after the other. -/
def Frame.looks : Frame :=
  chains Entry.Reading Project.Quiet Project.Quiet.refl Project.Quiet.trans

theorem Frame.looking_looks : Looking Frame.looks.law :=
  looking looks (fun _ e => .single (.look e)) (fun _ e => .single (.text e))
    (fun _ e => .single (.buffer e)) fun _ _ h => h

/-- A text with the time of the file can be read there. -/
def Entry.Legible (disk : Disk) (e : Entry) : Prop :=
  ∀ t text, e.textTime = .at t → e.text = some text → disk.modified? e.fullName = some t →
    (disk.read? e.fullName).map Text.ofBytes = some text

/-- A workspace in which what is seen and read of a file is what there is. -/
structure Workspace.Searchable (w : Workspace) : Prop where
  destination : w.destination = none
  seen : w.cache.Seen w.disk
  legible : ∀ i, i < w.cache.entries.length → (w.cache.entry i).Legible w.disk

/-- Answers that are true of all files that have an entry. -/
def ModuleSearch.Files.Describes (f : Files) (dir : String) (disk : Disk) (c : Cache) : Prop :=
  ∀ name i, c.find? dir name = some i →
    f.has name = (disk.modified? (c.entry i).fullName).isSome ∧
    f.text? name = (disk.read? (c.entry i).fullName).map Text.ofBytes

theorem Entry.Legible.withText {disk : Disk} {e : Entry} (h : e.Legible disk) :
    (e.withText disk).Legible disk := by
  unfold Entry.withText
  split
  · exact fun _ _ ht => absurd ht (by simp)
  · split
    · exact h
    · split
      · rename_i bytes hread
        intro t text _ htext _
        change (disk.read? e.fullName).map Text.ofBytes = some text
        rw [hread, ← htext]
        rfl
      · exact fun _ _ ht => absurd ht (by simp)

theorem Entry.Legible.congr {disk : Disk} {e e' : Entry} (h : e.Legible disk)
    (hname : e'.fullName = e.fullName) (htext : e'.text = e.text)
    (htime : e'.textTime = e.textTime) : e'.Legible disk := by
  unfold Entry.Legible
  rw [hname, htext, htime]
  exact h

theorem Entry.Reading.legible {s : Surroundings} {e e' : Entry} (h : Entry.Reading s e e')
    (he : e.Legible s.disk) : e'.Legible s.disk := by
  cases h with
  | look =>
    unfold Entry.looked
    split
    · exact he
    · exact he.congr rfl rfl rfl
  | text => exact he.withText
  | buffer =>
    unfold Entry.withBuffer
    split
    · exact he.congr rfl rfl rfl
    · split
      · exact he
      · split
        · exact he.congr rfl rfl rfl
        · exact he.congr rfl rfl rfl

/-- Nothing is read of a file that is not there. -/
theorem Disk.read?_of_not_modified? {disk : Disk} {path : String} (h : disk.modified? path = none) :
    disk.read? path = none := by
  unfold modified? at h
  unfold read?
  rw [Option.map_eq_none_iff.mp h]
  split <;> rfl

/-- A file is found exactly if it is there. -/
theorem Entry.found_of_seen {disk : Disk} {e : Entry} (h : e.Seen disk)
    (hset : e.current.isSet = true) : e.found = (disk.modified? e.fullName).isSome := by
  rcases h with hunset | hstamp
  · rw [hunset] at hset
    exact absurd hset (by simp [Stamp.isSet])
  · unfold Entry.found
    rw [hstamp, Disk.stamp_time?]

/-- A text that was found missing is not handed out. -/
private theorem Entry.text?_missing {e : Entry} (htime : e.textTime = .missing) :
    e.text? = none := by
  unfold Entry.text? Entry.isTextCurrent Entry.found
  rw [htime]
  cases e.current <;> simp [Stamp.time?]

/-- The text that is handed out once it was asked for is what can be read. -/
theorem Entry.text?_withText {disk : Disk} {e : Entry} (h : e.Seen disk)
    (hset : e.current.isSet = true) (hlegible : e.Legible disk) :
    (e.withText disk).text? = (disk.read? (e.withText disk).fullName).map Text.ofBytes := by
  have hname : (e.withText disk).fullName = e.fullName := (Read.withText ⟨disk, .default, ""⟩ e).fullName
  rw [hname]
  by_cases hfound : e.found = true
  · obtain ⟨t, hcur, hmod⟩ := h.at_of_found hfound
    unfold Entry.withText
    rw [if_neg (by simp [hfound])]
    by_cases hcurrent : e.isTextCurrent = true
    · rw [if_pos hcurrent]
      unfold Entry.text?
      rw [if_pos hcurrent]
      obtain ⟨-, htime, text, htext⟩ := Entry.isTextCurrent_iff.mp hcurrent
      rw [htext]
      exact (hlegible t text (htime.trans hcur) htext hmod).symm
    · rw [if_neg hcurrent]
      cases disk.read? e.fullName with
      | none => exact Entry.text?_missing rfl
      | some bytes =>
        unfold Entry.text? Entry.isTextCurrent Entry.found
        simp [hcur, Stamp.time?]
  · have hgone : disk.modified? e.fullName = none := by
      rw [found_of_seen h hset] at hfound
      simpa using hfound
    unfold Entry.withText
    rw [if_pos (by simpa using hfound), Disk.read?_of_not_modified? hgone]
    exact Entry.text?_missing rfl

theorem Entry.Legible.blank (disk : Disk) (fullName key : String) :
    (Entry.blank fullName key).Legible disk := fun _ _ ht => absurd ht (by simp [Entry.blank])

namespace Workspace

variable {w w' : Workspace}

theorem Searchable.of_moves (h : w.Searchable) (hm : Frame.looks.Moves w w') : w'.Searchable := by
  have hall := hm.cache.keeps (P := fun e => e.Seen w.disk ∧ e.Legible w.disk)
    (fun _ _ hone he => ⟨hone.read.lasts.seen he.1, hone.legible he.2⟩)
    (fun _ => ⟨Entry.Seen.blank _ _ _, Entry.Legible.blank _ _ _⟩)
    fun i hi => ⟨h.seen i hi, h.legible i hi⟩
  refine ⟨hm.destination, fun i hi => ?_, fun i hi => ?_⟩
  · rw [hm.disk]
    exact (hall i hi).1
  · rw [hm.disk]
    exact (hall i hi).2

end Workspace

/-- Answers that are true later were true before. -/
theorem ModuleSearch.Files.Describes.of_advances {f : Files} {dir : String} {disk : Disk}
    {c c' : Cache} {P : Entry → Entry → Prop} (hf : f.Describes dir disk c')
    (h : Cache.Advances dir P c c') (hname : ∀ e e', P e e' → e'.fullName = e.fullName) :
    f.Describes dir disk c := by
  intro name i hi
  have h' := hf name i (h.find? hi)
  rw [hname _ _ (h.old i (Cache.find?_some hi).1)] at h'
  exact h'

theorem Frame.Moves.describes {w w' : Workspace} (h : Frame.looks.Moves w w')
    {f : ModuleSearch.Files} (hf : f.Describes w'.project.dir w'.disk w'.cache) :
    f.Describes w.project.dir w.disk w.cache := by
  rw [h.dir, h.disk] at hf
  exact hf.of_advances h.cache fun _ _ hchain =>
    Entry.chain_keeps (P := fun e => e.fullName = _) (fun _ _ hone he => hone.read.fullName.trans he)
      hchain rfl

/-! ## What a search finds -/

namespace ModuleSearch

variable {w w' : Workspace} {f : Files}

/-- A name is there exactly if the answer says so. -/
theorem exists?_answers {name : String} {b : Bool} (hw : w.Searchable)
    (h : exists? name w = .ok b w') (hf : f.Describes w'.project.dir w'.disk w'.cache) :
    b = f.has name := by
  have hw' := hw.of_moves (Frame.moves_of_obeys
    (obeys_exists? Frame.looking_looks name) hw.destination h)
  unfold exists? at h
  obtain ⟨i, v, hexistence, h⟩ := (bind_ok_iff _ _ _ _ _).mp h
  obtain ⟨e, v', he, h⟩ := (bind_ok_iff _ _ _ _ _).mp h
  obtain ⟨rfl, rfl⟩ := (entry_ok_iff _ _ _ _).mp he
  obtain ⟨rfl, rfl⟩ := (pure_ok_iff _ _ _ _).mp h
  obtain ⟨hfind, hset, -⟩ := existence_ok hexistence
  rw [(hf name i hfind).1]
  exact Entry.found_of_seen (hw'.seen i (Cache.find?_some hfind).1) hset

/-- The text that is read is the one that the answer gives. -/
theorem content_answers {name : String} {i : Nat} (hw : w.Searchable)
    (h : content name w = .ok i w') (hf : f.Describes w'.project.dir w'.disk w'.cache) :
    (w'.cache.entry i).text? = f.text? name := by
  obtain ⟨v, hexistence, rfl⟩ := content_ok h
  obtain ⟨hfind, hset, -⟩ := existence_ok hexistence
  have hv := hw.of_moves (Frame.moves_of_obeys
    (obeys_existence Frame.looking_looks name) hw.destination hexistence)
  have hi := (Cache.find?_some hfind).1
  have hentry := Cache.entry_ensureText v.disk hi
  have hfind' : (v.cache.ensureText v.disk i).find? v.project.dir name = some i := by
    rw [Cache.find?_eq_keys, Cache.keys_ensureText, ← Cache.find?_eq_keys]
    exact hfind
  rw [(hf name i hfind').2]
  change ((v.cache.ensureText v.disk i).entry i).text?
    = (v.disk.read? ((v.cache.ensureText v.disk i).entry i).fullName).map Text.ofBytes
  rw [hentry]
  exact Entry.text?_withText (hv.seen i hi) hset (hv.legible i hi)

theorem findSource_resolves {key base js : String} {relative : Bool} {exts : List String}
    {found : Option FoundModule} (hw : w.Searchable)
    (h : findSource key base js relative exts w = .ok found w')
    (hf : f.Describes w'.project.dir w'.disk w'.cache) :
    found.map FoundModule.file = f.source? base exts := by
  induction exts generalizing w with
  | nil =>
    obtain ⟨rfl, -⟩ := (pure_ok_iff _ _ _ _).mp h
    rfl
  | cons ext exts ih =>
    unfold findSource at h
    obtain ⟨b, v, hb, h⟩ := (bind_ok_iff _ _ _ _ _).mp h
    have hv := Frame.moves_of_obeys (obeys_exists? Frame.looking_looks _) hw.destination hb
    unfold Files.source?
    rw [List.map_cons, List.find?_cons]
    cases b with
    | true =>
      obtain ⟨u, v', hrecord, h⟩ := (bind_ok_iff _ _ _ _ _).mp h
      obtain ⟨rfl, rfl⟩ := (pure_ok_iff _ _ _ _).mp h
      have hm := Frame.moves_of_obeys (obeys_record Frame.looking_looks _ _) hv.destination hrecord
      rw [← exists?_answers hw hb (hm.describes hf)]
      rfl
    | false =>
      have hm := Frame.moves_of_obeys
        (obeys_findSource Frame.looking_looks _ _ _ _ _) hv.destination h
      rw [← exists?_answers hw hb (hm.describes hf)]
      exact ih (hw.of_moves hv) h

private theorem file_of_recordTakenOver {key base definition js : String} {relative : Bool}
    {m : FoundModule} (h : recordTakenOver key base definition js relative w = .ok m w') :
    m.file = definition := by
  unfold recordTakenOver at h
  obtain ⟨u, v, -, h⟩ := (bind_ok_iff _ _ _ _ _).mp h
  obtain ⟨u', v', -, h⟩ := (bind_ok_iff _ _ _ _ _).mp h
  obtain ⟨rfl, -⟩ := (pure_ok_iff _ _ _ _).mp h
  rfl

/-- The last question under a base name is for a script alone. -/
private theorem scriptAlone_resolves {key base : String} {relative : Bool}
    {found : Option FoundModule} (hw : w.Searchable)
    (h : (do
      if ← exists? (base ++ ".js") then
        return some (← recordTakenOver key base (base ++ ".js") (base ++ ".js") relative)
      return none : Step Workspace (Option FoundModule)) w = .ok found w') :
    Frame.looks.Moves w w' ∧ (f.Describes w'.project.dir w'.disk w'.cache →
      found.map FoundModule.file
        = if f.has (base ++ ".js") then some (base ++ ".js") else none) := by
  obtain ⟨b, v, hb, h⟩ := (bind_ok_iff _ _ _ _ _).mp h
  have hm := Frame.moves_of_obeys (obeys_exists? Frame.looking_looks _) hw.destination hb
  cases b with
  | false =>
    obtain ⟨rfl, rfl⟩ := (pure_ok_iff _ _ _ _).mp h
    refine ⟨hm, fun hf => ?_⟩
    rw [← exists?_answers hw hb hf]
    rfl
  | true =>
    obtain ⟨m, v', htaken, h⟩ := (bind_ok_iff _ _ _ _ _).mp h
    obtain ⟨rfl, rfl⟩ := (pure_ok_iff _ _ _ _).mp h
    have hm' := Frame.moves_of_obeys
      (obeys_recordTakenOver Frame.looking_looks _ _ _ _ _) hm.destination htaken
    refine ⟨hm.trans hm', fun hf => ?_⟩
    rw [← exists?_answers hw hb (hm'.describes hf), Option.map_some,
      file_of_recordTakenOver htaken]
    rfl

/-- What is found under a base name is what the answers lead to. -/
theorem findAt_resolves {key base : String} {relative : Bool} {found : Option FoundModule}
    (hw : w.Searchable) (h : findAt key base relative w = .ok found w')
    (hf : f.Describes w'.project.dir w'.disk w'.cache) :
    found.map FoundModule.file = f.at? base := by
  unfold findAt at h
  unfold Files.at?
  obtain ⟨source, v, hsource, h⟩ := (bind_ok_iff _ _ _ _ _).mp h
  have hv := Frame.moves_of_obeys
    (obeys_findSource Frame.looking_looks _ _ _ _ _) hw.destination hsource
  have hsv := hw.of_moves hv
  cases source with
  | some m =>
    obtain ⟨rfl, rfl⟩ := (pure_ok_iff _ _ _ _).mp h
    rw [← findSource_resolves hw hsource hf]
    rfl
  | none =>
    obtain ⟨declared, v₁, hdecl, h⟩ := (bind_ok_iff _ _ _ _ _).mp h
    have hv₁ := Frame.moves_of_obeys (obeys_exists? Frame.looking_looks _) hv.destination hdecl
    have hsv₁ := hsv.of_moves hv₁
    cases declared with
    | false =>
      obtain ⟨hm, hend⟩ := scriptAlone_resolves hsv₁ h
      rw [hend hf, ← findSource_resolves hw hsource (hv₁.describes (hm.describes hf)),
        ← exists?_answers hsv hdecl (hm.describes hf)]
      rfl
    | true =>
      obtain ⟨there, v₂, hscript, h⟩ := (bind_ok_iff _ _ _ _ _).mp h
      have hv₂ := Frame.moves_of_obeys (obeys_exists? Frame.looking_looks _) hv₁.destination hscript
      cases there with
      | false =>
        obtain ⟨hm, hend⟩ := scriptAlone_resolves (hsv₁.of_moves hv₂) h
        have hf₁ := hv₂.describes (hm.describes hf)
        rw [hend hf, ← findSource_resolves hw hsource (hv₁.describes hf₁),
          ← exists?_answers hsv₁ hscript (hm.describes hf)]
        rfl
      | true =>
        obtain ⟨m, v₃, htaken, h⟩ := (bind_ok_iff _ _ _ _ _).mp h
        obtain ⟨rfl, rfl⟩ := (pure_ok_iff _ _ _ _).mp h
        have hm := Frame.moves_of_obeys
          (obeys_recordTakenOver Frame.looking_looks _ _ _ _ _) hv₂.destination htaken
        have hf₁ := hv₂.describes (hm.describes hf)
        rw [← findSource_resolves hw hsource (hv₁.describes hf₁), ← exists?_answers hsv hdecl hf₁,
          ← exists?_answers hsv₁ hscript (hm.describes hf), Option.map_some,
          file_of_recordTakenOver htaken]
        rfl

theorem findIn_resolves {specifier : String} {dirs : List String} {found : Option FoundModule}
    (hw : w.Searchable) (h : findIn specifier dirs w = .ok found w')
    (hf : f.Describes w'.project.dir w'.disk w'.cache) :
    found.map FoundModule.file = f.in? specifier dirs := by
  induction dirs generalizing w with
  | nil =>
    obtain ⟨rfl, -⟩ := (pure_ok_iff _ _ _ _).mp h
    rfl
  | cons dir dirs ih =>
    unfold findIn at h
    obtain ⟨here, v, hat, h⟩ := (bind_ok_iff _ _ _ _ _).mp h
    have hv := Frame.moves_of_obeys (obeys_findAt Frame.looking_looks _ _ _) hw.destination hat
    unfold Files.in?
    rw [List.findSome?_cons]
    cases here with
    | some m =>
      obtain ⟨rfl, rfl⟩ := (pure_ok_iff _ _ _ _).mp h
      rw [← findAt_resolves hw hat hf]
      rfl
    | none =>
      have hm := Frame.moves_of_obeys (obeys_findIn Frame.looking_looks _ _) hv.destination h
      rw [← findAt_resolves hw hat (hm.describes hf)]
      exact ih (hw.of_moves hv) h

/-- Saying that nothing was found finds nothing else. -/
private theorem orSay_resolves {specifier file : String} {found answer : Option FoundModule}
    (h : orSay specifier file found w = .ok answer w') : answer = found := by
  unfold orSay at h
  cases found with
  | none =>
    obtain ⟨u, v, -, h⟩ := (bind_ok_iff _ _ _ _ _).mp h
    exact ((pure_ok_iff _ _ _ _).mp h).1.symm
  | some m => exact ((pure_ok_iff _ _ _ _).mp h).1.symm

private theorem findAt_orSay_resolves {key base specifier file : String} {relative : Bool}
    {found : Option FoundModule} (hw : w.Searchable)
    (h : (do orSay specifier file (← findAt key base relative) :
      Step Workspace (Option FoundModule)) w = .ok found w')
    (hf : f.Describes w'.project.dir w'.disk w'.cache) :
    found.map FoundModule.file = f.at? base := by
  obtain ⟨here, v, hat, h⟩ := (bind_ok_iff _ _ _ _ _).mp h
  have hv := Frame.moves_of_obeys (obeys_findAt Frame.looking_looks _ _ _) hw.destination hat
  have hm := Frame.moves_of_obeys (obeys_orSay Frame.looking_looks _ _ _) hv.destination h
  rw [orSay_resolves h]
  exact findAt_resolves hw hat (hm.describes hf)

theorem findPackage_resolves {specifier file : String} {found : Option FoundModule}
    (hw : w.Searchable) (h : findPackage specifier file w = .ok found w')
    (hf : f.Describes w'.project.dir w'.disk w'.cache) :
    found.map FoundModule.file = f.package? specifier := by
  unfold findPackage at h
  unfold Files.package?
  obtain ⟨i, v, hcontent, h⟩ := (bind_ok_iff _ _ _ _ _).mp h
  have hv := Frame.moves_of_obeys (obeys_content Frame.looking_looks _) hw.destination hcontent
  obtain ⟨e, v', he, h⟩ := (bind_ok_iff _ _ _ _ _).mp h
  obtain ⟨rfl, rfl⟩ := (entry_ok_iff _ _ _ _).mp he
  have hanswer := fun hm : Frame.looks.Moves v w' => content_answers hw hcontent (hm.describes hf)
  cases htext : (v.cache.entry i).text? with
  | none =>
    rw [htext] at h hanswer
    obtain ⟨rfl, rfl⟩ := (pure_ok_iff _ _ _ _).mp h
    rw [← hanswer (Frame.Moves.refl hv.destination)]
    rfl
  | some text =>
    rw [htext] at h hanswer
    simp only at h
    cases hpackage : readPackage text with
    | error e =>
      rw [hpackage] at h
      obtain ⟨u, v', hsay, h⟩ := (bind_ok_iff _ _ _ _ _).mp h
      obtain ⟨rfl, rfl⟩ := (pure_ok_iff _ _ _ _).mp h
      rw [← hanswer (Frame.moves_of_obeys (obeys_say Frame.looking_looks _) hv.destination hsay)]
      simp only [hpackage]
      rfl
    | ok main =>
      rw [hpackage] at h
      have hm := Frame.moves_of_obeys ((obeys_findAt Frame.looking_looks _ _ _).bind fun _ =>
        obeys_orSay Frame.looking_looks _ _ _) hv.destination h
      rw [← hanswer hm]
      simp only [hpackage]
      exact findAt_orSay_resolves (hw.of_moves hv) h hf

/-- The file that an import is found in is the one that the answers lead to. -/
theorem find_resolves {specifier file : String} {found : Option FoundModule}
    (hw : w.Searchable) (h : find specifier file w = .ok found w')
    (hf : f.Describes w'.project.dir w'.disk w'.cache) :
    found.map FoundModule.file = f.resolve specifier file := by
  unfold find at h
  unfold Files.resolve
  split at h
  · rename_i hrelative
    rw [if_pos hrelative]
    unfold findRelative at h
    split at h
    · obtain ⟨u, v, hsay, h⟩ := (bind_ok_iff _ _ _ _ _).mp h
      have hv := Frame.moves_of_obeys (obeys_say Frame.looking_looks _) hw.destination hsay
      exact findAt_orSay_resolves (hw.of_moves hv) h hf
    · exact findAt_orSay_resolves hw h hf
  · rename_i hbare
    rw [if_neg hbare]
    obtain ⟨here, v, hin, h⟩ := (bind_ok_iff _ _ _ _ _).mp h
    have hv := Frame.moves_of_obeys (obeys_findIn Frame.looking_looks _ _) hw.destination hin
    cases here with
    | some m =>
      obtain ⟨rfl, rfl⟩ := (pure_ok_iff _ _ _ _).mp h
      rw [← findIn_resolves hw hin hf]
      rfl
    | none =>
      have hm := Frame.moves_of_obeys (obeys_findPackage Frame.looking_looks _ _) hv.destination h
      rw [← findIn_resolves hw hin (hm.describes hf)]
      exact findPackage_resolves (hw.of_moves hv) h hf

end ModuleSearch

/-- The imports that are found are those that the answers lead to. -/
theorem Session.findImports_resolves {f : ModuleSearch.Files} {file : String}
    {specifiers : List String} {deps : List (String × String)} {w w' : Workspace}
    (hw : w.Searchable) (h : findImports file specifiers w = .ok deps w')
    (hf : f.Describes w'.project.dir w'.disk w'.cache) : deps = f.imports file specifiers := by
  induction specifiers generalizing w deps with
  | nil =>
    obtain ⟨rfl, -⟩ := (pure_ok_iff _ _ _ _).mp h
    rfl
  | cons specifier rest ih =>
    obtain ⟨found, v, hfound, h⟩ := (bind_ok_iff _ _ _ _ _).mp h
    obtain ⟨others, v', hothers, h⟩ := (bind_ok_iff _ _ _ _ _).mp h
    have hv := Frame.moves_of_obeys
      (ModuleSearch.obeys_find Frame.looking_looks _ _) hw.destination hfound
    have hm := Frame.moves_of_obeys (obeys_findImports Frame.looking_looks _ _) hv.destination hothers
    have hend : v' = w' := by
      cases found with
      | none => exact ((pure_ok_iff _ _ _ _).mp h).2
      | some m => exact ((pure_ok_iff _ _ _ _).mp h).2
    subst hend
    have hone := ModuleSearch.find_resolves hw hfound (hm.describes hf)
    have hrest := ih (hw.of_moves hv) hothers
    unfold ModuleSearch.Files.imports at hrest ⊢
    rw [List.filterMap_cons, ← hone, ← hrest]
    cases found with
    | none => exact ((pure_ok_iff _ _ _ _).mp h).1.symm
    | some m => exact ((pure_ok_iff _ _ _ _).mp h).1.symm

end Bundler

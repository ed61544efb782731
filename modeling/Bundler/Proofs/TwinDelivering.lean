/-
Delivering in lockstep.

What is delivered beside the written scripts is copied where it is newer than its copy, and twins agree
on that. When a file was copied it gets the time of its text or its own as a stamp, and it is not newer
than its copy any more, in either workspace.

The style sheets that are found are kept by their numbers, which differ in the two workspaces. So two
lists of them go side by side: they have the same names and agree on which of them are stale, and the
numbers at one place are those of one name (`Past.Sheeted`).
-/
import Bundler.Proofs.TwinWriting

set_option autoImplicit false

namespace Bundler

open Workspace Step Coupling

/-! ## Copies -/

namespace Entry

variable {N : String → Prop} {s : Surroundings} {e : Entry}

/-- With the time of the file as a stamp a file is not newer than its copy. -/
theorem Reliable.isDue_copied (h : e.Reliable N s) (hset : e.current.isSet = true) :
    isDue s.disk { e with outputTime := e.current } = false := by
  have hcur : e.current.time? = s.disk.modified? e.fullName := by
    rw [current_eq h.seen hset, Disk.stamp_time?]
  unfold isDue
  simp only [hcur]
  cases s.disk.modified? e.fullName with
  | none => rfl
  | some now => simp

/-- So it is with the time of a text that is current. -/
theorem Reliable.isDue_took (h : e.Reliable N s) (htext : e.isTextCurrent = true) :
    isDue s.disk { e with outputTime := e.textTime } = false := by
  obtain ⟨-, htime, -⟩ := isTextCurrent_iff.mp htext
  rw [htime]
  exact h.isDue_copied (isSet_of_isTextCurrent htext)

theorem Grows.text? {e' : Entry} {text : String} (h : Grows e e') (ht : e.text? = some text) :
    e'.text? = some text := by
  have hcur : e.isTextCurrent = true := by rw [isTextCurrent_eq, ht]; rfl
  unfold Entry.text? at ht ⊢
  rw [if_pos hcur] at ht
  rw [if_pos (h.isTextCurrent hcur), (h.text hcur).1, ht]

end Entry

namespace Past

open Assembly

variable {past : Past} {name : String} {i i' : Nat}

/-- A stamp by which the file is not newer than its copy. -/
private theorem lockstep_stamp {P : Entry → Prop} {stamp : Entry → Stamp}
    (hdue : ∀ (s : Surroundings) (e : Entry), e.Reliable past.names s → P e →
      Entry.isDue s.disk { e with outputTime := stamp e } = false) :
    Lockstep past.coupling (Pair P name i i')
      (changeEntry i fun e => { e with outputTime := stamp e })
      (changeEntry i' fun e => { e with outputTime := stamp e }) same := by
  have hgrows : ∀ e : Entry, Entry.Grows e { e with outputTime := stamp e } :=
    fun e => Entry.Grows.of_stamps e (stamp e) e.freshness
  have hchange : Lockstep past.coupling (Pair P name i i')
      (changeEntry i fun e => { e with outputTime := stamp e })
      (changeEntry i' fun e => { e with outputTime := stamp e })
      fun w w' _ _ => Pair (fun _ => True) name i i' w w' := by
    refine lockstep_changeEntry (P := P) hgrows hgrows fun w w' hw hp => ?_
    obtain ⟨hr, hr'⟩ := hp.reliable hw
    refine ⟨hp, Entry.Working.stamp _ _ _ _, Entry.Working.stamp _ _ _ _,
      (hp.twin hw).congr (hgrows _) (hgrows _) rfl rfl rfl rfl rfl rfl ?_, trivial, trivial⟩
    exact (hdue _ _ hr' hp.holds').trans (hdue _ _ hr hp.holds).symm
  exact hchange.conseq (fun _ _ _ h => h) fun _ _ _ _ _ _ => rfl

/-! ## Scripts that are taken over -/

theorem steady_takeOver (bundled : Bool) (source output text : String) :
    Steady past.coupling (takeOver bundled source output text) := by
  unfold takeOver
  split
  · exact (Steady.of_lift _).bind fun _ =>
      steady_changeProject (steady_modify (fun _ q => ⟨q, rfl⟩) fun _ => ⟨rfl, rfl, rfl⟩)
  · exact steady_write _ _

/-- Takes over a dependent script whose text was asked for. -/
def takeText (bundled : Bool) (source output : String) (id : Nat) (text : Option String) :
    Step Workspace Unit :=
  match text with
  | none => say ("Error: Dependent " ++ source ++ " failed to load")
  | some text => do
    takeOver bundled source output text
    changeEntry id fun e => { e with outputTime := e.textTime }

theorem steady_copyScript (bundled : Bool) (script : String × String) :
    Steady past.coupling (copyScript bundled script) := by
  obtain ⟨source, output⟩ := script
  -- the text was asked for
  have htake : ∀ (i i' : Nat) (text : Option String), Lockstep past.coupling
      (fun w w' => Pair (Entry.Asked w.disk) source i i' w w' ∧
        (w.cache.entry i).text? = text ∧ (w'.cache.entry i').text? = text)
      (takeText bundled source output i text) (takeText bundled source output i' text) same := by
    intro i i' text
    cases text with
    | none => exact (steady_say _).of_pre fun _ _ _ _ => trivial
    | some text =>
      have hkeep : past.coupling.Stable (Pair (fun e => e.text? = some text) source i i') :=
        stable_pair fun _ _ hg h => hg.text? h
      have htakeOver := (@steady_takeOver past bundled source output text).keeping hkeep
      refine (htakeOver.of_pre fun w w' _ ⟨hp, htext, htext'⟩ =>
        ⟨hp.left, hp.right, htext, htext'⟩).bind_same fun _ => ?_
      exact lockstep_stamp fun s e he ht =>
        he.isDue_took (by rw [Entry.isTextCurrent_eq, ht]; rfl)
  have hcopy : ∀ (i i' : Nat) (seen : Bool × Bool), Lockstep past.coupling (Pair Looked source i i')
      (if !seen.1 then say ("Error: Dependent " ++ source ++ " not found")
        else if bundled || seen.2 then do
          onCache fun disk _ c => ((), c.ensureText disk i)
          takeText bundled source output i (← entry i).text?
        else pure () : Step Workspace Unit)
      (if !seen.1 then say ("Error: Dependent " ++ source ++ " not found")
        else if bundled || seen.2 then do
          onCache fun disk _ c => ((), c.ensureText disk i')
          takeText bundled source output i' (← entry i').text?
        else pure ()) same := by
    intro i i' seen
    split
    · exact (steady_say _).of_pre fun _ _ _ _ => trivial
    · split
      · exact lockstep_ensureText.bind fun _ _ =>
          lockstep_entry Entry.text? (fun w w' hw hp => hp.text? hw) (htake i i')
      · exact Lockstep.of_pure _ _ fun _ _ _ _ => rfl
  unfold copyScript
  refine (lockstep_existence source).bind fun i i' => ?_
  exact lockstep_entry (fun e => (e.found, e.needsCopy))
    (fun w w' hw hp => Prod.ext (hp.found hw) (hp.needsCopy hw))
    fun seen => (hcopy i i' seen).of_pre fun _ _ _ h => h.1

theorem steady_copyDependencyJs : Steady past.coupling copyDependencyJs := by
  have hall : ∀ c : Bool × List (String × String),
      Steady past.coupling (c.2.forM (copyScript c.1)) := fun c =>
    Steady.forM fun script _ => steady_copyScript c.1 script
  exact (steady_enter _).bind fun _ =>
    steady_read (fun p => (p.config.bundle != .none, p.depJs.toList)) (fun _ _ => rfl) hall

/-! ## Style sheets -/

/-- Two lists of style sheets, side by side. -/
def Sheeted (w w' : Workspace) (sheets sheets' : List Sheet) : Prop :=
  List.Forall₂ (fun s s' => (s'.name = s.name ∧ s'.stale = s.stale) ∧ Pair Looked s.name s.id s'.id w w')
    sheets sheets'

/-- Two lists of style sheets with the same names, of which the same are stale. -/
private def Alike (sheets sheets' : List Sheet) : Prop :=
  List.Forall₂ (fun s s' => s'.name = s.name ∧ s'.stale = s.stale) sheets sheets'

private theorem Sheeted.alike {w w' : Workspace} {sheets sheets' : List Sheet}
    (h : Sheeted w w' sheets sheets') : Alike sheets sheets' := h.imp fun _ _ h => h.1

private theorem stable_sheeted {sheets sheets' : List Sheet} :
    past.coupling.Stable fun w w' => Sheeted w w' sheets sheets' :=
  fun w w' t t' hw hm hm' ht h => h.imp fun _ _ hone =>
    ⟨hone.1, stable_looked w w' t t' hw hm hm' ht hone.2⟩

theorem lockstep_findSheets (names : List String) :
    Lockstep past.coupling free (findSheets names) (findSheets names) Sheeted := by
  induction names with
  | nil => exact Lockstep.of_pure _ _ fun _ _ _ _ => List.Forall₂.nil
  | cons name names ih =>
    unfold findSheets
    refine Lockstep.lift_bind fun css _ => ?_
    cases css with
    | false => exact ih
    | true =>
      have hfound : ∀ (i i' : Nat) (seen : Bool × Bool), Lockstep past.coupling
          (Pair Looked name i i')
          (do
            let rest ← findSheets names
            return if seen.1 then ⟨name, i, seen.2⟩ :: rest else rest : Step Workspace (List Sheet))
          (do
            let rest ← findSheets names
            return if seen.1 then ⟨name, i', seen.2⟩ :: rest else rest) Sheeted := by
        intro i i' seen
        refine ((Lockstep.frame stable_looked ih).of_pre fun _ _ _ h => ⟨trivial, h⟩).bind
          fun rest rest' => ?_
        cases seen.1 with
        | false => exact Lockstep.of_pure _ _ fun _ _ _ h => h.1
        | true => exact Lockstep.of_pure _ _ fun _ _ _ h => .cons ⟨⟨rfl, rfl⟩, h.2⟩ h.1
      refine (lockstep_existence name).bind fun i i' => ?_
      exact lockstep_entry (fun e => (e.found, e.needsCopy))
        (fun w w' hw hp => Prod.ext (Pair.found hp hw) (Pair.needsCopy hp hw))
        fun seen => (hfound i i' seen).of_pre fun _ _ _ h => h.1

theorem lockstep_sheetText : Lockstep past.coupling (Pair Looked name i i') (sheetText i)
    (sheetText i') same :=
  lockstep_ensureBuffer.bind fun _ _ =>
    lockstep_entry Entry.buffer? (fun _ _ hw hp => hp.buffer? hw)
      fun buffer => Lockstep.of_pure (buffer.map Text.ofBytes) _ fun _ _ _ _ => rfl

theorem lockstep_sheetTexts : ∀ {sheets sheets' : List Sheet}, Alike sheets sheets' →
    Lockstep past.coupling (fun w w' => Sheeted w w' sheets sheets') (sheetTexts sheets)
      (sheetTexts sheets') same := by
  intro sheets sheets' h
  induction h with
  | nil => exact Lockstep.of_pure _ _ fun _ _ _ _ => rfl
  | @cons s s' ss ss' hone _ ih =>
    have htext : Lockstep past.coupling (fun w w' => Sheeted w w' (s :: ss) (s' :: ss'))
        (sheetText s.id) (sheetText s'.id)
        fun w w' text text' => text = text' ∧ Sheeted w w' ss ss' :=
      (Lockstep.frame stable_sheeted lockstep_sheetText).of_pre fun _ _ _ h =>
        ⟨(List.forall₂_cons.mp h).1.2, (List.forall₂_cons.mp h).2⟩
    have hrest : Lockstep past.coupling (fun w w' => Sheeted w w' ss ss') (sheetTexts ss)
        (sheetTexts ss') fun _ _ rest rest' => rest = rest' ∧ True :=
      ih.conseq (fun _ _ _ h => h) fun _ _ _ _ _ h => ⟨h, trivial⟩
    refine htext.bind_same fun text => hrest.bind_same fun rest => ?_
    cases text with
    | none => exact Lockstep.of_pure _ _ fun _ _ _ _ => rfl
    | some text =>
      rw [hone.1]
      exact Lockstep.of_pure _ _ fun _ _ _ _ => rfl

private theorem steady_link (output : String) : Steady past.coupling
    (changeProject fun p => { p with cssToLink := p.cssToLink ++ [output] }) :=
  steady_changeProject (steady_modify (fun _ q => ⟨q, rfl⟩) fun _ => ⟨rfl, rfl, rfl⟩)

/-- Lists of style sheets that go side by side are alike, whatever the states are. -/
private theorem lockstep_of_alike {α : Type} {sheets sheets' : List Sheet} {x x' : Step Workspace α}
    (hx : Obeys past.coupling.law x) (hx' : Obeys past.coupling.law x')
    (h : Alike sheets sheets' →
      Lockstep past.coupling (fun w w' => Sheeted w w' sheets sheets') x x' same) :
    Lockstep past.coupling (fun w w' => Sheeted w w' sheets sheets') x x' same :=
  Lockstep.of_eq hx hx' fun _ _ _ hp => ⟨_, x, x', hp, rfl, rfl, h (Sheeted.alike hp)⟩

theorem lockstep_mergeSheets {sheets sheets' : List Sheet} :
    Lockstep past.coupling (fun w w' => Sheeted w w' sheets sheets') (mergeSheets sheets)
      (mergeSheets sheets') same := by
  have hwriting := Frame.delivering_grows.toWriting
  refine lockstep_of_alike (obeys_of_grows (obeys_mergeSheets hwriting sheets))
    (obeys_of_grows (obeys_mergeSheets hwriting sheets')) fun halike => ?_
  have hstale : sheets'.any (·.stale) = sheets.any (·.stale) := by
    induction halike with
    | nil => rfl
    | cons hone _ ih =>
      rw [List.any_cons, List.any_cons, hone.2, ih]
  have hempty : sheets'.isEmpty = sheets.isEmpty := by
    cases halike with
    | nil => rfl
    | cons _ _ => rfl
  unfold mergeSheets
  rw [hempty, hstale]
  split
  · exact Lockstep.of_pure _ _ fun _ _ _ _ => rfl
  · refine ((steady_onProject (steady_shorten _)).keeping stable_sheeted).bind_same fun output => ?_
    split
    · have htexts : Lockstep past.coupling (fun w w' => Sheeted w w' sheets sheets')
          (sheetTexts sheets) (sheetTexts sheets') fun _ _ texts texts' => texts = texts' ∧ True :=
        (lockstep_sheetTexts halike).conseq (fun _ _ _ h => h) fun _ _ _ _ _ h => ⟨h, trivial⟩
      refine htexts.bind_same fun sources => ?_
      exact (steady_onProject (steady_concatenate sources steady_mergedReference)).bind fun _ =>
        (steady_write _ _).bind fun _ => steady_link _
    · exact (steady_link _).of_pre fun _ _ _ _ => trivial

/-- Writes the style sheet that a text is. -/
def writeSheet (name output : String) (text : Option String) : Step Workspace Unit :=
  match text with
  | none => return
  | some text => do
    let css ← onProject (Stylesheet.mapUrls text fun url => plainReference url name)
    write output (Text.toBytes css)

theorem lockstep_copySheet {s s' : Sheet} (halike : s'.name = s.name ∧ s'.stale = s.stale) :
    Lockstep past.coupling (Pair Looked s.name s.id s'.id) (copySheet s) (copySheet s') same := by
  obtain ⟨name, id, stale⟩ := s
  obtain ⟨name', id', stale'⟩ := s'
  obtain ⟨rfl, rfl⟩ := halike
  have hwrite : ∀ (output : String) (text : Option String),
      Steady past.coupling (writeSheet name' output text) := by
    intro output text
    cases text with
    | none => exact Steady.of_pure _
    | some text =>
      exact (steady_onProject (steady_mapUrls text fun url => steady_plainReference url name')).bind
        fun _ => steady_write _ _
  have hcopy : ∀ output : Option String, Lockstep past.coupling (Pair Looked name' id id')
      (do
        changeProject fun p => { p with cssToLink := p.cssToLink ++ [output.getD name'] }
        if stale' then
          writeSheet name' (output.getD name') (← sheetText id))
      (do
        changeProject fun p => { p with cssToLink := p.cssToLink ++ [output.getD name'] }
        if stale' then
          writeSheet name' (output.getD name') (← sheetText id')) same := by
    intro output
    refine ((steady_link _).keeping stable_looked).bind_same fun _ => ?_
    split
    · have htext : Lockstep past.coupling (Pair Looked name' id id') (sheetText id) (sheetText id')
          fun _ _ text text' => text = text' ∧ True :=
        lockstep_sheetText.conseq (fun _ _ _ h => h) fun _ _ _ _ _ h => ⟨h, trivial⟩
      exact htext.bind_same fun text => (hwrite _ text).of_pre fun _ _ _ _ => trivial
    · exact Lockstep.of_pure _ _ fun _ _ _ _ => rfl
  exact Lockstep.of_get (C := past.coupling) (fun w : Workspace => w.project.depAssets.get? name')
    (fun w w' hw _ => recalls_congr hw.project (fun p => p.depAssets.get? name') fun _ => rfl)
    fun output => (hcopy output).of_pre fun _ _ _ h => h.1

theorem lockstep_copySheets : ∀ {sheets sheets' : List Sheet}, Alike sheets sheets' →
    Lockstep past.coupling (fun w w' => Sheeted w w' sheets sheets') (sheets.forM copySheet)
      (sheets'.forM copySheet) same := by
  intro sheets sheets' h
  induction h with
  | nil => exact Lockstep.of_pure _ _ fun _ _ _ _ => rfl
  | @cons s s' ss ss' hone _ ih =>
    have hcopy : Lockstep past.coupling (fun w w' => Sheeted w w' (s :: ss) (s' :: ss'))
        (copySheet s) (copySheet s') fun w w' u u' => u = u' ∧ Sheeted w w' ss ss' :=
      (Lockstep.frame stable_sheeted (lockstep_copySheet hone)).of_pre fun _ _ _ h =>
        ⟨(List.forall₂_cons.mp h).1.2, (List.forall₂_cons.mp h).2⟩
    exact hcopy.bind_same fun _ => ih

/-! ## Assets -/

/-- Copies an asset whose bytes were asked for. -/
def copyBytes (name output : String) (id : Nat) (buffer : Option Bytes) : Step Workspace Unit :=
  match buffer with
  | none => say ("Error: Dependent " ++ name ++ " failed to load")
  | some bytes => do
    let elsewhere ← if ← Path.isCss name then pure true else Path.isJs name
    if !elsewhere then write output bytes
    changeEntry id fun e => { e with outputTime := e.current }

theorem steady_copyAsset (asset : String × String) : Steady past.coupling (copyAsset asset) := by
  obtain ⟨name, output⟩ := asset
  have hstamp : ∀ i i', Lockstep past.coupling (Pair Looked name i i')
      (changeEntry i fun e => { e with outputTime := e.current })
      (changeEntry i' fun e => { e with outputTime := e.current }) same := fun i i' =>
    lockstep_stamp fun _ _ he hset => he.isDue_copied hset
  have hput : ∀ (i i' : Nat) (bytes : Bytes) (elsewhere : Bool), Lockstep past.coupling
      (Pair Looked name i i')
      (do
        if !elsewhere then write output bytes
        changeEntry i fun e => { e with outputTime := e.current } : Step Workspace Unit)
      (do
        if !elsewhere then write output bytes
        changeEntry i' fun e => { e with outputTime := e.current }) same := by
    intro i i' bytes elsewhere
    cases elsewhere with
    | true => exact hstamp i i'
    | false => exact ((steady_write _ _).keeping stable_looked).bind_same fun _ => hstamp i i'
  have hgrasp : ∀ (i i' : Nat) (buffer : Option Bytes), Lockstep past.coupling
      (Pair Looked name i i')
      (copyBytes name output i buffer) (copyBytes name output i' buffer) same := by
    intro i i' buffer
    cases buffer with
    | none => exact (steady_say _).of_pre fun _ _ _ _ => trivial
    | some bytes =>
      refine Lockstep.lift_bind fun css _ => ?_
      cases css with
      | true => exact hput i i' bytes true
      | false => exact Lockstep.lift_bind fun js _ => hput i i' bytes js
  have hcopy : ∀ (i i' : Nat) (seen : Bool × Bool), Lockstep past.coupling (Pair Looked name i i')
      (if !seen.1 then say ("Error: Dependent " ++ name ++ " not found")
        else if seen.2 then do
          onCache fun disk _ c => ((), c.ensureBuffer disk i)
          copyBytes name output i (← entry i).buffer?
        else pure () : Step Workspace Unit)
      (if !seen.1 then say ("Error: Dependent " ++ name ++ " not found")
        else if seen.2 then do
          onCache fun disk _ c => ((), c.ensureBuffer disk i')
          copyBytes name output i' (← entry i').buffer?
        else pure ()) same := by
    intro i i' seen
    split
    · exact (steady_say _).of_pre fun _ _ _ _ => trivial
    · split
      · exact lockstep_ensureBuffer.bind fun _ _ =>
          lockstep_entry Entry.buffer? (fun w w' hw hp => hp.buffer? hw) fun buffer =>
            (hgrasp i i' buffer).of_pre fun _ _ _ h => h.1.mono fun _ he => he.1
      · exact Lockstep.of_pure _ _ fun _ _ _ _ => rfl
  unfold copyAsset
  refine (lockstep_existence name).bind fun i i' => ?_
  exact lockstep_entry (fun e => (e.found, e.needsCopy))
    (fun w w' hw hp => Prod.ext (hp.found hw) (hp.needsCopy hw))
    fun seen => (hcopy i i' seen).of_pre fun _ _ _ h => h.1

theorem steady_processAssets : Steady past.coupling processAssets := by
  have hassets : Steady past.coupling (do
      (← get).project.depAssets.toList.forM copyAsset : Step Workspace Unit) := by
    have hall : ∀ assets : List (String × String), Steady past.coupling (assets.forM copyAsset) :=
      fun assets => Steady.forM fun asset _ => steady_copyAsset asset
    exact steady_read (fun p => p.depAssets.toList) (fun _ _ => rfl) hall
  have hsheets : ∀ c : List String × BundleMode, Steady past.coupling (do
      let sheets ← findSheets c.1
      if c.2 == .merged then mergeSheets sheets else sheets.forM copySheet
      (← get).project.depAssets.toList.forM copyAsset : Step Workspace Unit) := by
    intro c
    refine (lockstep_findSheets c.1).bind fun sheets sheets' => ?_
    have hcopy : Lockstep past.coupling (fun w w' => Sheeted w w' sheets sheets')
        (sheets.forM copySheet) (sheets'.forM copySheet) same :=
      have hobeys : ∀ ss : List Sheet, Obeys past.coupling.law (ss.forM copySheet) := fun ss =>
        obeys_of_grows (obeys_forM (obeys_copySheet Frame.delivering_grows.toWriting) ss)
      lockstep_of_alike (hobeys sheets) (hobeys sheets') lockstep_copySheets
    split
    · exact (lockstep_mergeSheets.conseq (fun _ _ _ h => h)
        fun _ _ _ _ _ h => ⟨h, trivial⟩ : Lockstep past.coupling _ _ _ fun _ _ u u' =>
          u = u' ∧ True).bind_same fun _ => hassets
    · exact (hcopy.conseq (fun _ _ _ h => h)
        fun _ _ _ _ _ h => ⟨h, trivial⟩ : Lockstep past.coupling _ _ _ fun _ _ u u' =>
          u = u' ∧ True).bind_same fun _ => hassets
  exact (steady_enter _).bind fun _ =>
    steady_read (fun p => (p.depAssets.keys, p.config.bundle)) (fun _ _ => rfl) hsheets

/-! ## The bundle -/

theorem steady_scriptAssets (names : List String) :
    Steady past.coupling (scriptAssets names) := by
  induction names with
  | nil => exact Steady.of_pure _
  | cons name names ih =>
    unfold scriptAssets
    refine Lockstep.lift_bind fun js _ => ?_
    cases js with
    | false => exact ih
    | true =>
      have hrest : ∀ bytes : Option Bytes, Steady past.coupling (do
          let rest ← scriptAssets names
          return bytes.toList ++ rest : Step Workspace (List Bytes)) := fun bytes =>
        ih.bind fun _ => Steady.of_pure _
      refine (lockstep_existence name).bind fun i i' => lockstep_ensureBuffer.bind fun _ _ => ?_
      exact lockstep_ask Entry.buffer? (fun _ _ hw hp => Pair.buffer? hp hw) hrest

theorem steady_writeMerged (output : String) (entries : List String) (blobs : List Bytes) :
    Steady past.coupling (writeMerged output entries blobs) := by
  have hwrite : ∀ c : Modules × Config, Steady past.coupling
      (write output (Bundle.merged c.1 entries blobs
        ⟨c.2.compress, c.2.mangle, c.2.beautify, c.2.defines⟩)) := fun c => steady_write output _
  exact steady_read (fun p => (p.emitted, p.config)) (fun _ _ => rfl) hwrite

/-- Writes a fast bundle and its map, if they came to be. -/
def writeBundle (output : String) (made : Except Failure Bundle.FastBundle) : Step Workspace Unit :=
  match made with
  | .error e => throw e
  | .ok bundle => do
    write (output ++ ".map") (Text.toBytes bundle.map)
    write output (Text.toBytes bundle.js)

theorem steady_writeFast (output : String) (entries : List String) (blobs : List Bytes) :
    Steady past.coupling (writeFast output entries blobs) := by
  refine (steady_onProject (steady_shortName _)).bind fun short => ?_
  have hwrite : ∀ c : Modules × Option String, Steady past.coupling (writeBundle output
      (Bundle.fast c.1 entries blobs (Path.fileName output) (short ++ ".map") c.2)) := by
    intro c
    unfold writeBundle
    split
    · exact Steady.of_throw _
    · exact (steady_write _ _).bind fun _ => steady_write _ _
  exact steady_read (fun p => (p.emitted, p.config.sourceRoot)) (fun _ _ => rfl) hwrite

/-- Writes the bundle of the given name, entry files, assets and kind, if it has a name. -/
def assembleFrom (c : Option String × List String × List String × BundleMode) :
    Step Workspace Unit :=
  match c.1 with
  | none => return
  | some output => do
    let entries ← entryModules c.2.1
    let blobs ← scriptAssets c.2.2.1
    match c.2.2.2 with
    | .none => return
    | .merged => writeMerged output entries blobs
    | .fast => writeFast output entries blobs

theorem steady_assemble : Steady past.coupling assemble := by
  have hassemble : ∀ c : Option String × List String × List String × BundleMode,
      Steady past.coupling (assembleFrom c) := by
    rintro ⟨output, main, assets, bundle⟩
    cases output with
    | none => exact Steady.of_pure _
    | some output =>
      refine (Steady.of_lift _).bind fun entries => (steady_scriptAssets _).bind fun blobs => ?_
      cases bundle with
      | none => exact Steady.of_pure _
      | merged => exact steady_writeMerged _ _ _
      | fast => exact steady_writeFast _ _ _
  exact (steady_enter _).bind fun _ =>
    steady_read (fun p => (p.bundleJs, p.config.main, p.depAssets.keys, p.config.bundle))
      (fun _ _ => rfl) hassemble

/-! ## All of it -/

open Session

/-- A program is delivered in both, of which one writes everything because it is to, and the other one
because it wrote nothing. -/
theorem lockstep_deliverProgram (program : List String) (overrides : FileOverrides)
    (atlasChanged : Bool) : Lockstep past.sessions
      (fun s s' => past.Listed program s s' ∧ s'.toWorkspace.Unwritten ∧ program.Nodup)
      (deliverProgram true program overrides atlasChanged)
      (deliverProgram false program overrides atlasChanged) same := by
  have hassemble : ∀ (emitted : List String) (bundle : BundleMode), Steady past.sessions (do
      if bundle != .none then Assembly.assemble
      return emitted : Step Session (List String)) := by
    intro emitted bundle
    split
    · exact (steady_lift steady_assemble).bind fun _ => Steady.of_pure _
    · exact Steady.of_pure _
  have hbundle : ∀ emitted : List String, Steady past.sessions (do
      if (← get).project.config.bundle != .none then Assembly.assemble
      return emitted : Step Session (List String)) := fun emitted =>
    Steady.of_get (C := past.sessions) (fun s : Session => s.project.config.bundle)
      (fun s s' hs => by rw [hs.1.config]) (hassemble emitted)
  have henter : Lockstep past.sessions
      (fun s s' => past.Listed program s s' ∧ s'.toWorkspace.Unwritten ∧ program.Nodup)
      (liftM (enter .emit) : Step Session Unit) (liftM (enter .emit) : Step Session Unit)
      fun s s' u u' =>
        u = u' ∧ past.Listed program s s' ∧ s'.toWorkspace.Unwritten ∧ program.Nodup := by
    have hkeep := ((steady_lift (@steady_enter past .emit)).keeping
      (@stable_listed past program)).also
      (P := fun _ s' => s'.toWorkspace.Unwritten ∧ program.Nodup)
      (Q := fun _ s' _ _ => s'.toWorkspace.Unwritten ∧ program.Nodup)
      fun s s' t t' u u' h _ hrun => by
        obtain ⟨w, hw, rfl⟩ := (liftWorkspace_ok_iff _ _ _ _).mp hrun
        obtain rfl := (modify_ok_iff _ _ _ _).mp hw
        exact h
    exact hkeep.conseq (fun _ _ _ h => h) fun _ _ _ _ _ h => ⟨h.1.1, h.1.2, h.2⟩
  have hemit : Lockstep past.sessions
      (fun s s' => past.Listed program s s' ∧ s'.toWorkspace.Unwritten ∧ program.Nodup)
      (liftM (emitProgram true atlasChanged overrides program) : Step Session (List String))
      (liftM (emitProgram false atlasChanged overrides program) : Step Session (List String))
      fun _ _ out out' => out = out' ∧ True :=
    (lockstep_lift (lockstep_emitProgram atlasChanged overrides program)).conseq
      (fun _ _ _ h => h) fun _ _ _ _ _ h => ⟨h, trivial⟩
  unfold deliverProgram
  refine henter.bind_same fun _ => hemit.bind_same fun emitted => ?_
  exact (steady_lift steady_copyDependencyJs).bind fun _ =>
    (steady_lift steady_processAssets).bind fun _ => hbundle emitted

end Past

end Bundler

/-
What copying one file does.

Scripts that are taken over and assets are copied in the same way. The file is looked at, and if it is
newer than its copy it is read, put where it goes and stamped; what it is read as and whether it is put
anywhere is the difference (`Assembly.Treated`). A style sheet is dealt with in two steps: it is written
with its references noted (`Assembly.SheetTreated`), and it is stamped later, when its turn comes as an
asset. In between the answer to whether it is newer than its copy, given when the sheets were looked for,
stays good (`Assembly.Sheet.Met`).

Everything else that happens on the way is looking, reading and quiet changes of the project, which is
what the frame `Frame.reads` says.
-/
import Bundler.Proofs.Artifacts
import Bundler.Proofs.Links
import Bundler.Proofs.Takeover

set_option autoImplicit false

namespace Bundler

open Workspace Step

/-! ## Looking and reading -/

namespace Entry

variable {s : Surroundings} {e e' : Entry} {disk : Disk}

theorem read_of_readings (h : Relation.ReflTransGen (Reading s) e e') : Read s e e' := by
  induction h with
  | refl => exact Read.refl s e
  | tail _ hlast ih => exact ih.trans hlast.read

/-- Where a file was looked at, it stays as new as it is. -/
theorem Read.needsCopy (h : Read s e e') (hset : e.current.isSet = true) : e'.needsCopy = e.needsCopy := by
  unfold Entry.needsCopy
  rw [h.seen hset, h.outputTime]

theorem found_of_needsCopy (h : e.needsCopy = true) : e.found = true := by
  unfold Entry.needsCopy at h
  unfold Entry.found
  cases hcur : e.current.time? with
  | none =>
    rw [hcur] at h
    cases h
  | some t => rfl

/-- The bytes of a file that can be read are current when they were asked for. -/
theorem isBufferCurrent_withBuffer (hfound : e.found = true)
    (hread : (disk.read? e.fullName).isSome = true) : (e.withBuffer disk).isBufferCurrent = true := by
  unfold withBuffer
  rw [if_neg (by simp [hfound])]
  split
  · assumption
  · obtain ⟨bytes, hbytes⟩ := Option.isSome_iff_exists.mp hread
    rw [hbytes]
    unfold Entry.isBufferCurrent
    unfold Entry.found at hfound ⊢
    simp [hfound]

theorem text?_isSome_iff : e.text?.isSome = true ↔ e.isTextCurrent = true := by
  unfold text?
  split
  · rename_i h
    obtain ⟨-, -, text, htext⟩ := isTextCurrent_iff.mp h
    simp [h, htext]
  · simp [*]

theorem buffer?_isSome_iff : e.buffer?.isSome = true ↔ e.isBufferCurrent = true := by
  unfold buffer?
  split
  · rename_i h
    obtain ⟨-, -, bytes, hbytes⟩ := isBufferCurrent_iff.mp h
    simp [h, hbytes]
  · simp [*]

/-- The file was looked at, nothing is kept of it that is current, and it cannot be read. -/
structure Bufferless (disk : Disk) (e : Entry) : Prop where
  set : e.current.isSet = true
  buffer : e.buffer? = none
  read : disk.read? e.fullName = none

theorem Bufferless.of_reading (h : e.Bufferless s.disk) (hone : Reading s e e') :
    e'.Bufferless s.disk := by
  have hread := hone.read
  refine ⟨by rw [hread.seen h.set]; exact h.set, ?_, by rw [hread.fullName]; exact h.read⟩
  have hbuffer := h.buffer
  cases hone with
  | look => rwa [looked_of_isSet h.set]
  | text =>
    rcases withText_cases s.disk e with ⟨-, heq⟩ | ⟨-, -, heq⟩ | ⟨bytes, -, hbytes, -⟩
    · rwa [heq]
    · rwa [heq]
    · rw [h.read] at hbytes
      cases hbytes
  | buffer =>
    have hnot : e.isBufferCurrent = false := by
      rw [← Bool.not_eq_true, ← buffer?_isSome_iff, hbuffer]
      simp
    unfold Entry.withBuffer
    split
    · rename_i hfound
      simp only [Bool.not_eq_true'] at hfound
      unfold Entry.buffer? Entry.isBufferCurrent
      unfold Entry.found at hfound ⊢
      simp [hfound]
    · rw [if_neg (by simp [hnot]), h.read]
      unfold Entry.buffer? Entry.isBufferCurrent
      have hset := h.set
      cases hcur : e.current with
      | unset => rw [hcur] at hset; cases hset
      | missing => simp [Entry.found, Stamp.time?]
      | «at» t => simp

/-- The stamp of a file that was copied as it was seen. -/
def stampCurrent (e : Entry) : Entry := { e with outputTime := e.current }

end Entry

namespace Frame

/-- The frame of looking and reading, one change after the other. -/
def reads : Frame := chains Entry.Reading Project.Quiet Project.Quiet.refl Project.Quiet.trans

theorem looking_reads : Looking reads.law :=
  looking reads (fun _ e => .single (.look e)) (fun _ e => .single (.text e))
    (fun _ e => .single (.buffer e)) fun _ _ h => h

variable {w w' : Workspace} {name : String} {i : Nat}

/-- A name keeps its entry. -/
theorem Moves.find? {F : Frame} (h : F.Moves w w') (hi : w.cache.find? w.project.dir name = some i) :
    w'.cache.find? w'.project.dir name = some i := by
  rw [h.dir]
  exact h.cache.find? hi

/-- What looking and reading do to the entry of a name. -/
theorem Moves.readings (h : reads.Moves w w') (hi : w.cache.find? w.project.dir name = some i) :
    Relation.ReflTransGen (Entry.Reading w.surroundings) (w.cache.entry i) (w'.cache.entry i) :=
  h.cache.old i (Cache.find?_some hi).1

end Frame

/-! ## Style sheets of their own -/

namespace Stylesheet

/-- A style sheet of its own: its references keep their arguments. -/
def plain (css : String) : String := Id.run (mapUrls (m := Id) css pure)

variable {σ : Type} {target : String → Step σ String} {s t : σ}

private theorem mapPiece_of_same (h : ∀ url s new t, target url s = .ok new t → new = url) {piece : Piece}
    {cs : List Char} (hrun : mapPiece target piece s = .ok cs t) :
    cs = Id.run (mapPiece (m := Id) pure piece) := by
  cases piece with
  | text text => exact ((pure_ok_iff _ _ _ _).mp hrun).1.symm
  | url quote content written =>
    unfold mapPiece at hrun ⊢
    simp only at hrun ⊢
    split at hrun
    · rename_i hinternal
      obtain ⟨new, s', hnew, hrun⟩ := (bind_ok_iff _ _ _ _ _).mp hrun
      rw [if_pos hinternal, ← ((pure_ok_iff _ _ _ _).mp hrun).1, h _ _ _ _ hnew]
      rfl
    · rename_i hother
      rw [if_neg hother, ← ((pure_ok_iff _ _ _ _).mp hrun).1]
      rfl

private theorem mapPieces_of_same (h : ∀ url s new t, target url s = .ok new t → new = url) :
    ∀ {ps : List Piece} {s t : σ} {texts : List (List Char)}, ps.mapM (mapPiece target) s = .ok texts t →
      texts = Id.run (ps.mapM (mapPiece (m := Id) pure))
  | [], s, t, texts, hrun => ((pure_ok_iff _ _ _ _).mp hrun).1.symm
  | p :: ps, s, t, texts, hrun => by
    rw [List.mapM_cons] at hrun ⊢
    obtain ⟨cs, s₁, hcs, hrun⟩ := (bind_ok_iff _ _ _ _ _).mp hrun
    obtain ⟨rest, s₂, hrest, hrun⟩ := (bind_ok_iff _ _ _ _ _).mp hrun
    rw [← ((pure_ok_iff _ _ _ _).mp hrun).1, mapPiece_of_same h hcs, mapPieces_of_same h hrest]
    rfl

/-- Where every reference keeps its argument the style sheet is written as one of its own. -/
theorem mapUrls_of_same (h : ∀ url s new t, target url s = .ok new t → new = url) {css out : String}
    (hrun : mapUrls css target s = .ok out t) : out = plain css := by
  unfold mapUrls at hrun
  obtain ⟨texts, s', htexts, hrun⟩ := (bind_ok_iff _ _ _ _ _).mp hrun
  rw [← ((pure_ok_iff _ _ _ _).mp hrun).1, mapPieces_of_same h htexts]
  rfl

end Stylesheet

/-! ## One file -/

namespace Workspace

/-- The workspace after a file was written, if it goes anywhere. -/
def writtenTo (w : Workspace) (output? : Option String) (content : Bytes) : Workspace :=
  match output? with
  | none => w
  | some path => w.written path content

@[simp] theorem writtenTo_cache (w : Workspace) (output? : Option String) (content : Bytes) :
    (w.writtenTo output? content).cache = w.cache := by
  cases output? with
  | none => rfl
  | some path => exact w.written_cache path content

/-- The workspace after a file was copied: it was written, if it goes anywhere, and stamped. -/
def copied (w : Workspace) (output? : Option String) (content : Bytes) (i : Nat) : Workspace :=
  (w.writtenTo output? content).changed i Entry.stampCurrent

/-- Only what a change does to the entry that it is a change of matters. -/
theorem changed_congr {w : Workspace} {i : Nat} {f g : Entry → Entry}
    (h : f (w.cache.entry i) = g (w.cache.entry i)) : w.changed i f = w.changed i g := by
  have hentries : (w.cache.modify i f).entries = (w.cache.modify i g).entries :=
    Cache.entries_modify_congr fun _ => h
  have hcache : w.cache.modify i f = w.cache.modify i g :=
    congrArg (fun entries => ({ w.cache with entries } : Cache)) hentries
  unfold Workspace.changed
  rw [hcache]

end Workspace

namespace Assembly

variable {w w' : Workspace} {name output : String} {i : Nat} {u : Unit}

/-- How copying a file ends: it is not newer than its copy or cannot be read, or what it was loaded as is
put where it goes, and the file is stamped. -/
inductive Treated (load : Entry → Option Bytes) (name : String) (output? : Option String)
    (w : Workspace) : Workspace → Prop where
  | passed {w' : Workspace} {i : Nat} (hreads : Frame.reads.Moves w w')
      (hfind : w'.cache.find? w'.project.dir name = some i)
      (hset : (w'.cache.entry i).current.isSet = true)
      (hread : (w'.cache.entry i).needsCopy = true →
        w'.disk.read? (w'.cache.entry i).fullName = none) :
      Treated load name output? w w'
  | taken {v : Workspace} {i : Nat} {bytes : Bytes} (hreads : Frame.reads.Moves w v)
      (hfind : v.cache.find? v.project.dir name = some i)
      (hneed : (v.cache.entry i).needsCopy = true) (hload : load (v.cache.entry i) = some bytes) :
      Treated load name output? w (v.copied output? bytes i)

variable {load : Entry → Option Bytes} {output? : Option String} {v : Workspace}

/-- Nothing is copied where the file that was looked at is not newer than its copy or cannot be read. -/
private theorem Treated.of_reads (hreads : Frame.reads.Moves w v)
    (hfind : v.cache.find? v.project.dir name = some i) (hset : (v.cache.entry i).current.isSet = true)
    (hmore : Frame.reads.Moves v w') (hread : (v.cache.entry i).needsCopy = true →
      v.disk.read? (v.cache.entry i).fullName = none) : Treated load name output? w w' := by
  have hentry := Entry.read_of_readings (hmore.readings hfind)
  refine .passed (hreads.trans hmore) (hmore.find? hfind) (by rw [hentry.seen hset]; exact hset) fun hneed => ?_
  rw [hentry.fullName, hmore.disk]
  rw [hentry.needsCopy hset] at hneed
  exact hread hneed

private theorem reads_of_say {line : String} (hdest : w.destination = none) (h : say line w = .ok u w') :
    Frame.reads.Moves w w' :=
  Frame.moves_of_obeys (obeys_say Frame.looking_reads line) hdest h

private theorem reads_of_existence (hdest : w.destination = none) (h : existence name w = .ok i w') :
    Frame.reads.Moves w w' ∧ w'.cache.find? w'.project.dir name = some i ∧
      (w'.cache.entry i).current.isSet = true := by
  obtain ⟨hfind, hset, -⟩ := existence_ok h
  exact ⟨Frame.moves_of_obeys (obeys_existence Frame.looking_reads name) hdest h, hfind, hset⟩

/-- The text of a file that is there is missing after it was asked for only if the file cannot be read. -/
private theorem read?_of_ensureText (hi : i < w.cache.entries.length)
    (hfound : (w.cache.entry i).found = true)
    (htext : ((w.cache.ensureText w.disk i).entry i).text? = none) :
    w.disk.read? (w.cache.entry i).fullName = none := by
  by_contra hsome
  have hcur := Entry.isTextCurrent_withText hfound (Option.isSome_iff_ne_none.mpr hsome)
  rw [← Entry.text?_isSome_iff, ← Cache.entry_ensureText _ hi, htext] at hcur
  cases hcur

/-- The same for its bytes. -/
private theorem read?_of_ensureBuffer (hi : i < w.cache.entries.length)
    (hfound : (w.cache.entry i).found = true)
    (hbuffer : ((w.cache.ensureBuffer w.disk i).entry i).buffer? = none) :
    w.disk.read? (w.cache.entry i).fullName = none := by
  by_contra hsome
  have hcur := Entry.isBufferCurrent_withBuffer hfound (Option.isSome_iff_ne_none.mpr hsome)
  rw [← Entry.buffer?_isSome_iff, ← Cache.entry_ensureBuffer _ hi, hbuffer] at hcur
  cases hcur

theorem Treated.dir (h : Treated load name output? w w') : w'.project.dir = w.project.dir := by
  cases h with
  | passed hreads => exact hreads.dir
  | @taken v i bytes hreads =>
    rw [← hreads.dir]
    cases output? with
    | none => rfl
    | some path => exact v.written_dir path bytes

/-! ## Scripts that are taken over -/

/-- Without a bundle a script that is taken over is copied as its text. -/
theorem copyScript_treated (hdest : w.destination = none)
    (h : copyScript false (name, output) w = .ok u w') :
    Treated (fun e => e.text?.map Text.toBytes) name (some output) w w' := by
  obtain ⟨i, w₁, hex, hend⟩ := copyScript_cases h
  obtain ⟨hreads, hfind, hset⟩ := reads_of_existence hdest hex
  have hi := (Cache.find?_some hfind).1
  have htexts : Frame.reads.Moves w₁ { w₁ with cache := w₁.cache.ensureText w₁.disk i } :=
    Frame.moves_of_law (Frame.looking_reads.text w₁ i) hreads.destination
  cases hend with
  | missing hfound hsay =>
    refine .of_reads hreads hfind hset (reads_of_say hreads.destination hsay) fun hneed => ?_
    rw [Entry.found_of_needsCopy hneed] at hfound
    cases hfound
  | before _ hneed =>
    refine .passed hreads hfind hset fun hneeds => ?_
    rw [hneeds] at hneed
    cases hneed
  | @unreadable w₂ w' line hfound hw₂ htext hsay =>
    subst hw₂
    exact .of_reads hreads hfind hset (htexts.trans (reads_of_say htexts.destination hsay))
      fun _ => read?_of_ensureText hi hfound htext
  | @taken w₂ w₃ text hneed hw₂ htext htake =>
    rw [← hw₂] at htexts
    have hw₃ : w₂.written output (Text.toBytes text) = w₃ := (modify_ok_iff _ _ _ _).mp htake
    have hcur : (w₂.cache.entry i).isTextCurrent = true := by
      rw [← Entry.text?_isSome_iff, htext]
      rfl
    -- the text is current, so the time it was read with is the one the file was seen with
    have hstamp : w₃.changed i (fun e => { e with outputTime := e.textTime }) =
        w₃.changed i Entry.stampCurrent := by
      refine Workspace.changed_congr ?_
      rw [← hw₃, Workspace.written_cache]
      unfold Entry.stampCurrent
      rw [(Entry.isTextCurrent_iff.mp hcur).2.1]
    rw [hstamp, ← hw₃]
    have hneed₂ : (w₂.cache.entry i).needsCopy = true := by
      rw [(Entry.read_of_readings (htexts.readings hfind)).needsCopy hset]
      simpa using hneed
    exact Treated.taken (hreads.trans htexts) (htexts.find? hfind) hneed₂ (by rw [htext]; rfl)

/-! ## Assets -/

/-- Where an asset is put: style sheets and scripts are delivered elsewhere. -/
def assetOutput? (name output : String) : Option String :=
  match Path.isCss name, Path.isJs name with
  | .ok false, .ok false => some output
  | _, _ => none

theorem assetOutput?_of_isCss (h : Path.isCss name = .ok true) : assetOutput? name output = none := by
  unfold assetOutput?
  rw [h]

theorem assetOutput?_of_plain (hcss : Path.isCss name = .ok false) (hjs : Path.isJs name = .ok false) :
    assetOutput? name output = some output := by
  unfold assetOutput?
  rw [hcss, hjs]

theorem eq_of_assetOutput? {path : String} (h : assetOutput? name output = some path) : output = path := by
  unfold assetOutput? at h
  split at h
  · exact Option.some.inj h
  · cases h

/-- How an asset is put where it goes and stamped. -/
private theorem of_putAsset {bytes : Bytes} (h : (do
      let elsewhere ← if ← Path.isCss name then pure true else Path.isJs name
      if !elsewhere then write output bytes
      changeEntry i fun e => { e with outputTime := e.current } : Step Workspace Unit) w = .ok u w') :
    w' = w.copied (assetOutput? name output) bytes i := by
  have hput : ∀ elsewhere : Bool, (do
        if !elsewhere then write output bytes
        changeEntry i fun e => { e with outputTime := e.current } : Step Workspace Unit) w = .ok u w' →
      w' = w.copied (if elsewhere then none else some output) bytes i := by
    intro elsewhere hrun
    cases elsewhere with
    | true => exact ((modify_ok_iff _ _ _ _).mp hrun).symm
    | false =>
      obtain ⟨_, v, hwrite, hstamp⟩ := (bind_ok_iff _ _ _ _ _).mp hrun
      have hv : w.written output bytes = v := (modify_ok_iff _ _ _ _).mp hwrite
      rw [← (modify_ok_iff _ _ _ _).mp hstamp, ← hv]
      rfl
  unfold assetOutput?
  obtain ⟨css, v, hcss, h⟩ := (bind_ok_iff _ _ _ _ _).mp h
  obtain ⟨hisCss, rfl⟩ := (lift_ok_iff _ _ _ _).mp hcss
  rw [hisCss]
  cases css with
  | true =>
    obtain ⟨elsewhere, v, helsewhere, h⟩ := (bind_ok_iff _ _ _ _ _).mp h
    obtain ⟨rfl, rfl⟩ := (pure_ok_iff _ _ _ _).mp helsewhere
    exact hput true h
  | false =>
    obtain ⟨js, v, hjs, h⟩ := (bind_ok_iff _ _ _ _ _).mp h
    obtain ⟨hisJs, rfl⟩ := (lift_ok_iff _ _ _ _).mp hjs
    rw [hisJs]
    cases js with
    | true => exact hput true h
    | false => exact hput false h

/-- An asset is copied as it is, if it is put anywhere. -/
theorem copyAsset_treated (hdest : w.destination = none) (h : copyAsset (name, output) w = .ok u w') :
    Treated Entry.buffer? name (assetOutput? name output) w w' := by
  unfold copyAsset at h
  obtain ⟨i, w₁, hex, h⟩ := (bind_ok_iff _ _ _ _ _).mp h
  obtain ⟨hreads, hfind, hset⟩ := reads_of_existence hdest hex
  obtain ⟨e, w₁', he, h⟩ := (bind_ok_iff _ _ _ _ _).mp h
  obtain ⟨rfl, rfl⟩ := (entry_ok_iff _ _ _ _).mp he
  by_cases hfound : (w₁.cache.entry i).found = true
  · simp only [hfound, Bool.not_true, Bool.false_eq_true, if_false] at h
    by_cases hneed : (w₁.cache.entry i).needsCopy = true
    · rw [if_pos hneed] at h
      obtain ⟨_, w₂, hbuffers, h⟩ := (bind_ok_iff _ _ _ _ _).mp h
      obtain rfl := ((onCache_ok_iff _ _ _ _).mp hbuffers).2
      have hreads₂ : Frame.reads.Moves w₁ { w₁ with cache := w₁.cache.ensureBuffer w₁.disk i } :=
        Frame.moves_of_law (Frame.looking_reads.buffer w₁ i) hreads.destination
      obtain ⟨e₂, w₂', he₂, h⟩ := (bind_ok_iff _ _ _ _ _).mp h
      obtain ⟨rfl, rfl⟩ := (entry_ok_iff _ _ _ _).mp he₂
      cases hbuffer : ((w₁.cache.ensureBuffer w₁.disk i).entry i).buffer? with
      | none =>
        rw [hbuffer] at h
        exact .of_reads hreads hfind hset (hreads₂.trans (reads_of_say hreads₂.destination h))
          fun _ => read?_of_ensureBuffer (Cache.find?_some hfind).1 hfound hbuffer
      | some bytes =>
        rw [hbuffer] at h
        rw [of_putAsset h]
        refine .taken (hreads.trans hreads₂) (hreads₂.find? hfind) ?_ hbuffer
        rw [(Entry.read_of_readings (hreads₂.readings hfind)).needsCopy hset]
        exact hneed
    · rw [if_neg hneed] at h
      obtain ⟨-, rfl⟩ := (pure_ok_iff _ _ _ _).mp h
      exact .passed hreads hfind hset fun hneeds => absurd hneeds hneed
  · simp only [hfound, Bool.not_false, if_true] at h
    exact .of_reads hreads hfind hset (reads_of_say hreads.destination h)
      fun hneed => absurd (Entry.found_of_needsCopy hneed) hfound

/-! ## Style sheets -/

/-- What is known of a style sheet that was found is still so. -/
structure Sheet.Met (s : Sheet) (w : Workspace) : Prop where
  find : w.cache.find? w.project.dir s.name = some s.id
  set : (w.cache.entry s.id).current.isSet = true
  stale : s.stale = (w.cache.entry s.id).needsCopy

theorem Sheet.Met.of_reads {s : Sheet} (h : s.Met w) (hm : Frame.reads.Moves w w') : s.Met w' := by
  have hread := Entry.read_of_readings (hm.readings h.find)
  refine ⟨hm.find? h.find, by rw [hread.seen h.set]; exact h.set, ?_⟩
  rw [hread.needsCopy h.set]
  exact h.stale

/-- Looking for style sheets finds those that are there. -/
theorem findSheets_met :
    ∀ {names : List String} {sheets : List Sheet} {w w' : Workspace}, w.destination = none →
      findSheets names w = .ok sheets w' →
      Frame.reads.Moves w w' ∧
        (∀ s ∈ sheets, s.name ∈ names ∧ Path.isCss s.name = .ok true ∧ s.Met w') ∧
        ∀ name ∈ names, Path.isCss name = .ok true → ∃ i, w'.cache.find? w'.project.dir name = some i ∧
          (w'.cache.entry i).current.isSet = true ∧
          ((w'.cache.entry i).found = true → ∃ s ∈ sheets, s.name = name)
  | [], sheets, w, w', hdest, h => by
    obtain ⟨rfl, rfl⟩ := (pure_ok_iff _ _ _ _).mp h
    exact ⟨Frame.Moves.refl hdest, fun s hs => absurd hs List.not_mem_nil,
      fun name hname => absurd hname List.not_mem_nil⟩
  | name :: names, sheets, w, w', hdest, h => by
    unfold findSheets at h
    obtain ⟨css, v, hcss, h⟩ := (bind_ok_iff _ _ _ _ _).mp h
    obtain ⟨hisCss, rfl⟩ := (lift_ok_iff _ _ _ _).mp hcss
    cases css with
    | false =>
      obtain ⟨hreads, hmet, hfound⟩ := findSheets_met hdest h
      refine ⟨hreads, fun s hs => ⟨List.mem_cons_of_mem _ (hmet s hs).1, (hmet s hs).2⟩,
        fun other hother hother_css => ?_⟩
      rcases List.mem_cons.mp hother with rfl | hother
      · rw [hisCss] at hother_css
        cases hother_css
      · exact hfound other hother hother_css
    | true =>
      obtain ⟨i, w₁, hex, h⟩ := (bind_ok_iff _ _ _ _ _).mp h
      obtain ⟨hreads₁, hfind, hset⟩ := reads_of_existence hdest hex
      obtain ⟨e, w₂, he, h⟩ := (bind_ok_iff _ _ _ _ _).mp h
      obtain ⟨rfl, rfl⟩ := (entry_ok_iff _ _ _ _).mp he
      obtain ⟨rest, w₃, hrest, h⟩ := (bind_ok_iff _ _ _ _ _).mp h
      obtain ⟨hreads, hmet, hfound⟩ := findSheets_met hreads₁.destination hrest
      have hone : Sheet.Met ⟨name, i, (w₁.cache.entry i).needsCopy⟩ w₃ :=
        Sheet.Met.of_reads ⟨hfind, hset, rfl⟩ hreads
      have hentry := Entry.read_of_readings (hreads.readings hfind)
      have hsheets : w₃ = w' ∧ (∀ s ∈ rest, s ∈ sheets) ∧
          (∀ s ∈ sheets, s ∈ rest ∨ s = ⟨name, i, (w₁.cache.entry i).needsCopy⟩) ∧
          ((w₁.cache.entry i).found = true → ∃ s ∈ sheets, s.name = name) := by
        split at h
        · obtain ⟨rfl, rfl⟩ := (pure_ok_iff _ _ _ _).mp h
          exact ⟨rfl, fun s hs => List.mem_cons_of_mem _ hs, fun s hs => (List.mem_cons.mp hs).symm,
            fun _ => ⟨_, List.mem_cons_self, rfl⟩⟩
        · rename_i hnot
          obtain ⟨rfl, rfl⟩ := (pure_ok_iff _ _ _ _).mp h
          exact ⟨rfl, fun s hs => hs, fun s hs => .inl hs, fun hf => absurd hf hnot⟩
      obtain ⟨rfl, hrest_mem, hsheets, hname⟩ := hsheets
      refine ⟨hreads₁.trans hreads, fun s hs => ?_, fun other hother other_css => ?_⟩
      · rcases hsheets s hs with hs | rfl
        · exact ⟨List.mem_cons_of_mem _ (hmet s hs).1, (hmet s hs).2⟩
        · exact ⟨List.mem_cons_self, hisCss, hone⟩
      · rcases List.mem_cons.mp hother with rfl | hother
        · refine ⟨i, hreads.find? hfind, hone.set, fun hf => hname ?_⟩
          unfold Entry.found at hf ⊢
          rwa [hentry.seen hset] at hf
        · obtain ⟨j, hj, hjset, hjfound⟩ := hfound other hother other_css
          refine ⟨j, hj, hjset, fun hf => ?_⟩
          obtain ⟨s, hs, hsname⟩ := hjfound hf
          exact ⟨s, hrest_mem s hs, hsname⟩

/-- How dealing with a style sheet of its own ends: it is not newer than its copy or cannot be read, or it
is written. -/
inductive SheetTreated (s : Sheet) (w : Workspace) : Workspace → Prop where
  | passed {w' : Workspace} (hreads : Frame.reads.Moves w w')
      (hread : s.stale = true → (w'.cache.entry s.id).Bufferless w'.disk) : SheetTreated s w w'
  | written {v : Workspace} {bytes : Bytes} (hreads : Frame.reads.Moves w v) (hstale : s.stale = true)
      (hbuffer : (v.cache.entry s.id).buffer? = some bytes) :
      SheetTreated s w (v.written ((w.project.depAssets.get? s.name).getD s.name)
        (Text.toBytes (Stylesheet.plain (Text.ofBytes bytes))))

theorem SheetTreated.dir {s : Sheet} (h : SheetTreated s w w') : w'.project.dir = w.project.dir := by
  cases h with
  | passed hreads => exact hreads.dir
  | written hreads => rw [Workspace.written_dir, hreads.dir]

/-- What is known of the style sheets stays known while one of them is dealt with. -/
theorem Sheet.Met.of_sheetTreated {s s' : Sheet} (h : s.Met w) (ht : SheetTreated s' w w') : s.Met w' := by
  cases ht with
  | passed hreads => exact h.of_reads hreads
  | written hreads =>
    have hv := h.of_reads hreads
    refine ⟨?_, ?_, ?_⟩
    · rw [Workspace.written_cache, Workspace.written_dir]
      exact hv.find
    · rw [Workspace.written_cache]
      exact hv.set
    · rw [Workspace.written_cache]
      exact hv.stale

/-- A reference of a style sheet of its own keeps its argument. -/
private theorem plainReference_same {url sheet new : String} {p p' : Project}
    (h : plainReference url sheet p = .ok new p') : new = url := by
  unfold plainReference at h
  obtain ⟨_, q, -, h⟩ := (bind_ok_iff _ _ _ _ _).mp h
  exact ((pure_ok_iff _ _ _ _).mp h).1.symm

theorem copySheet_treated {s : Sheet} (hdest : w.destination = none) (hmet : s.Met w)
    (h : copySheet s w = .ok u w') : SheetTreated s w w' := by
  unfold copySheet at h
  obtain ⟨w₀, w₀', hget, h⟩ := (bind_ok_iff _ _ _ _ _).mp h
  obtain ⟨rfl, rfl⟩ := (get_ok_iff _ _ _).mp hget
  obtain ⟨_, w₁, hlink, h⟩ := (bind_ok_iff _ _ _ _ _).mp h
  have hlinks : ∀ output : String, Obeys Frame.reads.law
      (changeProject fun p => { p with cssToLink := p.cssToLink ++ [output] }) := fun _ =>
    obeys_changeProject Frame.looking_reads fun _ => .of_parts rfl
  have hreads₁ := Frame.moves_of_obeys (hlinks _) hdest hlink
  have hmet₁ := hmet.of_reads hreads₁
  by_cases hstale : s.stale = true
  · rw [if_pos hstale] at h
    obtain ⟨text, w₂, htext, h⟩ := (bind_ok_iff _ _ _ _ _).mp h
    unfold sheetText at htext
    obtain ⟨_, w₂', hbuffers, htext⟩ := (bind_ok_iff _ _ _ _ _).mp htext
    obtain rfl := ((onCache_ok_iff _ _ _ _).mp hbuffers).2
    obtain ⟨e, _, he, htext⟩ := (bind_ok_iff _ _ _ _ _).mp htext
    obtain ⟨rfl, rfl⟩ := (entry_ok_iff _ _ _ _).mp he
    obtain ⟨rfl, rfl⟩ := (pure_ok_iff _ _ _ _).mp htext
    have hreads₂ : Frame.reads.Moves w₁ { w₁ with cache := w₁.cache.ensureBuffer w₁.disk s.id } :=
      Frame.moves_of_law (Frame.looking_reads.buffer w₁ s.id) hreads₁.destination
    have hmet₂ := hmet₁.of_reads hreads₂
    cases hbuffer : ((w₁.cache.ensureBuffer w₁.disk s.id).entry s.id).buffer? with
    | none =>
      rw [hbuffer] at h
      obtain ⟨-, rfl⟩ := (pure_ok_iff _ _ _ _).mp h
      have hneed : (w₁.cache.entry s.id).needsCopy = true := by
        rw [← hmet₁.stale]
        exact hstale
      -- a sheet without bytes is passed over in silence, and only because it cannot be read
      have hread := read?_of_ensureBuffer (Cache.find?_some hmet₁.find).1 (Entry.found_of_needsCopy hneed)
        hbuffer
      refine .passed (hreads₁.trans hreads₂) fun _ => ⟨hmet₂.set, hbuffer, ?_⟩
      rw [(Entry.read_of_readings (hreads₂.readings hmet₁.find)).fullName]
      exact hread
    | some bytes =>
      rw [hbuffer] at h
      obtain ⟨css, w₃, hcss, h⟩ := (bind_ok_iff _ _ _ _ _).mp h
      have hreads₃ := Frame.moves_of_obeys (obeys_onProject Frame.looking_reads
        (Stylesheet.obeys_mapUrls (Text.ofBytes bytes) fun url => obeys_plainReference url s.name))
        hreads₂.destination hcss
      obtain ⟨p, hp, rfl⟩ := (on_ok_iff _ _ _ _ _ _).mp hcss
      have hplain := Stylesheet.mapUrls_of_same (fun _ _ _ _ => plainReference_same) hp
      have hw' := (modify_ok_iff _ _ _ _).mp h
      rw [← hw', hplain]
      exact .written ((hreads₁.trans hreads₂).trans hreads₃) hstale hbuffer
  · rw [if_neg hstale] at h
    obtain ⟨-, rfl⟩ := (pure_ok_iff _ _ _ _).mp h
    exact .passed hreads₁ fun hs => absurd hs hstale

/-- An asset keeps its output while style sheets are dealt with: their references get one only where they
have none. -/
theorem copySheet_keepsOutput (s : Sheet) (name output : String) :
    Obeys (Law.keeping fun w => w.project.depAssets.get? name = some output) (copySheet s) := by
  have hwrite : ∀ (w : Workspace) (path : String) (content : Bytes),
      (w.written path content).project.depAssets = w.project.depAssets := by
    intro w path content
    unfold Workspace.written Project.write
    split
    · split <;> rfl
    · rfl
  have hnote : ∀ css : String, Obeys (Law.keeping fun w => w.project.depAssets.get? name = some output)
      (onProject (Stylesheet.mapUrls css fun url => plainReference url s.name)) := fun css =>
    obeys_on (L := Law.keeping fun p : Project => p.depAssets.get? name = some output) (fun _ _ h => h)
      (fun _ _ h => h)
      (Stylesheet.obeys_mapUrls_of_mem css fun _ _ _ _ _ => Obeys.bind (obeys_modify fun p houtput =>
        OrderedMap.get?_insertNew _ _ houtput) fun _ => obeys_pure _)
  unfold copySheet
  refine obeys_get.bind fun w => Obeys.bind (obeys_modify fun _ h => h) fun _ => ?_
  split
  · refine Obeys.bind ((obeys_onCache fun _ h => h).bind fun _ => (obeys_entry s.id).bind fun _ =>
      obeys_pure _) fun text => ?_
    split
    · exact obeys_pure _
    · refine (hnote _).bind fun css => obeys_modify fun w houtput => ?_
      change (w.written _ _).project.depAssets.get? name = some output
      rw [hwrite]
      exact houtput
  · exact obeys_pure _

end Assembly

end Bundler

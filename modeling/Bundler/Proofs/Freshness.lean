/-
What a freshness pass finds out.

A pass walks down the imports, marks the files on its way, and keeps what it has found. The facts
about it are stated against a base, the cache as it was when the pass began: the files, their times,
their imports and their output stamps are those of the base all the way, and only the marks change.
So the graph that the pass walks is fixed, and its marks are statements about that graph.

`Memo` says which statements. A mark with a time bounds the file's own time from above and is the
time of some file that is reached; a mark without one means that a broken file is reached. What
cannot be said in general is that a mark bounds the times of everything reached, because a circle
of imports ends at a file whose mark is not final yet. It can be said where no circle is reached
(`Uncircled`), and it can be said of the file from which a pass starts (`Walk.bound`): every file
that the walk marks anew gets a mark that is at most the one at the root, and all its imports are
marked.

The walk is followed down its recursion. The number of files without a mark is below the number of
steps left, since each step down marks one more file, so the walk is never cut short.
-/
import Mathlib.Data.Finset.Card
import Mathlib.Data.Finset.Range
import Mathlib.Logic.Relation
import Bundler.Proofs.Cache

set_option autoImplicit false

namespace Bundler

/-! ## The graph of imports -/

/-- The entry after a pass: it may have been looked at, and its mark may differ. -/
structure Entry.Walked (disk : Disk) (e e' : Entry) : Prop where
  same : e' = { e with current := e'.current, freshness := e'.freshness }
  current : e'.current = e.current ∨ (e.current = .unset ∧ e'.current = disk.stamp e.fullName)

/-- The files that an entry imports, if its references are those of the file on the disk. -/
def Entry.imports (disk : Disk) (e : Entry) : List String :=
  match disk.modified? e.fullName with
  | some t => if e.infoTime = .at t then (e.references.map References.files).getD [] else []
  | none => []

namespace Entry

variable {disk : Disk} {e e' e'' : Entry}

theorem Walked.refl (disk : Disk) (e : Entry) : Walked disk e e := ⟨rfl, .inl rfl⟩

theorem Walked.trans (h : Walked disk e e') (h' : Walked disk e' e'') : Walked disk e e'' := by
  have hname : e'.fullName = e.fullName := by rw [h.same]
  constructor
  · rw [h'.same]
    rw [h.same]
  · rcases h'.current with heq | ⟨hunset, hset⟩
    · rw [heq]
      exact h.current
    · right
      rw [hset, hname]
      refine ⟨?_, rfl⟩
      rcases h.current with heq | ⟨hunset', -⟩
      · rw [← heq]
        exact hunset
      · exact hunset'

theorem Walked.fullName (h : Walked disk e e') : e'.fullName = e.fullName := by rw [h.same]

theorem Walked.key (h : Walked disk e e') : e'.key = e.key := by rw [h.same]

theorem Walked.outputTime (h : Walked disk e e') : e'.outputTime = e.outputTime := by rw [h.same]

theorem Walked.infoTime (h : Walked disk e e') : e'.infoTime = e.infoTime := by rw [h.same]

theorem Walked.references (h : Walked disk e e') : e'.references = e.references := by rw [h.same]

/-- Imports are a matter of the name, the record and the time of the file. -/
theorem imports_congr {disk' : Disk} (hmod : disk'.modified? e'.fullName = disk.modified? e.fullName)
    (hinfo : e'.infoTime = e.infoTime) (hrefs : e'.references = e.references) :
    e'.imports disk' = e.imports disk := by
  unfold imports
  rw [hmod, hinfo, hrefs]

theorem Walked.imports (h : Walked disk e e') : e'.imports disk = e.imports disk :=
  imports_congr (congrArg _ h.fullName) h.infoTime h.references

/-- The imports of an entry are those of a record of the file as it is. -/
theorem mem_imports_iff {name : String} : name ∈ e.imports disk ↔
    ∃ t refs, disk.modified? e.fullName = some t ∧ e.infoTime = .at t ∧ e.references = some refs ∧
      name ∈ refs.files := by
  unfold Entry.imports
  cases hmod : disk.modified? e.fullName with
  | none => simp
  | some t =>
    by_cases hinfo : e.infoTime = .at t
    · cases hrefs : e.references with
      | none => simp [hinfo]
      | some refs => simp [hinfo]
    · have hne : ∀ u, t = u → e.infoTime ≠ .at u := by
        rintro u rfl
        exact hinfo
      simp only [if_neg hinfo, List.not_mem_nil, false_iff]
      rintro ⟨u, refs, hu, hat, -⟩
      exact hne u (Option.some.inj hu) hat

theorem Walked.looked (disk : Disk) (e : Entry) : Walked disk e (e.looked disk) := by
  unfold Entry.looked
  by_cases h : e.current.isSet = true
  · rw [if_pos h]
    exact Walked.refl disk e
  · rw [if_neg h]
    refine ⟨rfl, .inr ⟨?_, rfl⟩⟩
    cases hcur : e.current with
    | unset => rfl
    | missing => rw [hcur] at h; exact absurd rfl h
    | «at» t => rw [hcur] at h; exact absurd rfl h

theorem Walked.marked (disk : Disk) (e : Entry) (f : Freshness) :
    Walked disk e { e with freshness := f } := ⟨rfl, .inl rfl⟩

end Entry

namespace Cache

variable (disk : Disk) (dir : String)

/-- The time of the file of an entry. -/
def timeOf (c : Cache) (i : Nat) : Option Nat := disk.modified? (c.entry i).fullName

/-- One entry imports another. -/
def Imports (c : Cache) (i j : Nat) : Prop :=
  i < c.entries.length ∧ ∃ name ∈ (c.entry i).imports disk, c.find? dir name = some j

/-- One entry leads to another by imports. -/
def Reaches (c : Cache) : Nat → Nat → Prop := Relation.ReflTransGen (c.Imports disk dir)

/-- No circle of imports is reached from an entry. -/
def Uncircled (c : Cache) (i : Nat) : Prop :=
  ∀ j, c.Reaches disk dir i j → ¬ Relation.TransGen (c.Imports disk dir) j j

/-- A file that is missing or, where that counts, was never written. -/
def Broken (ignoreMissingOutput : Bool) (c : Cache) (i : Nat) : Prop :=
  c.timeOf disk i = none ∨ (ignoreMissingOutput = false ∧ (c.entry i).outputTime.isSet = false)

/-- The files that are imported have entries. -/
def ImportsKnown (c : Cache) : Prop :=
  ∀ i, i < c.entries.length → ∀ refs, (c.entry i).references = some refs →
    ∀ name ∈ refs.files, ∃ j, c.find? dir name = some j

/-- What was seen of the files is what there is. -/
def Seen (c : Cache) : Prop :=
  ∀ i, i < c.entries.length →
    (c.entry i).current = .unset ∨ (c.entry i).current = disk.stamp (c.entry i).fullName

/-- A cache in which a pass can walk. -/
structure Walkable (c : Cache) : Prop where
  distinct : c.KeysDistinct
  known : c.ImportsKnown dir
  seen : c.Seen disk

variable {disk dir} {b c c' : Cache} {i j id : Nat} {ignore : Bool}

theorem Imports.reaches (h : c.Imports disk dir i j) : c.Reaches disk dir i j :=
  Relation.ReflTransGen.single h

theorem Imports.lt_length (h : c.Imports disk dir i j) : j < c.entries.length := by
  obtain ⟨-, name, -, hfind⟩ := h
  exact (find?_some hfind).1

theorem Reaches.lt_length (h : c.Reaches disk dir i j) (hi : i < c.entries.length) :
    j < c.entries.length := by
  induction h with
  | refl => exact hi
  | tail _ hjk _ => exact hjk.lt_length

theorem Uncircled.of_reaches (h : c.Uncircled disk dir i) (hij : c.Reaches disk dir i j) :
    c.Uncircled disk dir j := fun k hjk => h k (hij.trans hjk)

/-- An import is one of the names that the entry was read with. -/
theorem mem_files_of_mem_imports {e : Entry} {name : String} (h : name ∈ e.imports disk) :
    ∃ refs, e.references = some refs ∧ name ∈ refs.files := by
  obtain ⟨-, refs, -, -, hrefs, hmem⟩ := Entry.mem_imports_iff.mp h
  exact ⟨refs, hrefs, hmem⟩

/-- What a pass takes for the imports of an entry that was looked at are its imports. -/
theorem references_files (e : Entry) (hcur : e.current = disk.stamp e.fullName) :
    (e.references?.map References.files).getD [] = e.imports disk := by
  unfold Entry.references? Entry.isInfoCurrent Entry.found Entry.imports
  rw [hcur, Disk.stamp_time?]
  cases hmod : disk.modified? e.fullName with
  | none => simp
  | some t =>
    have hstamp : disk.stamp e.fullName = .at t := Disk.stamp_eq_at.mpr hmod
    rw [hstamp]
    by_cases hinfo : e.infoTime = .at t
    · cases hrefs : e.references with
      | none => simp [hinfo]
      | some refs => simp [hinfo]
    · simp [hinfo]

/-! ## A cache with other marks -/

/-- The mark of an entry. -/
def mark (c : Cache) (i : Nat) : Freshness := (c.entry i).freshness

/-- The cache is the base, apart from what a pass does to entries. -/
structure OnBase (disk : Disk) (b c : Cache) : Prop where
  length : c.entries.length = b.entries.length
  walked : ∀ i, i < b.entries.length → Entry.Walked disk (b.entry i) (c.entry i)

theorem OnBase.refl (disk : Disk) (b : Cache) : OnBase disk b b :=
  ⟨rfl, fun _ _ => Entry.Walked.refl disk _⟩

theorem OnBase.modify (h : OnBase disk b c) {f : Entry → Entry}
    (hf : ∀ e, Entry.Walked disk e (f e)) : OnBase disk b (c.modify id f) := by
  refine ⟨by rw [length_modify, h.length], fun i hi => ?_⟩
  have hi' : i < c.entries.length := by rw [h.length]; exact hi
  rw [entry_modify f hi']
  by_cases hid : id = i
  · rw [if_pos hid]
    exact (h.walked i hi).trans (hf _)
  · rw [if_neg hid]
    exact h.walked i hi

theorem OnBase.keysDistinct (h : OnBase disk b c) (hb : b.KeysDistinct) : c.KeysDistinct := by
  intro i j hi hj hkey
  rw [h.length] at hi hj
  rw [(h.walked i hi).key, (h.walked j hj).key] at hkey
  exact hb i j hi hj hkey

theorem OnBase.find? (h : OnBase disk b c) (hb : b.KeysDistinct) {name : String}
    (hf : b.find? dir name = some i) : c.find? dir name = some i := by
  obtain ⟨hi, hkey⟩ := find?_some hf
  apply find?_eq_some (h.keysDistinct hb) (by rw [h.length]; exact hi)
  rw [(h.walked i hi).key, hkey]

theorem OnBase.seen (h : OnBase disk b c) (hb : b.Seen disk) : c.Seen disk := by
  intro i hi
  rw [h.length] at hi
  rw [(h.walked i hi).fullName]
  rcases (h.walked i hi).current with heq | ⟨-, hset⟩
  · rw [heq]
    exact hb i hi
  · exact .inr hset

theorem mark_modify (f : Freshness) (hid : id < c.entries.length) :
    (c.modify id fun e => { e with freshness := f }).mark i = if id = i then f else c.mark i := by
  unfold mark
  by_cases h : id = i
  · subst h
    rw [entry_modify_self _ hid, if_pos rfl]
  · rw [entry_modify_ne _ h, if_neg h]

theorem mark_probe (disk : Disk) (c : Cache) (id i : Nat) : (c.probe disk id).mark i = c.mark i := by
  unfold mark
  rw [probe_eq]
  by_cases h : i < c.entries.length
  · rw [entry_modify _ h]
    by_cases hid : id = i
    · rw [if_pos hid]
      unfold Entry.looked
      split <;> rfl
    · rw [if_neg hid]
  · unfold entry
    rw [List.getElem?_eq_none (by simpa using h), List.getElem?_eq_none (by omega)]

/-- The entries without a mark. -/
def unmarked (c : Cache) (n : Nat) : Finset Nat := (Finset.range n).filter fun i => c.mark i = .unset

/-! ## What the marks say -/

/-- What the marks of a cache say about the files of its base. -/
structure Memo (disk : Disk) (dir : String) (ignore : Bool) (b c : Cache) : Prop where
  own : ∀ i v, (c.mark i).time? = some v → ∃ t, b.timeOf disk i = some t ∧ t ≤ v
  sound : ∀ i v, (c.mark i).time? = some v →
    ∃ j, b.Reaches disk dir i j ∧ b.timeOf disk j = some v
  broken : ∀ i, c.mark i = .unresolvable → ∃ j, b.Reaches disk dir i j ∧ b.Broken disk ignore j
  whole : ∀ i v, c.mark i = .at v → b.Uncircled disk dir i →
    ¬ b.Broken disk ignore i ∧ ∀ j, b.Imports disk dir i j → ∃ w, c.mark j = .at w ∧ w ≤ v

/-- What a walk from an entry does: its answer and the marks after it. -/
structure Walk (disk : Disk) (dir : String) (ignore : Bool) (b c : Cache) (id : Nat)
    (f : Freshness) (c' : Cache) : Prop where
  base : OnBase disk b c'
  memo : Memo disk dir ignore b c'
  answer : c'.mark id = f
  set : f ≠ .unset
  keep : ∀ i, c.mark i ≠ .unset → c'.mark i = c.mark i
  done : ∀ i t, c.mark i = .unset → c'.mark i ≠ .inProgress t
  bound : ∀ v, f.time? = some v → ∀ i, c.mark i = .unset → c'.mark i ≠ .unset →
    ∃ w, w ≤ v ∧ c'.mark i = .at w ∧ ¬ b.Broken disk ignore i ∧
      ∀ j, b.Imports disk dir i j → c'.mark j ≠ .unset

/-- What a walk over imports of an entry does, where `start` is the time to begin with. -/
structure NewestWalk (disk : Disk) (dir : String) (ignore : Bool) (b c : Cache) (id : Nat)
    (files : List String) (start : Nat) (r : Option Nat) (c' : Cache) : Prop where
  base : OnBase disk b c'
  memo : Memo disk dir ignore b c'
  keep : ∀ i, c.mark i ≠ .unset → c'.mark i = c.mark i
  done : ∀ i t, c.mark i = .unset → c'.mark i ≠ .inProgress t
  start_le : ∀ v, r = some v → start ≤ v
  attained : ∀ v, r = some v →
    v = start ∨ ∃ j, b.Imports disk dir id j ∧ (c'.mark j).time? = some v
  covers : ∀ v, r = some v → ∀ name ∈ files, ∀ j, b.find? dir name = some j →
    ∃ w, (c'.mark j).time? = some w ∧ w ≤ v
  bound : ∀ v, r = some v → ∀ i, c.mark i = .unset → c'.mark i ≠ .unset →
    ∃ w, w ≤ v ∧ c'.mark i = .at w ∧ ¬ b.Broken disk ignore i ∧
      ∀ j, b.Imports disk dir i j → c'.mark j ≠ .unset
  stuck : r = none → ∃ j, b.Imports disk dir id j ∧ c'.mark j = .unresolvable

private theorem unmarked_subset (hkeep : ∀ i, c.mark i ≠ .unset → c'.mark i = c.mark i) (n : Nat) :
    c'.unmarked n ⊆ c.unmarked n := by
  intro i hi
  unfold unmarked at hi ⊢
  rw [Finset.mem_filter] at hi ⊢
  refine ⟨hi.1, ?_⟩
  by_contra hne
  exact hne (by rw [← hkeep i hne]; exact hi.2)

theorem time?_of_ne_unresolvable {f : Freshness} (hset : f ≠ .unset) (h : f ≠ .unresolvable) :
    ∃ v, f.time? = some v := by
  cases f with
  | unset => exact absurd rfl hset
  | unresolvable => exact absurd rfl h
  | inProgress t => exact ⟨t, rfl⟩
  | «at» t => exact ⟨t, rfl⟩

/-- There is nothing to visit. -/
private theorem NewestWalk.nil (hbase : OnBase disk b c) (hmemo : Memo disk dir ignore b c)
    (id start : Nat) : NewestWalk disk dir ignore b c id [] start (some start) c := by
  refine ⟨hbase, hmemo, fun _ _ => rfl, ?_, ?_, ?_, ?_, ?_, ?_⟩
  · intro i t hunset hprog
    rw [hunset] at hprog
    exact absurd hprog (by simp)
  · intro v hv
    exact Nat.le_of_eq (Option.some.inj hv)
  · intro v hv
    exact .inl (Option.some.inj hv).symm
  · intro v _ name hname
    exact absurd hname List.not_mem_nil
  · intro v _ i hunset hset
    exact absurd hunset hset
  · intro h
    exact absurd h (by simp)

/-- The first import has no time, so the others are not visited. -/
private theorem NewestWalk.stop {name : String} {files : List String} {start : Nat} {f : Freshness}
    (himp : b.Imports disk dir id j) (hw : Walk disk dir ignore b c j f c') (hf : f.time? = none) :
    NewestWalk disk dir ignore b c id (name :: files) start none c' := by
  have hun : f = .unresolvable := by
    by_contra hne
    obtain ⟨v, hv⟩ := time?_of_ne_unresolvable hw.set hne
    rw [hf] at hv
    exact absurd hv (by simp)
  refine ⟨hw.base, hw.memo, hw.keep, hw.done, ?_, ?_, ?_, ?_, ?_⟩
  · intro v h
    exact absurd h (by simp)
  · intro v h
    exact absurd h (by simp)
  · intro v h
    exact absurd h (by simp)
  · intro v h
    exact absurd h (by simp)
  · intro _
    exact ⟨j, himp, by rw [hw.answer, hun]⟩

/-- The first import has a time, and the others are visited after it. -/
private theorem NewestWalk.cons {name : String} {files : List String} {start t : Nat}
    {f : Freshness} {r : Option Nat} {c₁ : Cache} (hj : b.find? dir name = some j)
    (himp : b.Imports disk dir id j) (hw : Walk disk dir ignore b c j f c₁)
    (hf : f.time? = some t) (hn : NewestWalk disk dir ignore b c₁ id files (max start t) r c') :
    NewestWalk disk dir ignore b c id (name :: files) start r c' := by
  have hjmark : c'.mark j = f := by
    rw [hn.keep j (by rw [hw.answer]; exact hw.set), hw.answer]
  refine ⟨hn.base, hn.memo, ?_, ?_, ?_, ?_, ?_, ?_, hn.stuck⟩
  · intro i hi
    rw [hn.keep i (by rw [hw.keep i hi]; exact hi), hw.keep i hi]
  · intro i s hunset
    by_cases h₁ : c₁.mark i = .unset
    · exact hn.done i s h₁
    · rw [hn.keep i h₁]
      exact hw.done i s hunset
  · intro v hv
    exact Nat.le_trans (Nat.le_max_left start t) (hn.start_le v hv)
  · intro v hv
    rcases hn.attained v hv with heq | hex
    · rcases Nat.le_total start t with hle | hle
      · right
        refine ⟨j, himp, ?_⟩
        rw [hjmark, hf, heq, Nat.max_eq_right hle]
      · left
        rw [heq, Nat.max_eq_left hle]
    · exact .inr hex
  · intro v hv name' hname' k hk
    rcases List.mem_cons.mp hname' with heq | hrest
    · subst heq
      have hkj : k = j := Option.some.inj (hk.symm.trans hj)
      subst hkj
      refine ⟨t, ?_, Nat.le_trans (Nat.le_max_right start t) (hn.start_le v hv)⟩
      rw [hjmark, hf]
    · exact hn.covers v hv name' hrest k hk
  · intro v hv i hunset hset
    -- an entry that the first visit marked keeps its mark, and its imports keep theirs
    by_cases h₁ : c₁.mark i = .unset
    · exact hn.bound v hv i h₁ hset
    · obtain ⟨w, hw_le, hmark, hnb, himps⟩ := hw.bound t hf i hunset h₁
      refine ⟨w, ?_, by rw [hn.keep i h₁, hmark], hnb, fun k hk => ?_⟩
      · exact Nat.le_trans hw_le (Nat.le_trans (Nat.le_max_right start t) (hn.start_le v hv))
      · rw [hn.keep k (himps k hk)]
        exact himps k hk

/-- The walk over the imports of an entry, given that the walk from each of them is as it should
be. The induction is on the list of imports; the time found so far grows along the way. -/
private theorem newest_walk (hb : b.Walkable disk dir) (visit : String → Cache → Freshness × Cache)
    {n : Nat} (hid : id < b.entries.length)
    (hvisit : ∀ name j c, b.find? dir name = some j → b.Imports disk dir id j →
      OnBase disk b c → Memo disk dir ignore b c →
      (∀ z t, c.mark z = .inProgress t → b.Reaches disk dir z id) →
      (c.unmarked b.entries.length).card < n →
      ∃ f c', visit name c = (f, c') ∧ Walk disk dir ignore b c j f c') :
    ∀ (files : List String) (start : Nat) (c : Cache),
      (∀ name ∈ files, name ∈ (b.entry id).imports disk) →
      OnBase disk b c → Memo disk dir ignore b c →
      (∀ z t, c.mark z = .inProgress t → b.Reaches disk dir z id) →
      (c.unmarked b.entries.length).card < n →
      ∃ r c', newest visit start files c = (r, c') ∧
        NewestWalk disk dir ignore b c id files start r c' := by
  intro files
  induction files with
  | nil =>
    intro start c _ hbase hmemo _ _
    exact ⟨some start, c, rfl, NewestWalk.nil hbase hmemo id start⟩
  | cons name files ih =>
    intro start c hfiles hbase hmemo hstack hcard
    have hname : name ∈ (b.entry id).imports disk := hfiles name List.mem_cons_self
    obtain ⟨refs, hrefs, hmem⟩ := mem_files_of_mem_imports hname
    obtain ⟨j, hj⟩ := hb.known id hid refs hrefs name hmem
    have himp : b.Imports disk dir id j := ⟨hid, name, hname, hj⟩
    obtain ⟨f, c₁, hvis, hw⟩ := hvisit name j c hj himp hbase hmemo hstack hcard
    simp only [newest, hvis]
    cases hf : f.time? with
    | none => exact ⟨none, c₁, rfl, NewestWalk.stop himp hw hf⟩
    | some t =>
      have hstack₁ : ∀ z s, c₁.mark z = .inProgress s → b.Reaches disk dir z id := by
        intro z s hz
        by_cases hunset : c.mark z = .unset
        · exact absurd hz (hw.done z s hunset)
        · exact hstack z s (by rw [← hw.keep z hunset]; exact hz)
      have hcard₁ : (c₁.unmarked b.entries.length).card < n :=
        Nat.lt_of_le_of_lt (Finset.card_le_card (unmarked_subset hw.keep _)) hcard
      obtain ⟨r, c₂, hnew, hn⟩ := ih (max start t) c₁
        (fun name' h' => hfiles name' (List.mem_cons_of_mem _ h')) hw.base hw.memo hstack₁ hcard₁
      exact ⟨r, c₂, hnew, NewestWalk.cons hj himp hw hf hn⟩

/-- Giving an entry a mark that says something true, where it had none or one that was not final.
No finished file without a circle imports such an entry, so what is said of finished files stays. -/
private theorem Memo.set_mark (hmemo : Memo disk dir ignore b c) (hid : id < c.entries.length)
    (hopen : ∀ w, c.mark id ≠ .at w) {f : Freshness}
    (hown : ∀ v, f.time? = some v → ∃ t, b.timeOf disk id = some t ∧ t ≤ v)
    (hsound : ∀ v, f.time? = some v → ∃ j, b.Reaches disk dir id j ∧ b.timeOf disk j = some v)
    (hbroken : f = .unresolvable → ∃ j, b.Reaches disk dir id j ∧ b.Broken disk ignore j)
    (hwhole : ∀ v, f = .at v → b.Uncircled disk dir id → ¬ b.Broken disk ignore id ∧
      ∀ j, b.Imports disk dir id j → ∃ w, c.mark j = .at w ∧ w ≤ v) :
    Memo disk dir ignore b (c.modify id fun e => { e with freshness := f }) := by
  have hother : ∀ j w, c.mark j = .at w →
      (c.modify id fun e => { e with freshness := f }).mark j = .at w := by
    intro j w hw
    have hne : id ≠ j := by
      intro heq
      subst heq
      exact hopen w hw
    rw [mark_modify _ hid, if_neg hne]
    exact hw
  constructor
  · intro i u hu
    rw [mark_modify _ hid] at hu
    by_cases h : id = i
    · subst h
      rw [if_pos rfl] at hu
      exact hown u hu
    · rw [if_neg h] at hu
      exact hmemo.own i u hu
  · intro i u hu
    rw [mark_modify _ hid] at hu
    by_cases h : id = i
    · subst h
      rw [if_pos rfl] at hu
      exact hsound u hu
    · rw [if_neg h] at hu
      exact hmemo.sound i u hu
  · intro i hi
    rw [mark_modify _ hid] at hi
    by_cases h : id = i
    · subst h
      rw [if_pos rfl] at hi
      exact hbroken hi
    · rw [if_neg h] at hi
      exact hmemo.broken i hi
  · intro i u hi hcirc
    have hsaid : ¬ b.Broken disk ignore i ∧
        ∀ j, b.Imports disk dir i j → ∃ w, c.mark j = .at w ∧ w ≤ u := by
      rw [mark_modify _ hid] at hi
      by_cases h : id = i
      · subst h
        rw [if_pos rfl] at hi
        exact hwhole u hi hcirc
      · rw [if_neg h] at hi
        exact hmemo.whole i u hi hcirc
    refine ⟨hsaid.1, fun j hj => ?_⟩
    obtain ⟨w, hw, hle⟩ := hsaid.2 j hj
    exact ⟨w, hother j w hw, hle⟩

private theorem OnBase.set_mark (hbase : OnBase disk b c) (id : Nat) (f : Freshness) :
    OnBase disk b (c.modify id fun e => { e with freshness := f }) :=
  hbase.modify fun e => Entry.Walked.marked disk e f

/-- Ending the visit of an entry that was marked on the way down: `c` is the cache before the
visit, `d` the one at its end, in which the entry is still marked as being worked out. -/
private theorem Walk.finish {d : Cache} {t : Nat} {f : Freshness}
    (hlen : id < b.entries.length) (hbase : OnBase disk b d)
    (hmemo : Memo disk dir ignore b (d.modify id fun e => { e with freshness := f }))
    (hunset : c.mark id = .unset) (hopen : d.mark id = .inProgress t)
    (hset : f ≠ .unset) (hnotopen : ∀ s, f ≠ .inProgress s)
    (hkeep : ∀ i, i ≠ id → c.mark i ≠ .unset → d.mark i = c.mark i)
    (hdone : ∀ i s, i ≠ id → c.mark i = .unset → d.mark i ≠ .inProgress s)
    (hbound : ∀ v, f.time? = some v →
      (¬ b.Broken disk ignore id ∧ ∀ j, b.Imports disk dir id j → d.mark j ≠ .unset) ∧
      ∀ i, i ≠ id → c.mark i = .unset → d.mark i ≠ .unset →
        ∃ w, w ≤ v ∧ d.mark i = .at w ∧ ¬ b.Broken disk ignore i ∧
          ∀ j, b.Imports disk dir i j → d.mark j ≠ .unset) :
    Walk disk dir ignore b c id f (d.modify id fun e => { e with freshness := f }) := by
  have hid : id < d.entries.length := by rw [hbase.length]; exact hlen
  have hmarks : ∀ j, d.mark j ≠ .unset →
      (d.modify id fun e => { e with freshness := f }).mark j ≠ .unset := by
    intro j hj
    rw [mark_modify _ hid]
    by_cases h : id = j
    · rw [if_pos h]
      exact hset
    · rw [if_neg h]
      exact hj
  refine ⟨hbase.set_mark id f, hmemo, ?_, hset, ?_, ?_, ?_⟩
  · rw [mark_modify _ hid, if_pos rfl]
  · intro i hi
    have hne : i ≠ id := by
      intro heq
      subst heq
      exact hi hunset
    rw [mark_modify _ hid, if_neg (Ne.symm hne)]
    exact hkeep i hne hi
  · intro i s hi
    rw [mark_modify _ hid]
    by_cases h : id = i
    · rw [if_pos h]
      exact hnotopen s
    · rw [if_neg h]
      exact hdone i s (Ne.symm h) hi
  · intro v hv i hi hi'
    obtain ⟨⟨hnb, himps⟩, hothers⟩ := hbound v hv
    by_cases h : id = i
    · subst h
      refine ⟨v, Nat.le_refl v, ?_, hnb, fun j hj => hmarks j (himps j hj)⟩
      rw [mark_modify _ hid, if_pos rfl]
      cases f with
      | unset => exact absurd rfl hset
      | unresolvable => exact absurd hv (by simp [Freshness.time?])
      | inProgress s => exact absurd rfl (hnotopen s)
      | «at» s => rw [Option.some.inj hv]
    · rw [mark_modify _ hid, if_neg h] at hi'
      obtain ⟨w, hle, hw, hnbi, himpsi⟩ := hothers i (Ne.symm h) hi hi'
      refine ⟨w, hle, ?_, hnbi, fun j hj => hmarks j (himpsi j hj)⟩
      rw [mark_modify _ hid, if_neg h]
      exact hw

/-! ## One step of the walk -/

/-- The cache `d` in which an entry was looked at and marked with the time of its file, before its
imports are visited. -/
structure Opened (disk : Disk) (dir : String) (ignore : Bool) (b c : Cache) (id t : Nat)
    (d : Cache) : Prop where
  base : OnBase disk b d
  memo : Memo disk dir ignore b d
  marks : ∀ i, d.mark i = if id = i then .inProgress t else c.mark i
  current : (d.entry id).current = disk.stamp (d.entry id).fullName

/-- What was seen of an entry that is looked at is its file. -/
private theorem OnBase.current_probe (hbase : OnBase disk b c) (hb : b.Seen disk)
    (hid : id < b.entries.length) :
    ((c.probe disk id).entry id).current = disk.stamp (b.entry id).fullName := by
  have hidc : id < c.entries.length := by rw [hbase.length]; exact hid
  rw [probe_eq, entry_modify_self _ hidc, ← (hbase.walked id hid).fullName]
  unfold Entry.looked
  by_cases hs : (c.entry id).current.isSet = true
  · rw [if_pos hs]
    rcases hbase.seen hb id hidc with hu | hst
    · rw [hu] at hs
      exact absurd hs (by simp [Stamp.isSet])
    · exact hst
  · rw [if_neg hs]

private theorem OnBase.probe (hbase : OnBase disk b c) (id : Nat) :
    OnBase disk b (c.probe disk id) := by
  rw [probe_eq]
  exact hbase.modify (Entry.Walked.looked disk)

private theorem Memo.probe (hmemo : Memo disk dir ignore b c) (id : Nat) :
    Memo disk dir ignore b (c.probe disk id) := by
  have hmark := mark_probe disk c id
  constructor
  · intro i v hv
    exact hmemo.own i v (by rw [← hmark i]; exact hv)
  · intro i v hv
    exact hmemo.sound i v (by rw [← hmark i]; exact hv)
  · intro i hi
    exact hmemo.broken i (by rw [← hmark i]; exact hi)
  · intro i v hi hcirc
    obtain ⟨hnb, himps⟩ := hmemo.whole i v (by rw [← hmark i]; exact hi) hcirc
    refine ⟨hnb, fun j hj => ?_⟩
    rw [hmark j]
    exact himps j hj

/-- An entry that has a mark is not visited again. -/
private theorem Walk.known (hbase : OnBase disk b c) (hmemo : Memo disk dir ignore b c)
    (hset : c.mark id ≠ .unset) : Walk disk dir ignore b c id (c.mark id) c := by
  refine ⟨hbase, hmemo, rfl, hset, fun _ _ => rfl, ?_, ?_⟩
  · intro i t hunset hprog
    rw [hunset] at hprog
    exact absurd hprog (by simp)
  · intro v _ i hunset hset
    exact absurd hunset hset

/-- A mark without a time says only that something broken is reached. -/
private theorem Memo.set_unresolvable (hmemo : Memo disk dir ignore b c)
    (hid : id < c.entries.length) (hopen : ∀ w, c.mark id ≠ .at w)
    (hbroken : ∃ j, b.Reaches disk dir id j ∧ b.Broken disk ignore j) :
    Memo disk dir ignore b (c.modify id fun e => { e with freshness := .unresolvable }) :=
  hmemo.set_mark hid hopen (fun v hv => absurd hv (by simp [Freshness.time?]))
    (fun v hv => absurd hv (by simp [Freshness.time?])) (fun _ => hbroken)
    (fun v hv => absurd hv (by simp))

/-- The visit of an entry whose file is missing. -/
private theorem Walk.missing (hid : id < b.entries.length) (hbase : OnBase disk b c)
    (hmemo : Memo disk dir ignore b c) (hunset : c.mark id = .unset)
    (ht : b.timeOf disk id = none) :
    Walk disk dir ignore b c id .unresolvable
      ((c.probe disk id).modify id fun e => { e with freshness := .unresolvable }) := by
  have hmark := mark_probe disk c id
  have hbase₁ := hbase.probe id
  have hid₁ : id < (c.probe disk id).entries.length := by rw [hbase₁.length]; exact hid
  refine ⟨hbase₁.set_mark id _, (hmemo.probe id).set_unresolvable hid₁ ?_ ?_, ?_, by simp, ?_, ?_, ?_⟩
  · intro w hw
    rw [hmark id, hunset] at hw
    exact absurd hw (by simp)
  · exact ⟨id, Relation.ReflTransGen.refl, .inl ht⟩
  · rw [mark_modify _ hid₁, if_pos rfl]
  · intro i hi
    have hne : id ≠ i := by
      intro h
      subst h
      exact hi hunset
    rw [mark_modify _ hid₁, if_neg hne, hmark i]
  · intro i s hi
    rw [mark_modify _ hid₁]
    by_cases h : id = i
    · rw [if_pos h]
      simp
    · rw [if_neg h, hmark i, hi]
      simp
  · intro v hv
    exact absurd hv (by simp [Freshness.time?])

namespace Opened

variable {d : Cache} {t : Nat}

/-- Looking at an entry whose file is there and marking it with the time of the file. -/
private theorem of_probe (hb : b.Seen disk) (hid : id < b.entries.length) (hbase : OnBase disk b c)
    (hmemo : Memo disk dir ignore b c) (hunset : c.mark id = .unset)
    (ht : b.timeOf disk id = some t) :
    Opened disk dir ignore b c id t
      ((c.probe disk id).modify id fun e => { e with freshness := .inProgress t }) := by
  have hmark := mark_probe disk c id
  have hbase₁ := hbase.probe id
  have hid₁ : id < (c.probe disk id).entries.length := by rw [hbase₁.length]; exact hid
  refine ⟨hbase₁.set_mark id _, (hmemo.probe id).set_mark hid₁ ?_ ?_ ?_ ?_ ?_, ?_, ?_⟩
  · intro w hw
    rw [hmark id, hunset] at hw
    exact absurd hw (by simp)
  · intro v hv
    exact ⟨t, ht, Nat.le_of_eq (Option.some.inj hv)⟩
  · intro v hv
    exact ⟨id, Relation.ReflTransGen.refl, ht.trans hv⟩
  · intro h
    exact absurd h (by simp)
  · intro v h
    exact absurd h (by simp)
  · intro i
    rw [mark_modify _ hid₁, hmark i]
  · rw [entry_modify_self _ hid₁]
    exact (hbase.current_probe hb hid).trans (by rw [(hbase₁.walked id hid).fullName])

theorem lt_length (ho : Opened disk dir ignore b c id t d) (hid : id < b.entries.length) :
    id < d.entries.length := by
  rw [ho.base.length]
  exact hid

theorem mark_self (ho : Opened disk dir ignore b c id t d) : d.mark id = .inProgress t := by
  rw [ho.marks id, if_pos rfl]

theorem mark_ne (ho : Opened disk dir ignore b c id t d) (h : i ≠ id) : d.mark i = c.mark i := by
  rw [ho.marks i, if_neg (Ne.symm h)]

/-- The imports that are visited are the imports of the entry. -/
theorem files (ho : Opened disk dir ignore b c id t d) (hid : id < b.entries.length) :
    ((d.entry id).references?.map References.files).getD [] = (b.entry id).imports disk := by
  rw [references_files _ ho.current]
  exact (ho.base.walked id hid).imports

/-- Every file that is being worked out leads to the entry, itself included. -/
theorem reaches (ho : Opened disk dir ignore b c id t d)
    (hstack : ∀ z s, c.mark z = .inProgress s → b.Reaches disk dir z id) {z s : Nat}
    (hz : d.mark z = .inProgress s) : b.Reaches disk dir z id := by
  by_cases h : z = id
  · subst h
    exact Relation.ReflTransGen.refl
  · rw [ho.mark_ne h] at hz
    exact hstack z s hz

/-- One file more has a mark. -/
theorem card_lt (ho : Opened disk dir ignore b c id t d) (hid : id < b.entries.length)
    (hunset : c.mark id = .unset) {n : Nat} (hcard : (c.unmarked b.entries.length).card < n + 1) :
    (d.unmarked b.entries.length).card < n := by
  have hss : d.unmarked b.entries.length ⊂ c.unmarked b.entries.length := by
    rw [Finset.ssubset_iff_of_subset]
    · refine ⟨id, ?_, ?_⟩
      · exact Finset.mem_filter.mpr ⟨Finset.mem_range.mpr hid, hunset⟩
      · intro hmem
        have h := (Finset.mem_filter.mp hmem).2
        rw [ho.mark_self] at h
        exact absurd h (by simp)
    · apply unmarked_subset
      intro i hi
      exact ho.mark_ne fun heq => hi (by rw [heq]; exact hunset)
  have hlt := Finset.card_lt_card hss
  omega

/-- The visit of an entry whose file was never written. -/
private theorem unwritten (ho : Opened disk dir ignore b c id t d) (hid : id < b.entries.length)
    (hunset : c.mark id = .unset) (hbroken : b.Broken disk ignore id) :
    Walk disk dir ignore b c id .unresolvable
      (d.modify id fun e => { e with freshness := .unresolvable }) := by
  refine Walk.finish hid ho.base ?_ hunset ho.mark_self (by simp) (by simp) ?_ ?_ ?_
  · refine ho.memo.set_unresolvable (ho.lt_length hid) ?_ ⟨id, Relation.ReflTransGen.refl, hbroken⟩
    intro w hw
    rw [ho.mark_self] at hw
    exact absurd hw (by simp)
  · intro i hne _
    exact ho.mark_ne hne
  · intro i s hne hi
    rw [ho.mark_ne hne, hi]
    simp
  · intro v hv
    exact absurd hv (by simp [Freshness.time?])

variable {files : List String} {r : Option Nat}

/-! What is so after the imports were visited: the entry is still marked as being worked out, and
the marks of the others are kept or final. -/

theorem mark_walked (ho : Opened disk dir ignore b c id t d)
    (hn : NewestWalk disk dir ignore b d id files t r c') : c'.mark id = .inProgress t := by
  rw [hn.keep id (by rw [ho.mark_self]; simp), ho.mark_self]

theorem keep_walked (ho : Opened disk dir ignore b c id t d)
    (hn : NewestWalk disk dir ignore b d id files t r c') (hne : i ≠ id) (hi : c.mark i ≠ .unset) :
    c'.mark i = c.mark i := by
  rw [hn.keep i (by rw [ho.mark_ne hne]; exact hi), ho.mark_ne hne]

theorem done_walked (ho : Opened disk dir ignore b c id t d)
    (hn : NewestWalk disk dir ignore b d id files t r c') (hne : i ≠ id) (hi : c.mark i = .unset)
    (s : Nat) : c'.mark i ≠ .inProgress s := by
  apply hn.done i s
  rw [ho.mark_ne hne]
  exact hi

theorem not_at_walked (ho : Opened disk dir ignore b c id t d)
    (hn : NewestWalk disk dir ignore b d id files t r c') (w : Nat) : c'.mark id ≠ .at w := by
  rw [ho.mark_walked hn]
  simp

/-- The visit of an entry with an import that has no time. -/
private theorem stuck (ho : Opened disk dir ignore b c id t d) (hid : id < b.entries.length)
    (hunset : c.mark id = .unset) (hn : NewestWalk disk dir ignore b d id files t none c') :
    Walk disk dir ignore b c id .unresolvable
      (c'.modify id fun e => { e with freshness := .unresolvable }) := by
  obtain ⟨j, himp, hj⟩ := hn.stuck rfl
  obtain ⟨k, hjk, hk⟩ := hn.memo.broken j hj
  have hid' : id < c'.entries.length := by rw [hn.base.length]; exact hid
  refine Walk.finish hid hn.base ?_ hunset (ho.mark_walked hn) (by simp) (by simp)
    (fun i hne hi => ho.keep_walked hn hne hi) (fun i s hne hi => ho.done_walked hn hne hi s) ?_
  · exact hn.memo.set_unresolvable hid' (ho.not_at_walked hn) ⟨k, himp.reaches.trans hjk, hk⟩
  · intro v hv
    exact absurd hv (by simp [Freshness.time?])

/-- An import of an entry from which no circle is reached has a final mark after its visit: one
that is still being worked out leads to the entry and would close a circle. -/
private theorem mark_import (ho : Opened disk dir ignore b c id t d)
    (hstack : ∀ z s, c.mark z = .inProgress s → b.Reaches disk dir z id)
    (hcirc : b.Uncircled disk dir id) (himp : b.Imports disk dir id j)
    (hn : NewestWalk disk dir ignore b d id files t r c') {w : Nat}
    (hw : (c'.mark j).time? = some w) : c'.mark j = .at w := by
  cases hm : c'.mark j with
  | unset =>
    rw [hm] at hw
    exact absurd hw (by simp [Freshness.time?])
  | unresolvable =>
    rw [hm] at hw
    exact absurd hw (by simp [Freshness.time?])
  | inProgress s =>
    have hreach : b.Reaches disk dir j id := by
      by_cases h : d.mark j = .unset
      · exact absurd hm (hn.done j s h)
      · exact ho.reaches hstack (s := s) (by rw [← hn.keep j h]; exact hm)
    exact absurd (Relation.TransGen.head' himp hreach) (hcirc id Relation.ReflTransGen.refl)
  | «at» s =>
    rw [hm] at hw
    rw [Option.some.inj hw]

/-- The newest time found is a mark that says something true. -/
private theorem memo_ended (ho : Opened disk dir ignore b c id t d) (hid : id < b.entries.length)
    (hstack : ∀ z s, c.mark z = .inProgress s → b.Reaches disk dir z id)
    (ht : b.timeOf disk id = some t) (hnb : ¬ b.Broken disk ignore id) {v : Nat}
    (hn : NewestWalk disk dir ignore b d id ((b.entry id).imports disk) t (some v) c') :
    Memo disk dir ignore b (c'.modify id fun e => { e with freshness := .at v }) := by
  have hid' : id < c'.entries.length := by rw [hn.base.length]; exact hid
  refine hn.memo.set_mark hid' (ho.not_at_walked hn) ?_ ?_ (fun h => absurd h (by simp)) ?_
  · intro u hu
    exact ⟨t, ht, by rw [← Option.some.inj hu]; exact hn.start_le v rfl⟩
  · intro u hu
    rw [← Option.some.inj hu]
    rcases hn.attained v rfl with hv | ⟨j, himp, hj⟩
    · exact ⟨id, Relation.ReflTransGen.refl, by rw [hv]; exact ht⟩
    · obtain ⟨k, hjk, hk⟩ := hn.memo.sound j v hj
      exact ⟨k, himp.reaches.trans hjk, hk⟩
  · intro u hu hcirc
    have huv : v = u := Freshness.at.inj hu
    subst huv
    refine ⟨hnb, fun j himp => ?_⟩
    have ⟨_, name, hname, hfind⟩ := himp
    obtain ⟨w, hw, hle⟩ := hn.covers v rfl name hname j hfind
    exact ⟨w, ho.mark_import hstack hcirc himp hn hw, hle⟩

/-- The visit of an entry all of whose imports have a time. -/
private theorem ended (ho : Opened disk dir ignore b c id t d) (hid : id < b.entries.length)
    (hunset : c.mark id = .unset)
    (hstack : ∀ z s, c.mark z = .inProgress s → b.Reaches disk dir z id)
    (ht : b.timeOf disk id = some t) (hnb : ¬ b.Broken disk ignore id) {v : Nat}
    (hn : NewestWalk disk dir ignore b d id ((b.entry id).imports disk) t (some v) c') :
    Walk disk dir ignore b c id (.at v) (c'.modify id fun e => { e with freshness := .at v }) := by
  refine Walk.finish hid hn.base (ho.memo_ended hid hstack ht hnb hn) hunset (ho.mark_walked hn)
    (by simp) (by simp) (fun i hne hi => ho.keep_walked hn hne hi)
    (fun i s hne hi => ho.done_walked hn hne hi s) ?_
  intro u hu
  rw [← Option.some.inj hu]
  refine ⟨⟨hnb, fun j himp => ?_⟩, fun i hne hi hi' => ?_⟩
  · obtain ⟨-, name, hname, hfind⟩ := himp
    obtain ⟨w, hw, -⟩ := hn.covers v rfl name hname j hfind
    intro hm
    rw [hm] at hw
    exact absurd hw (by simp [Freshness.time?])
  · exact hn.bound v rfl i (by rw [ho.mark_ne hne]; exact hi) hi'

end Opened

/-- The walk from an entry is as it should be, as long as every file that is being worked out
leads to the entry and the steps are not used up. The induction is on the steps, that is on the
depth of the walk; the cases are the ways in which the visit of one entry ends. -/
theorem freshnessWithin_walk (hb : b.Walkable disk dir) :
    ∀ (depth id : Nat) (c : Cache), id < b.entries.length → OnBase disk b c →
      Memo disk dir ignore b c →
      (∀ z t, c.mark z = .inProgress t → b.Reaches disk dir z id) →
      (c.unmarked b.entries.length).card < depth →
      ∃ f c', freshnessWithin disk dir ignore depth id c = (f, c') ∧
        Walk disk dir ignore b c id f c' := by
  intro depth
  induction depth with
  | zero =>
    intro id c _ _ _ _ hcard
    exact absurd hcard (Nat.not_lt_zero _)
  | succ depth ih =>
    intro id c hid hbase hmemo hstack hcard
    by_cases hunset : c.mark id = .unset
    case neg =>
      refine ⟨c.mark id, c, ?_, Walk.known hbase hmemo hunset⟩
      have hne : ((c.entry id).freshness != .unset) = true := by simpa [mark] using hunset
      unfold freshnessWithin
      simp only [hne, if_true]
      rfl
    case pos =>
      have heq : ((c.entry id).freshness != .unset) = false := by simpa [mark] using hunset
      have htime : ((c.probe disk id).entry id).current.time? = b.timeOf disk id := by
        rw [hbase.current_probe hb.seen hid, Disk.stamp_time?]
        rfl
      unfold freshnessWithin
      simp only [heq, Bool.false_eq_true, if_false, htime, settle]
      cases ht : b.timeOf disk id with
      | none => exact ⟨.unresolvable, _, rfl, Walk.missing hid hbase hmemo hunset ht⟩
      | some t =>
        have ho := Opened.of_probe hb.seen hid hbase hmemo hunset ht
        obtain ⟨d, hd⟩ : ∃ d, ((c.probe disk id).modify id fun e =>
            { e with freshness := .inProgress t }) = d := ⟨_, rfl⟩
        rw [hd] at ho
        have hout : (d.entry id).outputTime = (b.entry id).outputTime :=
          (ho.base.walked id hid).outputTime
        simp only [hd]
        rw [hout, ho.files hid]
        by_cases hnever : (!ignore && !(b.entry id).outputTime.isSet) = true
        · rw [if_pos hnever]
          exact ⟨.unresolvable, _, rfl, ho.unwritten hid hunset (.inr (by simpa using hnever))⟩
        · rw [if_neg hnever]
          have hnb : ¬ b.Broken disk ignore id := by
            rintro (h | ⟨h₁, h₂⟩)
            · rw [ht] at h
              exact absurd h (by simp)
            · rw [h₁, h₂] at hnever
              exact hnever rfl
          obtain ⟨r, c₃, hnew, hn⟩ := newest_walk hb (fun file c =>
              freshnessWithin disk dir ignore depth (c.get dir file).1 (c.get dir file).2)
            hid (n := depth) (by
              intro name j c' hj himp hbase' hmemo' hstack' hcard'
              have hget : c'.get dir name = (j, c') :=
                get_of_find? (hbase'.find? hb.distinct hj)
              obtain ⟨f, c'', hrun, hwalk⟩ := ih j c' himp.lt_length hbase' hmemo'
                (fun z s hz => (hstack' z s hz).trans himp.reaches) hcard'
              refine ⟨f, c'', ?_, hwalk⟩
              simp only [hget]
              exact hrun) _ t d (fun _ h => h) ho.base ho.memo (fun _ _ hz => ho.reaches hstack hz)
            (ho.card_lt hid hunset hcard)
          rw [hnew]
          cases r with
          | none => exact ⟨.unresolvable, _, rfl, ho.stuck hid hunset hn⟩
          | some v => exact ⟨.at v, _, rfl, ho.ended hid hunset hstack ht hnb hn⟩

/-! ## Passes -/

/-- The cache between two walks of a pass over the base: no file is being worked out. -/
structure Marked (disk : Disk) (dir : String) (ignore : Bool) (b c : Cache) : Prop where
  base : OnBase disk b c
  memo : Memo disk dir ignore b c
  settled : ∀ i t, c.mark i ≠ .inProgress t

theorem mark_clearFreshness (c : Cache) (i : Nat) : c.clearFreshness.mark i = .unset := by
  unfold mark
  by_cases h : i < c.entries.length
  · unfold clearFreshness
    rw [entry_mapEntries _ h]
  · unfold entry
    rw [List.getElem?_eq_none (by simpa [clearFreshness] using h)]
    rfl

/-- A pass begins without marks. -/
theorem Marked.start (disk : Disk) (dir : String) (ignore : Bool) (c : Cache) :
    Marked disk dir ignore c.clearFreshness c.clearFreshness := by
  have hunset := mark_clearFreshness c
  refine ⟨OnBase.refl disk _, ⟨?_, ?_, ?_, ?_⟩, ?_⟩
  · intro i v hv
    rw [hunset i] at hv
    exact absurd hv (by simp [Freshness.time?])
  · intro i v hv
    rw [hunset i] at hv
    exact absurd hv (by simp [Freshness.time?])
  · intro i hi
    rw [hunset i] at hi
    exact absurd hi (by simp)
  · intro i v hi
    rw [hunset i] at hi
    exact absurd hi (by simp)
  · intro i t hi
    rw [hunset i] at hi
    exact absurd hi (by simp)

theorem freshness_walk (hb : b.Walkable disk dir) (hid : id < b.entries.length)
    (h : Marked disk dir ignore b c) :
    ∃ f c', c.freshness disk dir ignore id = (f, c') ∧ Walk disk dir ignore b c id f c' ∧
      Marked disk dir ignore b c' := by
  have hcard : (c.unmarked b.entries.length).card < c.entries.length + 2 := by
    have hle : (c.unmarked b.entries.length).card ≤ b.entries.length := by
      have hsub := Finset.card_le_card
        (Finset.filter_subset (fun i => c.mark i = .unset) (Finset.range b.entries.length))
      rw [Finset.card_range] at hsub
      exact hsub
    rw [h.base.length]
    omega
  obtain ⟨f, c', hrun, hwalk⟩ := freshnessWithin_walk hb (c.entries.length + 2) id c hid h.base
    h.memo (fun z t hz => absurd hz (h.settled z t)) hcard
  refine ⟨f, c', hrun, hwalk, hwalk.base, hwalk.memo, fun i t hi => ?_⟩
  by_cases hunset : c.mark i = .unset
  · exact hwalk.done i t hunset hi
  · exact h.settled i t (by rw [← hwalk.keep i hunset]; exact hi)

/-- The newest time of a file and all that it leads to, none of which is missing. -/
def IsNewest (disk : Disk) (dir : String) (b : Cache) (i v : Nat) : Prop :=
  (∃ j, b.Reaches disk dir i j ∧ b.timeOf disk j = some v) ∧
    ∀ j, b.Reaches disk dir i j → ∃ t, b.timeOf disk j = some t ∧ t ≤ v

theorem IsNewest.unique {v w : Nat} (hv : b.IsNewest disk dir i v) (hw : b.IsNewest disk dir i w) :
    v = w := by
  obtain ⟨⟨j, hj, htj⟩, hallv⟩ := hv
  obtain ⟨⟨k, hk, htk⟩, hallw⟩ := hw
  obtain ⟨t, ht, hle⟩ := hallv k hk
  obtain ⟨u, hu, hle'⟩ := hallw j hj
  rw [htk] at ht
  rw [htj] at hu
  have h₁ : w ≤ v := by rw [Option.some.inj ht]; exact hle
  have h₂ : v ≤ w := by rw [Option.some.inj hu]; exact hle'
  omega

/-- Where no circle is reached, a mark with a time holds for everything that is reached. -/
theorem Marked.of_mark_at (h : Marked disk dir ignore b c) (hcirc : b.Uncircled disk dir i)
    {v : Nat} (hv : c.mark i = .at v) (hij : b.Reaches disk dir i j) :
    ¬ b.Broken disk ignore j ∧ ∃ w, c.mark j = .at w ∧ w ≤ v := by
  induction hij with
  | refl => exact ⟨(h.memo.whole i v hv hcirc).1, v, hv, Nat.le_refl v⟩
  | @tail j k hij hjk ih =>
    obtain ⟨-, w, hw, hle⟩ := ih
    obtain ⟨u, hu, hle'⟩ := (h.memo.whole j w hw (hcirc.of_reaches hij)).2 k hjk
    have hcirck := hcirc.of_reaches (hij.tail hjk)
    exact ⟨(h.memo.whole k u hu hcirck).1, u, hu, Nat.le_trans hle' hle⟩

/-- Where no circle is reached, a mark with a time is the newest time. -/
theorem Marked.isNewest (h : Marked disk dir ignore b c) (hcirc : b.Uncircled disk dir i)
    {v : Nat} (hv : c.mark i = .at v) : b.IsNewest disk dir i v := by
  refine ⟨h.memo.sound i v (by rw [hv]; rfl), fun j hj => ?_⟩
  obtain ⟨-, w, hw, hle⟩ := h.of_mark_at hcirc hv hj
  obtain ⟨t, ht, hle'⟩ := h.memo.own j w (by rw [hw]; rfl)
  exact ⟨t, ht, Nat.le_trans hle' hle⟩

/-- A file that was visited gets a time unless something broken is reached. -/
theorem Marked.at_of_unbroken (h : Marked disk dir ignore b c) (hset : c.mark i ≠ .unset)
    (hsound : ∀ j, b.Reaches disk dir i j → ¬ b.Broken disk ignore j) : ∃ v, c.mark i = .at v := by
  cases hm : c.mark i with
  | unset => exact absurd hm hset
  | inProgress t => exact absurd hm (h.settled i t)
  | unresolvable =>
    obtain ⟨j, hj, hbroken⟩ := h.memo.broken i hm
    exact absurd hbroken (hsound j hj)
  | «at» v => exact ⟨v, rfl⟩

/-! ## Stamps that cover their imports -/

/-- The output of a file covers it: everything that it leads to was written, and is not newer than
the stamp of the file. -/
def Covered (disk : Disk) (dir : String) (c : Cache) (i : Nat) : Prop :=
  ∃ T, (c.entry i).outputTime = .at T ∧ ∀ j, c.Reaches disk dir i j →
    (∃ t, c.timeOf disk j = some t ∧ t ≤ T) ∧ (c.entry j).outputTime.isSet = true

/-- The entry in a pass is current, as the marks have it. -/
theorem Marked.isOutputCurrent_iff (h : Marked disk dir ignore b c) (hi : i < b.entries.length) :
    (c.entry i).isOutputCurrent = true
      ↔ ∃ v T, c.mark i = .at v ∧ (b.entry i).outputTime = .at T ∧ v ≤ T := by
  have hout : (c.entry i).outputTime = (b.entry i).outputTime := (h.base.walked i hi).outputTime
  have hmark : (c.entry i).freshness = c.mark i := rfl
  unfold Entry.isOutputCurrent
  rw [hout, hmark]
  cases hm : c.mark i with
  | unset => simp [Freshness.time?]
  | unresolvable => simp [Freshness.time?]
  | inProgress t => exact absurd hm (h.settled i t)
  | «at» v =>
    cases ho : (b.entry i).outputTime with
    | unset => simp [Freshness.time?, Stamp.time?]
    | missing => simp [Freshness.time?, Stamp.time?]
    | «at» T => simp [Freshness.time?, Stamp.time?]

/-- A covered file is found current by every pass that comes to it. -/
theorem Marked.isOutputCurrent_of_covered (h : Marked disk dir ignore b c)
    (hi : i < b.entries.length) (hset : c.mark i ≠ .unset) (hcov : b.Covered disk dir i) :
    (c.entry i).isOutputCurrent = true := by
  obtain ⟨T, hT, hall⟩ := hcov
  obtain ⟨v, hv⟩ := h.at_of_unbroken hset (by
    rintro j hj (hmissing | ⟨-, hnever⟩)
    · obtain ⟨⟨t, ht, -⟩, -⟩ := hall j hj
      rw [ht] at hmissing
      exact absurd hmissing (by simp)
    · rw [(hall j hj).2] at hnever
      exact absurd hnever (by simp))
  obtain ⟨j, hj, htj⟩ := h.memo.sound i v (by rw [hv]; rfl)
  obtain ⟨⟨t, ht, hle⟩, -⟩ := hall j hj
  rw [htj] at ht
  exact (h.isOutputCurrent_iff hi).mpr ⟨v, T, hv, hT, by rw [Option.some.inj ht]; exact hle⟩

/-- Where no circle is reached, a file is found current only if it is covered. -/
theorem Marked.covered_of_isOutputCurrent (h : Marked disk dir false b c)
    (hi : i < b.entries.length) (hcirc : b.Uncircled disk dir i)
    (hcur : (c.entry i).isOutputCurrent = true) : b.Covered disk dir i := by
  obtain ⟨v, T, hv, hT, hle⟩ := (h.isOutputCurrent_iff hi).mp hcur
  refine ⟨T, hT, fun j hj => ?_⟩
  obtain ⟨t, ht, hle'⟩ := (h.isNewest hcirc hv).2 j hj
  refine ⟨⟨t, ht, Nat.le_trans hle' hle⟩, ?_⟩
  have hnb := (h.of_mark_at hcirc hv hj).1
  by_contra hne
  exact hnb (.inr ⟨rfl, by simpa using hne⟩)

end Cache

end Bundler

/-
What the first walk of a freshness pass finds out.

The walk answers about the file that it starts from. Below that file, marks may be provisional: a circle
of imports ends at a file that is still being worked out, and what is worked out inside of the circle has
seen the time of that file only, not what else it leads to. At the start there is no such file, and so
the answer there is exact on every graph (`Cache.freshness_clearFreshness`): the newest of the times of
all files that are met, or none if a file is met at which a pass stops.

Nothing is asked of the cache. It may hold times that are not those of the disk any more, since a file
that was looked at is not looked at again; it may know nothing of a file that is imported, which then
gets an entry on the way. So the graph is that of the cache as the walk leaves it, and it is a fixed one
all the same, since a walk changes neither what it has found out about a file nor where a name leads to
(`Cache.Meets.mono`).

Two facts are carried through the walk. A mark is accounted for (`Cache.Accounted`): a time in it is that
of a file that is met from there, and if there is none, then a pass stops at a file that is met from
there. And if a visit comes back with a time, then every file that it has marked is within that time, and
so is all that is followed from it marked (`Cache.Within`). The files that are marked by the first walk
are therefore closed under following, and none of them is newer than the answer.
-/
import Bundler.Proofs.Freshness

set_option autoImplicit false

namespace Bundler

/-! ## What a pass takes from an entry -/

namespace Entry

variable {disk : Disk} {ignore : Bool} {e e' : Entry}

/-- The time that a pass takes for a file: the one that it was seen with, or else the one it has. -/
def passTime (disk : Disk) (e : Entry) : Option Nat := (e.looked disk).current.time?

/-- A pass stops at a file that does not exist or, where that counts, was never written. -/
def Stops (disk : Disk) (ignore : Bool) (e : Entry) : Prop :=
  e.passTime disk = none ∨ (ignore = false ∧ e.outputTime.isSet = false)

instance : Decidable (Stops disk ignore e) := inferInstanceAs (Decidable (_ ∨ _))

/-- The files that a pass goes on to, namely those of the current references, unless it stops. -/
def followed (disk : Disk) (ignore : Bool) (e : Entry) : List String :=
  if e.Stops disk ignore then [] else ((e.looked disk).references?.map References.files).getD []

/-- A walk does not change what there is to be seen of a file. -/
theorem Walked.current_looked (h : Walked disk e e') :
    (e'.looked disk).current = (e.looked disk).current := by
  rcases h.current with hsame | ⟨hunset, hset⟩
  · by_cases hcur : e.current.isSet = true
    · rw [looked_of_isSet hcur, looked_of_isSet (hsame ▸ hcur), hsame]
    · unfold Entry.looked
      rw [hsame, if_neg hcur, if_neg hcur, h.fullName]
  · have hisSet : e'.current.isSet = true := by
      rw [hset]
      exact Disk.stamp_isSet disk _
    rw [looked_of_isSet hisSet, looked_of_unset hunset, hset]

theorem Walked.passTime (h : Walked disk e e') : e'.passTime disk = e.passTime disk := by
  unfold Entry.passTime
  rw [h.current_looked]

theorem Walked.stops (h : Walked disk e e') : e'.Stops disk ignore ↔ e.Stops disk ignore := by
  unfold Stops
  rw [h.passTime, h.outputTime]

theorem Walked.followed (h : Walked disk e e') : e'.followed disk ignore = e.followed disk ignore := by
  have hlooked : ∀ e : Entry, (e.looked disk).infoTime = e.infoTime ∧
      (e.looked disk).references = e.references := by
    intro e
    exact ⟨(Walked.looked disk e).infoTime, (Walked.looked disk e).references⟩
  unfold Entry.followed
  rw [if_congr h.stops rfl rfl, references?_congr h.current_looked
    (by rw [(hlooked e').1, (hlooked e).1, h.infoTime])
    (by rw [(hlooked e').2, (hlooked e).2, h.references])]

/-- Nothing is followed from a file of which nothing was read. -/
theorem followed_blank (disk : Disk) (ignore : Bool) (fullName key : String) :
    (blank fullName key).followed disk ignore = [] := by
  unfold Entry.followed
  split
  · rfl
  · have hnone : ((blank fullName key).looked disk).references = none :=
      (Walked.looked disk _).references
    unfold references?
    rw [hnone]
    split <;> rfl

end Entry

namespace Cache

variable {disk : Disk} {dir : String} {ignore : Bool} {c c' c'' d : Cache} {i j id : Nat}

/-! ## The graph of a pass -/

/-- A pass goes on from one entry to another. -/
def Follows (disk : Disk) (dir : String) (ignore : Bool) (c : Cache) (i j : Nat) : Prop :=
  i < c.entries.length ∧ ∃ name ∈ (c.entry i).followed disk ignore, c.find? dir name = some j

/-- A pass that starts at one entry meets another, by files at which it does not stop. -/
def Meets (disk : Disk) (dir : String) (ignore : Bool) (c : Cache) : Nat → Nat → Prop :=
  Relation.ReflTransGen (c.Follows disk dir ignore)

theorem Follows.mono (h : Advances dir (Entry.Walked disk) c c') (hij : c.Follows disk dir ignore i j) :
    c'.Follows disk dir ignore i j := by
  obtain ⟨hi, name, hname, hfind⟩ := hij
  refine ⟨Nat.lt_of_lt_of_le hi h.longer, name, ?_, h.find? hfind⟩
  rw [(h.old i hi).followed]
  exact hname

/-- What is met is met in every later cache. -/
theorem Meets.mono (h : Advances dir (Entry.Walked disk) c c') (hij : c.Meets disk dir ignore i j) :
    c'.Meets disk dir ignore i j := 
  Relation.ReflTransGen.mono (fun _ _ hstep => hstep.mono h) _ _ hij

theorem Meets.lt_length (h : c.Meets disk dir ignore i j) (hi : i < c.entries.length) :
    j < c.entries.length := by
  induction h with
  | refl => exact hi
  | tail _ hjk _ =>
    obtain ⟨-, name, -, hfind⟩ := hjk
    exact (find?_some hfind).1

/-- Entries that are new are followed nowhere. -/
theorem followed_new (h : Advances dir (Entry.Walked disk) c c') (hi : c.entries.length ≤ i)
    (hi' : i < c'.entries.length) : (c'.entry i).followed disk ignore = [] := by
  obtain ⟨name, hwalked⟩ := h.new i hi hi'
  rw [hwalked.followed, Entry.followed_blank]

/-! ## Marks -/

theorem mark_of_length_le (h : c.entries.length ≤ i) : c.mark i = .unset := by
  unfold mark entry
  rw [List.getElem?_eq_none h]
  rfl

theorem lt_length_of_mark (h : c.mark i ≠ .unset) : i < c.entries.length := by
  by_contra hout
  exact h (mark_of_length_le (by omega))

theorem mark_get (c : Cache) (dir name : String) (i : Nat) : (c.get dir name).2.mark i = c.mark i := by
  have h := Advances.get (P := fun e e' => e'.freshness = e.freshness) (fun _ => rfl) dir name c
  by_cases hi : i < c.entries.length
  · exact h.old i hi
  · rw [mark_of_length_le (c := c) (by omega)]
    by_cases hi' : i < (c.get dir name).2.entries.length
    · obtain ⟨name', hnew⟩ := h.new i (by omega) hi'
      exact hnew
    · exact mark_of_length_le (by omega)

/-- The cache with a mark at an entry. -/
def marked (c : Cache) (id : Nat) (f : Freshness) : Cache :=
  c.modify id fun e => { e with freshness := f }

theorem mark_marked_self (hid : id < c.entries.length) (f : Freshness) : (c.marked id f).mark id = f := by
  rw [marked, mark_modify f hid, if_pos rfl]

theorem mark_marked_ne (hid : id < c.entries.length) (f : Freshness) (hne : i ≠ id) :
    (c.marked id f).mark i = c.mark i := by
  rw [marked, mark_modify f hid, if_neg (Ne.symm hne)]

theorem advances_marked (dir : String) (disk : Disk) (c : Cache) (id : Nat) (f : Freshness) :
    Advances dir (Entry.Walked disk) c (c.marked id f) :=
  Advances.modify (Entry.Walked.refl disk) (fun _ => rfl) fun _ => Entry.Walked.marked disk _ f

theorem advances_probe (dir : String) (disk : Disk) (c : Cache) (id : Nat) :
    Advances dir (Entry.Walked disk) c (c.probe disk id) := by
  rw [probe_eq]
  exact Advances.modify (Entry.Walked.refl disk) (Entry.looked_key disk)
    fun _ => Entry.Walked.looked disk _

theorem Advances.walked_trans (h : Advances dir (Entry.Walked disk) c c')
    (h' : Advances dir (Entry.Walked disk) c' c'') : Advances dir (Entry.Walked disk) c c'' :=
  h.trans Entry.Walked.trans h'

/-- What a mark at an entry says: a time is that of a file that is met, and where there is none a pass
stops at a file that is met. -/
structure Accounts (disk : Disk) (dir : String) (ignore : Bool) (c : Cache) (i : Nat)
    (f : Freshness) : Prop where
  attained : ∀ v, f.time? = some v →
    ∃ j, c.Meets disk dir ignore i j ∧ (c.entry j).passTime disk = some v
  stuck : f = .unresolvable → ∃ j, c.Meets disk dir ignore i j ∧ (c.entry j).Stops disk ignore

/-- What the marks say is so. -/
def Accounted (disk : Disk) (dir : String) (ignore : Bool) (c : Cache) : Prop :=
  ∀ i, c.Accounts disk dir ignore i (c.mark i)

theorem Accounts.unset : c.Accounts disk dir ignore i .unset :=
  ⟨fun v hv => absurd hv (by simp [Freshness.time?]), fun h => absurd h (by simp)⟩

theorem Accounts.mono {f : Freshness} (hc : Advances dir (Entry.Walked disk) c c')
    (hi : i < c.entries.length) (h : c.Accounts disk dir ignore i f) :
    c'.Accounts disk dir ignore i f := by
  constructor
  · intro v hv
    obtain ⟨j, hij, hj⟩ := h.attained v hv
    refine ⟨j, hij.mono hc, ?_⟩
    rw [(hc.old j (hij.lt_length hi)).passTime]
    exact hj
  · intro hf
    obtain ⟨j, hij, hj⟩ := h.stuck hf
    exact ⟨j, hij.mono hc, (hc.old j (hij.lt_length hi)).stops.mpr hj⟩

/-- What the marks say stays so as long as each new mark is accounted for. -/
theorem Accounted.later (h : c.Accounted disk dir ignore)
    (hc : Advances dir (Entry.Walked disk) c c')
    (hmark : ∀ i, c'.mark i = c.mark i ∨ c'.Accounts disk dir ignore i (c'.mark i)) :
    c'.Accounted disk dir ignore := by
  intro i
  rcases hmark i with hsame | hnew
  · rw [hsame]
    by_cases hi : i < c.entries.length
    · exact (h i).mono hc hi
    · rw [mark_of_length_le (by omega)]
      exact Accounts.unset
  · exact hnew

theorem Accounted.marked (h : c.Accounted disk dir ignore) (hid : id < c.entries.length) {f : Freshness}
    (hf : c.Accounts disk dir ignore id f) : (c.marked id f).Accounted disk dir ignore := by
  have hc := advances_marked dir disk c id f
  refine h.later hc fun i => ?_
  by_cases hi : i = id
  · right
    rw [hi, mark_marked_self hid]
    exact hf.mono hc hid
  · left
    exact mark_marked_ne hid f hi

/-! ## Parts of a walk -/

/-- The files from which a walk can still go on to others. Each step down takes one of them away. -/
def ahead (disk : Disk) (ignore : Bool) (c : Cache) : Finset Nat :=
  (Finset.range c.entries.length).filter fun i =>
    c.mark i = .unset ∧ (c.entry i).followed disk ignore ≠ []

theorem card_ahead_le (disk : Disk) (ignore : Bool) (c : Cache) :
    (c.ahead disk ignore).card ≤ c.entries.length := by
  have hsub := Finset.card_filter_le (Finset.range c.entries.length) fun i =>
    c.mark i = .unset ∧ (c.entry i).followed disk ignore ≠ []
  rw [Finset.card_range] at hsub
  exact hsub

/-- A file whose time is known and within a time, with all that is followed from it marked. -/
structure Within (disk : Disk) (dir : String) (ignore : Bool) (c : Cache) (v i : Nat) : Prop where
  time : ∃ t, (c.entry i).passTime disk = some t ∧ t ≤ v
  goes : ¬ (c.entry i).Stops disk ignore
  marks : ∀ name ∈ (c.entry i).followed disk ignore,
    ∃ j, c.find? dir name = some j ∧ c.mark j ≠ .unset

/-- What each part of a walk does: marks are kept, and what it marks is not left in progress. -/
structure Passage (disk : Disk) (dir : String) (ignore : Bool) (c c' : Cache) : Prop where
  advances : Advances dir (Entry.Walked disk) c c'
  accounted : c'.Accounted disk dir ignore
  keep : ∀ i, c.mark i ≠ .unset → c'.mark i = c.mark i
  done : ∀ i t, c.mark i = .unset → c'.mark i ≠ .inProgress t

/-- All that was marked on the way is within a time. -/
def Filled (disk : Disk) (dir : String) (ignore : Bool) (c c' : Cache) (v : Nat) : Prop :=
  ∀ i, c.mark i = .unset → c'.mark i ≠ .unset → c'.Within disk dir ignore v i

/-- The visit of an entry, with its answer. -/
structure Visit (disk : Disk) (dir : String) (ignore : Bool) (c : Cache) (id : Nat) (f : Freshness)
    (c' : Cache) : Prop extends Passage disk dir ignore c c' where
  answer : c'.mark id = f
  set : f ≠ .unset
  filled : ∀ v, f.time? = some v → Filled disk dir ignore c c' v

/-- The visits of files one after the other, where `start` is the time to begin with. -/
structure Visits (disk : Disk) (dir : String) (ignore : Bool) (c : Cache) (files : List String)
    (start : Nat) (r : Option Nat) (c' : Cache) : Prop extends Passage disk dir ignore c c' where
  start_le : ∀ v, r = some v → start ≤ v
  attained : ∀ v, r = some v → v = start ∨
    ∃ name ∈ files, ∃ j, c'.find? dir name = some j ∧ (c'.mark j).time? = some v
  marks : ∀ v, r = some v → ∀ name ∈ files, ∃ j, c'.find? dir name = some j ∧ c'.mark j ≠ .unset
  filled : ∀ v, r = some v → Filled disk dir ignore c c' v
  stuck : r = none → ∃ name ∈ files, ∃ j, c'.find? dir name = some j ∧ c'.mark j = .unresolvable

theorem Within.mono {v w : Nat} (hc : Advances dir (Entry.Walked disk) c c')
    (hmark : ∀ j, c.mark j ≠ .unset → c'.mark j ≠ .unset) (hi : i < c.entries.length) (hvw : v ≤ w)
    (h : c.Within disk dir ignore v i) : c'.Within disk dir ignore w i where
  time := by
    obtain ⟨t, ht, hle⟩ := h.time
    rw [(hc.old i hi).passTime]
    exact ⟨t, ht, Nat.le_trans hle hvw⟩
  goes hstops := h.goes ((hc.old i hi).stops.mp hstops)
  marks name hname := by
    rw [(hc.old i hi).followed] at hname
    obtain ⟨j, hfind, hj⟩ := h.marks name hname
    exact ⟨j, hc.find? hfind, hmark j hj⟩

namespace Passage

theorem refl (h : c.Accounted disk dir ignore) : Passage disk dir ignore c c where
  advances := Advances.refl (Entry.Walked.refl disk) c
  accounted := h
  keep _ _ := rfl
  done i t hunset hprog := by
    rw [hunset] at hprog
    exact absurd hprog (by simp)

theorem set (h : Passage disk dir ignore c c') (hi : c.mark i ≠ .unset) : c'.mark i ≠ .unset := by
  rw [h.keep i hi]
  exact hi

theorem trans (h : Passage disk dir ignore c c') (h' : Passage disk dir ignore c' c'') :
    Passage disk dir ignore c c'' where
  advances := h.advances.walked_trans h'.advances
  accounted := h'.accounted
  keep i hi := by
    rw [h'.keep i (h.set hi), h.keep i hi]
  done i t hunset hprog := by
    by_cases hi : c'.mark i = .unset
    · exact h'.done i t hi hprog
    · rw [h'.keep i hi] at hprog
      exact h.done i t hunset hprog

/-- A name gets an entry. -/
theorem get (h : c.Accounted disk dir ignore) (name : String) :
    Passage disk dir ignore c (c.get dir name).2 where
  advances := Advances.get (Entry.Walked.refl disk) dir name c
  accounted := h.later (Advances.get (Entry.Walked.refl disk) dir name c) fun i =>
    .inl (mark_get c dir name i)
  keep i _ := mark_get c dir name i
  done i t hunset hprog := by
    rw [mark_get, hunset] at hprog
    exact absurd hprog (by simp)

/-- What is ahead of a walk afterwards was ahead of it before. -/
theorem ahead_subset (h : Passage disk dir ignore c c') : c'.ahead disk ignore ⊆ c.ahead disk ignore := by
  intro i hi
  obtain ⟨hlt, hunset, hfollowed⟩ : i < c'.entries.length ∧ c'.mark i = .unset ∧
      (c'.entry i).followed disk ignore ≠ [] := by simpa [ahead] using hi
  have hold : i < c.entries.length := by
    by_contra hnew
    exact hfollowed (followed_new h.advances (by omega) hlt)
  have hunset' : c.mark i = .unset := by
    by_contra hset
    exact h.set hset hunset
  rw [(h.advances.old i hold).followed] at hfollowed
  simpa [ahead] using ⟨hold, hunset', hfollowed⟩

theorem filled_trans {v w : Nat} (h : Filled disk dir ignore c c' v)
    (hp : Passage disk dir ignore c' c'') (h' : Filled disk dir ignore c' c'' w) (hvw : v ≤ w) :
    Filled disk dir ignore c c'' w := by
  intro i hunset hset
  by_cases hi : c'.mark i = .unset
  · exact h' i hi hset
  · exact (h i hunset hi).mono hp.advances (fun _ hj => hp.set hj) (lt_length_of_mark hi) hvw

end Passage

/-! ## The visits of the files that are followed -/

theorem Visits.nil (h : c.Accounted disk dir ignore) (start : Nat) :
    Visits disk dir ignore c [] start (some start) c where
  toPassage := Passage.refl h
  start_le v hv := Nat.le_of_eq (Option.some.inj hv)
  attained v hv := .inl (Option.some.inj hv).symm
  marks v _ name hname := absurd hname List.not_mem_nil
  filled _ _ _ hunset hset := absurd hunset hset
  stuck h := absurd h (by simp)

/-- A file without a time ends the visits. -/
theorem Visits.stop {name : String} {files : List String} {start : Nat} {f : Freshness}
    (hfirst : Passage disk dir ignore c d) (hfind : d.find? dir name = some id)
    (hv : Visit disk dir ignore d id f c') (hf : f.time? = none) :
    Visits disk dir ignore c (name :: files) start none c' where
  toPassage := hfirst.trans hv.toPassage
  start_le _ h := absurd h (by simp)
  attained _ h := absurd h (by simp)
  marks _ h := absurd h (by simp)
  filled _ h := absurd h (by simp)
  stuck _ := by
    refine ⟨name, List.mem_cons_self, id, hv.advances.find? hfind, ?_⟩
    rw [hv.answer]
    by_contra hne
    obtain ⟨v, hv'⟩ := time?_of_ne_unresolvable hv.set hne
    rw [hf] at hv'
    exact absurd hv' (by simp)

/-- A file with a time is followed by the other visits, which begin with the newer of the times. -/
theorem Visits.cons {name : String} {files : List String} {start t : Nat} {f : Freshness}
    {r : Option Nat} (hfirst : Passage disk dir ignore c d) (hsame : ∀ i, d.mark i = c.mark i)
    (hfind : d.find? dir name = some id) (hv : Visit disk dir ignore d id f c')
    (hf : f.time? = some t) (hrest : Visits disk dir ignore c' files (max start t) r c'') :
    Visits disk dir ignore c (name :: files) start r c'' where
  toPassage := (hfirst.trans hv.toPassage).trans hrest.toPassage
  start_le v hr := by
    have hle := hrest.start_le v hr
    omega
  attained v hr := by
    have hset : c'.mark id ≠ .unset := by
      rw [hv.answer]
      exact hv.set
    rcases hrest.attained v hr with hmax | ⟨name', hname', hj⟩
    · by_cases hlt : t ≤ start
      · left
        omega
      · -- the time is that of the file, whose mark is kept
        right
        refine ⟨name, List.mem_cons_self, id, hrest.advances.find? (hv.advances.find? hfind), ?_⟩
        rw [hrest.keep id hset, hv.answer, hf, hmax, Nat.max_eq_right (by omega)]
    · exact .inr ⟨name', List.mem_cons_of_mem _ hname', hj⟩
  marks v hr name' hname' := by
    rcases List.mem_cons.mp hname' with rfl | hname'
    · refine ⟨id, hrest.advances.find? (hv.advances.find? hfind), hrest.set ?_⟩
      rw [hv.answer]
      exact hv.set
    · exact hrest.marks v hr name' hname'
  filled v hr := by
    have hle := hrest.start_le v hr
    have hfilled := Passage.filled_trans (hv.filled t hf) hrest.toPassage (hrest.filled v hr) (by omega)
    intro i hunset
    rw [← hsame i] at hunset
    exact hfilled i hunset
  stuck hr := by
    obtain ⟨name', hname', hj⟩ := hrest.stuck hr
    exact ⟨name', List.mem_cons_of_mem _ hname', hj⟩

/-- The visits of some files, given the visit of each. The depths at which they are made are those with
`P`; the visits do not depend on which of them it is. -/
theorem exists_visits (visit : Nat → String → Cache → Freshness × Cache) {P : Nat → Prop} {k : Nat} :
    ∀ (files : List String) (start : Nat) (c : Cache), c.Accounted disk dir ignore →
      (files ≠ [] → (c.ahead disk ignore).card ≤ k) →
      (∀ name ∈ files, ∀ c : Cache, c.Accounted disk dir ignore → (c.ahead disk ignore).card ≤ k →
        ∃ f c', (∀ depth, P depth → visit depth name c = (f, c')) ∧
          Visit disk dir ignore (c.get dir name).2 (c.get dir name).1 f c') →
      ∃ r c', (∀ depth, P depth → newest (visit depth) start files c = (r, c')) ∧
        Visits disk dir ignore c files start r c' := by
  intro files
  induction files with
  | nil => exact fun start c h _ _ => ⟨some start, c, fun _ _ => rfl, Visits.nil h start⟩
  | cons name files ih =>
    intro start c h hcard hvisit
    have hcard' := hcard (List.cons_ne_nil name files)
    obtain ⟨f, d, hrun, hv⟩ := hvisit name List.mem_cons_self c h hcard'
    have hget := Passage.get h name
    have hfind := find?_get c dir name
    cases hf : f.time? with
    | none =>
      refine ⟨none, d, fun depth hdepth => ?_, Visits.stop hget hfind hv hf⟩
      unfold newest
      simp only [hrun depth hdepth, hf]
    | some t =>
      have hless := Finset.card_le_card (hget.trans hv.toPassage).ahead_subset
      obtain ⟨r, c', hrest, hvs⟩ := ih (max start t) d hv.accounted (fun _ => hless.trans hcard')
        fun name' hname' => hvisit name' (List.mem_cons_of_mem _ hname')
      refine ⟨r, c', fun depth hdepth => ?_,
        Visits.cons hget (mark_get c dir name) hfind hv hf hvs⟩
      unfold newest
      simp only [hrun depth hdepth, hf]
      exact hrest depth hdepth

/-! ## How the visit of an entry ends -/

theorem passTime_probe (disk : Disk) (hid : id < c.entries.length) :
    ((c.probe disk id).entry id).current.time? = (c.entry id).passTime disk := by
  rw [probe_eq, entry_modify_self _ hid]
  rfl

section Ends

variable {depth t : Nat}

theorem freshnessWithin_known (hset : c.mark id ≠ .unset) :
    freshnessWithin disk dir ignore (depth + 1) id c = (c.mark id, c) := by
  have hne : ((c.entry id).freshness != .unset) = true := by simpa [mark] using hset
  unfold freshnessWithin
  simp only [hne, if_true]
  rfl

theorem freshnessWithin_missing (hid : id < c.entries.length) (hunset : c.mark id = .unset)
    (ht : (c.entry id).passTime disk = none) :
    freshnessWithin disk dir ignore (depth + 1) id c
      = (.unresolvable, (c.probe disk id).marked id .unresolvable) := by
  have heq : ((c.entry id).freshness != .unset) = false := by simpa [mark] using hunset
  unfold freshnessWithin
  simp only [heq, Bool.false_eq_true, if_false, passTime_probe disk hid, ht]
  rfl

/-- The entry while it is visited, apart from what was seen of its file. -/
private theorem entry_begun (hid : id < c.entries.length) (f : Freshness) :
    ((c.probe disk id).marked id f).entry id = { (c.entry id).looked disk with freshness := f } := by
  have hid' : id < (c.probe disk id).entries.length := by
    rw [probe_eq, length_modify]
    exact hid
  rw [marked, entry_modify_self _ hid', probe_eq, entry_modify_self _ hid]

theorem freshnessWithin_unwritten (hid : id < c.entries.length) (hunset : c.mark id = .unset)
    (ht : (c.entry id).passTime disk = some t) (hstops : (c.entry id).Stops disk ignore) :
    freshnessWithin disk dir ignore (depth + 1) id c
      = (.unresolvable, ((c.probe disk id).marked id (.inProgress t)).marked id .unresolvable) := by
  have heq : ((c.entry id).freshness != .unset) = false := by simpa [mark] using hunset
  have hentry : ((c.probe disk id).settle id (.inProgress t)).2.entry id
      = { (c.entry id).looked disk with freshness := .inProgress t } := entry_begun hid (.inProgress t)
  have hnever : (!ignore && !((c.entry id).looked disk).outputTime.isSet) = true := by
    rw [(Entry.Walked.looked disk (c.entry id)).outputTime]
    rcases hstops with hnone | ⟨hignore, hout⟩
    · rw [ht] at hnone
      exact absurd hnone (by simp)
    · simp [hignore, hout]
  unfold freshnessWithin
  simp only [heq, Bool.false_eq_true, if_false, passTime_probe disk hid, ht, hentry, hnever,
    if_true]
  rfl

/-- Where a pass does not stop, it visits what is followed from the entry. -/
theorem freshnessWithin_goes (hid : id < c.entries.length) (hunset : c.mark id = .unset)
    (ht : (c.entry id).passTime disk = some t) (hgoes : ¬ (c.entry id).Stops disk ignore)
    {r : Option Nat} (hrun : newest (fun name c =>
        freshnessWithin disk dir ignore depth (c.get dir name).1 (c.get dir name).2) t
      ((c.entry id).followed disk ignore) ((c.probe disk id).marked id (.inProgress t)) = (r, c')) :
    freshnessWithin disk dir ignore (depth + 1) id c
      = match r with
        | some v => (.at v, c'.marked id (.at v))
        | none => (.unresolvable, c'.marked id .unresolvable) := by
  have heq : ((c.entry id).freshness != .unset) = false := by simpa [mark] using hunset
  have hentry : ((c.probe disk id).settle id (.inProgress t)).2.entry id
      = { (c.entry id).looked disk with freshness := .inProgress t } := entry_begun hid (.inProgress t)
  have hnever : (!ignore && !((c.entry id).looked disk).outputTime.isSet) = false := by
    rw [Bool.eq_false_iff, (Entry.Walked.looked disk (c.entry id)).outputTime]
    intro hnever
    exact hgoes (.inr (by simpa using hnever))
  have hfiles : (Option.map References.files
      ({ (c.entry id).looked disk with freshness := .inProgress t } : Entry).references?).getD []
        = (c.entry id).followed disk ignore := by
    rw [Entry.followed, if_neg hgoes]
    rfl
  rw [freshnessWithin]
  simp only [heq, Bool.false_eq_true, if_false, passTime_probe disk hid, ht, hentry, hnever, hfiles]
  unfold marked at hrun
  unfold settle
  simp only [hrun]
  cases r <;> rfl

end Ends

/-! ## The visit of an entry -/

/-- The visit of an entry that has a mark. -/
theorem Visit.known (h : c.Accounted disk dir ignore) (hset : c.mark id ≠ .unset) :
    Visit disk dir ignore c id (c.mark id) c where
  toPassage := Passage.refl h
  answer := rfl
  set := hset
  filled _ _ _ hunset hset' := absurd hunset hset'

/-- The cache while the files that are followed from an entry are visited: the entry was looked at, and
it is marked with its own time. -/
structure Begun (disk : Disk) (dir : String) (ignore : Bool) (c : Cache) (id t : Nat) (d : Cache) :
    Prop where
  advances : Advances dir (Entry.Walked disk) c d
  accounted : d.Accounted disk dir ignore
  unset : c.mark id = .unset
  time : (c.entry id).passTime disk = some t
  mark_self : d.mark id = .inProgress t
  mark_ne : ∀ i, i ≠ id → d.mark i = c.mark i

theorem Begun.of_probe (h : c.Accounted disk dir ignore) (hid : id < c.entries.length)
    (hunset : c.mark id = .unset) {t : Nat} (ht : (c.entry id).passTime disk = some t) :
    Begun disk dir ignore c id t ((c.probe disk id).marked id (.inProgress t)) := by
  have hprobe := advances_probe dir disk c id
  have hid' : id < (c.probe disk id).entries.length := Nat.lt_of_lt_of_le hid hprobe.longer
  have hlooked := h.later hprobe fun i => .inl (mark_probe disk c id i)
  refine ⟨hprobe.walked_trans (advances_marked dir disk _ id _), hlooked.marked hid' ?_,
    hunset, ht, mark_marked_self hid' _, fun i hi => ?_⟩
  · refine ⟨fun v hv => ⟨id, .refl, ?_⟩, fun h => absurd h (by simp)⟩
    rw [(hprobe.old id hid).passTime, ht]
    exact hv
  · rw [mark_marked_ne hid' _ hi, mark_probe]

/-- An entry that has begun is not ahead any more. -/
theorem Begun.card_ahead_lt {t : Nat} (h : Begun disk dir ignore c id t d) (hid : id < c.entries.length)
    (hfollowed : (c.entry id).followed disk ignore ≠ []) :
    (d.ahead disk ignore).card < (c.ahead disk ignore).card := by
  apply Finset.card_lt_card
  rw [Finset.ssubset_iff_of_subset]
  · exact ⟨id, by simpa [ahead] using ⟨hid, h.unset, hfollowed⟩, by simp [ahead, h.mark_self]⟩
  · intro i hi
    obtain ⟨hlt, hunset, hne⟩ : i < d.entries.length ∧ d.mark i = .unset ∧
        (d.entry i).followed disk ignore ≠ [] := by simpa [ahead] using hi
    have hold : i < c.entries.length := by
      by_contra hnew
      exact hne (followed_new h.advances (by omega) hlt)
    have hi' : i ≠ id := by
      rintro rfl
      rw [h.mark_self] at hunset
      exact absurd hunset (by simp)
    rw [h.mark_ne i hi'] at hunset
    rw [(h.advances.old i hold).followed] at hne
    simpa [ahead] using ⟨hold, hunset, hne⟩

/-- An entry gets its last mark. -/
theorem Visit.close {f : Freshness} (hid : id < c.entries.length) (hunset : c.mark id = .unset)
    (hc : Advances dir (Entry.Walked disk) c d) (hd : d.Accounted disk dir ignore)
    (hkeep : ∀ i, i ≠ id → c.mark i ≠ .unset → d.mark i = c.mark i)
    (hdone : ∀ i t, i ≠ id → c.mark i = .unset → d.mark i ≠ .inProgress t)
    (hset : f ≠ .unset) (hfinal : ∀ t, f ≠ .inProgress t) (hf : d.Accounts disk dir ignore id f)
    (hfilled : ∀ v, f.time? = some v → (d.marked id f).Within disk dir ignore v id ∧
      ∀ i, i ≠ id → c.mark i = .unset → d.mark i ≠ .unset →
        (d.marked id f).Within disk dir ignore v i) :
    Visit disk dir ignore c id f (d.marked id f) := by
  have hid' : id < d.entries.length := Nat.lt_of_lt_of_le hid hc.longer
  refine ⟨⟨hc.walked_trans (advances_marked dir disk d id f), hd.marked hid' hf,
    fun i hi => ?_, fun i t hi => ?_⟩, mark_marked_self hid' f, hset, fun v hv i hi hi' => ?_⟩
  · have hne : i ≠ id := by
      rintro rfl
      exact hi hunset
    rw [mark_marked_ne hid' f hne]
    exact hkeep i hne hi
  · by_cases hne : i = id
    · rw [hne, mark_marked_self hid']
      exact hfinal t
    · rw [mark_marked_ne hid' f hne]
      exact hdone i t hne hi
  · by_cases hne : i = id
    · rw [hne]
      exact (hfilled v hv).1
    · rw [mark_marked_ne hid' f hne] at hi'
      exact (hfilled v hv).2 i hne hi hi'

/-- There is no file, or it was never written. -/
theorem Visit.stops (hid : id < c.entries.length) (hunset : c.mark id = .unset)
    (hc : Advances dir (Entry.Walked disk) c d) (hd : d.Accounted disk dir ignore)
    (hmark : ∀ i, i ≠ id → d.mark i = c.mark i) (hstops : (c.entry id).Stops disk ignore) :
    Visit disk dir ignore c id .unresolvable (d.marked id .unresolvable) := by
  refine Visit.close hid hunset hc hd (fun i hi _ => hmark i hi) (fun i t hi hi' hprog => ?_) (by simp)
    (by simp) ⟨fun v hv => absurd hv (by simp [Freshness.time?]), fun _ => ⟨id, .refl, ?_⟩⟩
    (fun v hv => absurd hv (by simp [Freshness.time?]))
  · rw [hmark i hi, hi'] at hprog
    exact absurd hprog (by simp)
  · exact (hc.old id hid).stops.mpr hstops

namespace Begun

variable {t start : Nat} {r : Option Nat} {files : List String}

theorem keep (h : Begun disk dir ignore c id t d) (hp : Passage disk dir ignore d c') (hi : i ≠ id)
    (hset : c.mark i ≠ .unset) : c'.mark i = c.mark i := by
  rw [← h.mark_ne i hi] at hset ⊢
  exact hp.keep i hset

theorem done (h : Begun disk dir ignore c id t d) (hp : Passage disk dir ignore d c') (hi : i ≠ id)
    (hunset : c.mark i = .unset) (s : Nat) : c'.mark i ≠ .inProgress s := by
  rw [← h.mark_ne i hi] at hunset
  exact hp.done i s hunset

/-- What is followed from the entry is followed to the end of its visits. -/
theorem follows (h : Begun disk dir ignore c id t d) (hid : id < c.entries.length)
    (hp : Passage disk dir ignore d c') {name : String}
    (hname : name ∈ (c.entry id).followed disk ignore) (hfind : c'.find? dir name = some j) :
    c'.Follows disk dir ignore id j := by
  have hc := h.advances.walked_trans hp.advances
  refine ⟨Nat.lt_of_lt_of_le hid hc.longer, name, ?_, hfind⟩
  rw [(hc.old id hid).followed]
  exact hname

/-- A file that is followed has no time. -/
theorem stuck (h : Begun disk dir ignore c id t d) (hid : id < c.entries.length)
    (hv : Visits disk dir ignore d ((c.entry id).followed disk ignore) t none c') :
    Visit disk dir ignore c id .unresolvable (c'.marked id .unresolvable) := by
  refine Visit.close hid h.unset (h.advances.walked_trans hv.advances) hv.accounted
    (fun i hi hset => h.keep hv.toPassage hi hset)
    (fun i s hi hunset => h.done hv.toPassage hi hunset s) (by simp) (by simp)
    ⟨fun v hv => absurd hv (by simp [Freshness.time?]), fun _ => ?_⟩
    (fun v hv => absurd hv (by simp [Freshness.time?]))
  obtain ⟨name, hname, j, hfind, hj⟩ := hv.stuck rfl
  obtain ⟨k, hjk, hk⟩ := (hv.accounted j).stuck hj
  exact ⟨k, .head (h.follows hid hv.toPassage hname hfind) hjk, hk⟩

/-- All files that are followed have a time. -/
theorem ended (h : Begun disk dir ignore c id t d) (hid : id < c.entries.length)
    (hgoes : ¬ (c.entry id).Stops disk ignore) {v : Nat}
    (hv : Visits disk dir ignore d ((c.entry id).followed disk ignore) t (some v) c') :
    Visit disk dir ignore c id (.at v) (c'.marked id (.at v)) := by
  have hc := h.advances.walked_trans hv.advances
  have hid' : id < c'.entries.length := Nat.lt_of_lt_of_le hid hc.longer
  have hwalked := hc.old id hid
  -- the last mark takes no mark away
  have hmark : ∀ j, c'.mark j ≠ .unset → (c'.marked id (.at v)).mark j ≠ .unset := by
    intro j hj
    by_cases hne : j = id
    · rw [hne, mark_marked_self hid']
      simp
    · rw [mark_marked_ne hid' _ hne]
      exact hj
  have hself : c'.Within disk dir ignore v id := by
    refine ⟨⟨t, ?_, hv.start_le v rfl⟩, ?_, ?_⟩
    · rw [hwalked.passTime, h.time]
    · rw [hwalked.stops]
      exact hgoes
    · rw [hwalked.followed]
      exact hv.marks v rfl
  have hlast := advances_marked dir disk c' id (.at v)
  refine Visit.close hid h.unset hc hv.accounted (fun i hi hset => h.keep hv.toPassage hi hset)
    (fun i s hi hunset => h.done hv.toPassage hi hunset s) (by simp) (by simp)
    ⟨fun w hw => ?_, fun hw => absurd hw (by simp)⟩ fun w hw => ?_
  · obtain rfl : v = w := Option.some.inj hw
    rcases hv.attained v rfl with rfl | ⟨name, hname, j, hfind, hj⟩
    · exact ⟨id, .refl, by rw [hwalked.passTime, h.time]⟩
    · obtain ⟨k, hjk, hk⟩ := (hv.accounted j).attained v hj
      exact ⟨k, .head (h.follows hid hv.toPassage hname hfind) hjk, hk⟩
  · obtain rfl : v = w := Option.some.inj hw
    refine ⟨hself.mono hlast hmark hid' (Nat.le_refl v), fun i hi hunset hset => ?_⟩
    rw [← h.mark_ne i hi] at hunset
    exact (hv.filled v rfl i hunset hset).mono hlast hmark (lt_length_of_mark hset) (Nat.le_refl v)

end Begun

/-- The walk from an entry ends, with the same answer at every depth above the number of files ahead.
The induction is on that number: the visit of an entry from which others are followed takes one file
away from it, and one from which nothing is followed goes down no further. -/
theorem exists_visit : ∀ (k id : Nat) (c : Cache), id < c.entries.length → c.Accounted disk dir ignore →
    (c.ahead disk ignore).card ≤ k →
    ∃ f c', (∀ depth, k < depth → freshnessWithin disk dir ignore depth id c = (f, c')) ∧
      Visit disk dir ignore c id f c' := by
  intro k
  induction k using Nat.strong_induction_on with
  | _ k ih =>
    intro id c hid h hcard
    have hsucc : ∀ depth, k < depth → ∃ n, depth = n + 1 ∧ k ≤ n := by
      intro depth hdepth
      exact ⟨depth - 1, by omega, by omega⟩
    by_cases hunset : c.mark id = .unset
    case neg =>
      refine ⟨c.mark id, c, fun depth hdepth => ?_, Visit.known h hunset⟩
      obtain ⟨n, rfl, -⟩ := hsucc depth hdepth
      exact freshnessWithin_known hunset
    case pos =>
      cases ht : (c.entry id).passTime disk with
      | none =>
        have hprobe := advances_probe dir disk c id
        have hmark := mark_probe disk c id
        refine ⟨.unresolvable, _, fun depth hdepth => ?_, Visit.stops hid hunset hprobe
          (h.later hprobe fun i => .inl (hmark i)) (fun i _ => hmark i) (.inl ht)⟩
        obtain ⟨n, rfl, -⟩ := hsucc depth hdepth
        exact freshnessWithin_missing hid hunset ht
      | some t =>
        have hbegun := Begun.of_probe h hid hunset ht
        by_cases hstops : (c.entry id).Stops disk ignore
        · refine ⟨.unresolvable, _, fun depth hdepth => ?_,
            Visit.stops hid hunset hbegun.advances hbegun.accounted hbegun.mark_ne hstops⟩
          obtain ⟨n, rfl, -⟩ := hsucc depth hdepth
          exact freshnessWithin_unwritten hid hunset ht hstops
        · -- where something is followed, the entry was ahead, and now it is not
          have hahead : (c.entry id).followed disk ignore ≠ [] → 0 < k ∧
              (((c.probe disk id).marked id (.inProgress t)).ahead disk ignore).card ≤ k - 1 := by
            intro hfollowed
            have hlt := hbegun.card_ahead_lt hid hfollowed
            omega
          obtain ⟨r, c', hrun, hv⟩ := exists_visits (P := fun n => k ≤ n) (k := k - 1)
            (fun n name c =>
              freshnessWithin disk dir ignore n (c.get dir name).1 (c.get dir name).2)
            ((c.entry id).followed disk ignore) t _ hbegun.accounted (fun hne => (hahead hne).2) (by
              intro name hname e he hcard'
              have hpos := (hahead (List.ne_nil_of_mem hname)).1
              have hget : Passage disk dir ignore e (e.get dir name).2 := Passage.get he name
              have hless := Finset.card_le_card hget.ahead_subset
              obtain ⟨f, e', hrun, hvisit⟩ := ih (k - 1) (by omega) (e.get dir name).1
                (e.get dir name).2 (find?_some (find?_get e dir name)).1 hget.accounted
                (hless.trans hcard')
              exact ⟨f, e', fun n hn => hrun n (by omega), hvisit⟩)
          cases r with
          | none =>
            refine ⟨.unresolvable, _, fun depth hdepth => ?_, hbegun.stuck hid hv⟩
            obtain ⟨n, rfl, hn⟩ := hsucc depth hdepth
            exact freshnessWithin_goes hid hunset ht hstops (hrun n hn)
          | some v =>
            refine ⟨.at v, _, fun depth hdepth => ?_, hbegun.ended hid hstops hv⟩
            obtain ⟨n, rfl, hn⟩ := hsucc depth hdepth
            exact freshnessWithin_goes hid hunset ht hstops (hrun n hn)

/-! ## The first walk of a pass -/

/-- A time is the newest of all that is met from an entry, where no pass stops at what is met and all
that is followed has an entry. -/
structure NewestMet (disk : Disk) (dir : String) (ignore : Bool) (c : Cache) (id v : Nat) : Prop where
  goes : ∀ j, c.Meets disk dir ignore id j → ¬ (c.entry j).Stops disk ignore
  known : ∀ j, c.Meets disk dir ignore id j → ∀ name ∈ (c.entry j).followed disk ignore,
    ∃ k, c.find? dir name = some k
  attained : ∃ j, c.Meets disk dir ignore id j ∧ (c.entry j).passTime disk = some v
  bound : ∀ j, c.Meets disk dir ignore id j → ∃ t, (c.entry j).passTime disk = some t ∧ t ≤ v

/-- Among the entries that were there, a walk does not change what is followed from what. -/
theorem follows_iff (h : Advances dir (Entry.Walked disk) c c') (hi : i < c.entries.length)
    (hj : j < c.entries.length) : c'.Follows disk dir ignore i j ↔ c.Follows disk dir ignore i j := by
  refine ⟨fun hij => ?_, fun hij => hij.mono h⟩
  obtain ⟨-, name, hname, hfind⟩ := hij
  rw [(h.old i hi).followed] at hname
  refine ⟨hi, name, hname, ?_⟩
  obtain ⟨more, hmore⟩ := h.keys
  have hlen : c.keys.length = c.entries.length := by simp [keys]
  rw [find?_eq_keys, ← hmore, List.findIdx?_append] at hfind
  rw [find?_eq_keys]
  cases hold : c.keys.findIdx? fun key => key == keyOf dir name with
  | some k =>
    rw [hold] at hfind
    exact hfind
  | none =>
    -- an entry that is found behind the others is a new one
    rw [hold, Option.none_or, Option.map_eq_some_iff] at hfind
    obtain ⟨k, -, hk⟩ := hfind
    omega

/-- Where a walk begins without marks and comes back with a time, the files with a mark are closed under
following. -/
theorem Visit.within_of_meets {f : Freshness} {v : Nat} (hv : Visit disk dir ignore c id f c')
    (hclear : ∀ i, c.mark i = .unset) (hf : f.time? = some v) (hij : c'.Meets disk dir ignore id j) :
    c'.mark j ≠ .unset ∧ c'.Within disk dir ignore v j := by
  have hwithin : ∀ i, c'.mark i ≠ .unset → c'.Within disk dir ignore v i := fun i =>
    hv.filled v hf i (hclear i)
  have hmarked : c'.mark j ≠ .unset := by
    induction hij with
    | refl =>
      rw [hv.answer]
      exact hv.set
    | @tail k l _ hkl ih =>
      obtain ⟨-, name, hname, hfind⟩ := hkl
      obtain ⟨l', hfind', hl⟩ := (hwithin k ih).marks name hname
      rw [hfind'] at hfind
      rw [← Option.some.inj hfind]
      exact hl
  exact ⟨hmarked, hwithin j hmarked⟩

theorem Visit.newestMet {v : Nat} (hv : Visit disk dir ignore c id (.at v) c')
    (hclear : ∀ i, c.mark i = .unset) : c'.NewestMet disk dir ignore id v where
  goes _ hij := (hv.within_of_meets hclear rfl hij).2.goes
  known _ hij name hname := by
    obtain ⟨k, hfind, -⟩ := (hv.within_of_meets hclear rfl hij).2.marks name hname
    exact ⟨k, hfind⟩
  attained := (hv.accounted id).attained v (by rw [hv.answer]; rfl)
  bound _ hij := (hv.within_of_meets hclear rfl hij).2.time

theorem accounted_clearFreshness (disk : Disk) (dir : String) (ignore : Bool) (c : Cache) :
    c.clearFreshness.Accounted disk dir ignore := by
  intro i
  rw [mark_clearFreshness]
  exact Accounts.unset

theorem advances_clearFreshness (disk : Disk) (dir : String) (c : Cache) :
    Advances dir (Entry.Walked disk) c c.clearFreshness :=
  Advances.mapEntries (fun _ => rfl) fun e => Entry.Walked.marked disk e .unset

/-- The first walk of a pass is exact, whatever the files import. It ends: at every depth above the
number of entries it comes to the same. Its answer is that there is no time if it meets a file at which a
pass stops, and else the newest of the times of all that it meets. No mark is left in progress, and of
the entries that were there only the marks have changed, and what was not looked at before. -/
theorem freshness_clearFreshness (disk : Disk) (dir : String) (ignore : Bool) (c : Cache) {id : Nat}
    (hid : id < c.entries.length) :
    ∃ f c', (∀ depth, c.entries.length < depth →
        freshnessWithin disk dir ignore depth id c.clearFreshness = (f, c')) ∧
      c.clearFreshness.freshness disk dir ignore id = (f, c') ∧
      ((∃ j, c'.Meets disk dir ignore id j ∧ (c'.entry j).Stops disk ignore) → f = .unresolvable) ∧
      ((∀ j, c'.Meets disk dir ignore id j → ¬ (c'.entry j).Stops disk ignore) →
        ∃ v, f = .at v ∧ c'.NewestMet disk dir ignore id v) ∧
      (∀ i t, (c'.entry i).freshness ≠ .inProgress t) ∧
      Advances dir (Entry.Walked disk) c c' := by
  have hclear := mark_clearFreshness c
  have hstart := advances_clearFreshness disk dir c
  have hlength : c.clearFreshness.entries.length = c.entries.length := by simp [clearFreshness]
  have hcard := card_ahead_le disk ignore c.clearFreshness
  rw [hlength] at hcard
  obtain ⟨f, c', hrun, hv⟩ := exists_visit c.entries.length id c.clearFreshness (by omega)
    (accounted_clearFreshness disk dir ignore c) hcard
  refine ⟨f, c', hrun, hrun _ (by omega), ?_, ?_, fun i t => hv.done i t (hclear i),
    hstart.walked_trans hv.advances⟩
  · rintro ⟨j, hij, hstops⟩
    by_contra hne
    obtain ⟨v, hf⟩ := time?_of_ne_unresolvable hv.set hne
    exact (hv.within_of_meets hclear hf hij).2.goes hstops
  · intro hgoes
    cases hf : f with
    | unset => exact absurd hf hv.set
    | inProgress t => exact absurd (hv.answer.trans hf) (hv.done id t (hclear id))
    | unresolvable =>
      obtain ⟨j, hij, hstops⟩ := (hv.accounted id).stuck (hv.answer.trans hf)
      exact absurd hstops (hgoes j hij)
    | «at» v =>
      subst hf
      exact ⟨v, rfl, hv.newestMet hclear⟩

/-- Two files that import each other, the first of which imports itself as well, both written. -/
def importCircle : Cache :=
  let a := Entry.blank "/p/a.ts" "/p/a.ts"
  let b := Entry.blank "/p/b.ts" "/p/b.ts"
  { entries :=
      [{ a with
          infoTime := .at 1, outputTime := .at 1
          references := some ⟨[("./a", "/p/a.ts"), ("./b", "/p/b.ts")], []⟩ },
        { b with
          infoTime := .at 2, outputTime := .at 2
          references := some ⟨[("./a", "/p/a.ts")], []⟩ }]
    reads := 0 }

/-- The files of the circle, the second of which is newer. -/
def circleDisk : Disk := (Disk.empty.write "/p/a.ts" []).write "/p/b.ts" []

/-- The newest time is found all around the circle. -/
theorem freshness_importCircle : 0 < importCircle.entries.length ∧
    ∃ c', importCircle.clearFreshness.freshness circleDisk "/p" false 0 = (.at 2, c') ∧
      c'.NewestMet circleDisk "/p" false 0 2 := by
  have hid : 0 < importCircle.entries.length := by decide
  have hvalue : (importCircle.clearFreshness.freshness circleDisk "/p" false 0).1 = .at 2 := by
    decide +kernel
  obtain ⟨f, c', -, hrun, hstuck, hgoes, -⟩ :=
    freshness_clearFreshness circleDisk "/p" false importCircle hid
  replace hvalue : f = .at 2 := by
    rw [hrun] at hvalue
    exact hvalue
  obtain ⟨v, hv, hnewest⟩ := hgoes fun j hij hstops => by
    have hf := hstuck ⟨j, hij, hstops⟩
    rw [hvalue] at hf
    exact absurd hf (by simp)
  obtain rfl : v = 2 := Freshness.at.inj (hv.symm.trans hvalue)
  exact ⟨hid, c', by rw [hrun, hv], hnewest⟩

end Cache

end Bundler

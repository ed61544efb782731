/-
The two freshness passes of a cycle.

A cycle makes a pass over the entry files, to see which of them are stale, and if it builds, another
one over the program, to have the times that its files are stamped with. Both start without marks
and walk from one name to the next. A name that has an entry is walked from there, and the marks
that were set before stay (`Cache.Marked.walk`), so what the pass says about a name at its turn is
what it says when it is over. Hence the stale entry files are a filter of all entry files, by the
marks at the end of the pass.

An entry file without an entry was never met and so never written, and it is stale. So where no
entry file is stale, all of them have entries.

Neither pass reads a file or touches anything but the cache (`Session.refreshProgram_reads`,
`Session.staleMains_reads`).
-/
import Bundler.Proofs.Entries

set_option autoImplicit false

namespace Bundler

open Workspace Step

namespace Cache

variable {disk : Disk} {dir : String} {b c c' : Cache} {i id : Nat} {ignore : Bool} {name : String}

/-! ## Forgetting marks and looks -/

theorem entry_clearFreshness (h : i < c.entries.length) :
    c.clearFreshness.entry i = { c.entry i with freshness := .unset } := entry_mapEntries _ h

theorem entry_clearProbes (h : i < c.entries.length) :
    c.clearProbes.entry i = { c.entry i with current := .unset } := entry_mapEntries _ h

theorem entry_forceRebuild (h : i < c.entries.length) :
    c.forceRebuild.entry i = { c.entry i with infoTime := .unset, outputTime := .unset } :=
  entry_mapEntries _ h

@[simp] theorem length_clearFreshness :
    c.clearFreshness.entries.length = c.entries.length := length_mapEntries _

@[simp] theorem length_clearProbes : c.clearProbes.entries.length = c.entries.length :=
  length_mapEntries _

@[simp] theorem length_forceRebuild : c.forceRebuild.entries.length = c.entries.length :=
  length_mapEntries _

@[simp] theorem find?_clearFreshness : c.clearFreshness.find? dir name = c.find? dir name := by
  have hkeys : c.clearFreshness.keys = c.keys := keys_mapEntries fun _ => rfl
  rw [find?_eq_keys, hkeys, ← find?_eq_keys]

@[simp] theorem find?_clearProbes : c.clearProbes.find? dir name = c.find? dir name := by
  have hkeys : c.clearProbes.keys = c.keys := keys_mapEntries fun _ => rfl
  rw [find?_eq_keys, hkeys, ← find?_eq_keys]

/-- A pass can walk where one can walk with marks. -/
theorem Walkable.clearFreshness (h : c.Walkable disk dir) : c.clearFreshness.Walkable disk dir := by
  refine ⟨fun i j hi hj hkey => ?_, fun i hi refs hrefs file hfile => ?_, fun i hi => ?_⟩
  · rw [length_clearFreshness] at hi hj
    rw [entry_clearFreshness hi, entry_clearFreshness hj] at hkey
    exact h.distinct i j hi hj hkey
  · rw [length_clearFreshness] at hi
    rw [entry_clearFreshness hi] at hrefs
    rw [find?_clearFreshness]
    exact h.known i hi refs hrefs file hfile
  · rw [length_clearFreshness] at hi
    rw [entry_clearFreshness hi]
    exact h.seen i hi

/-- What a pass does to a cache is forgotten with the marks and the looks. -/
theorem OnBase.forget (h : OnBase disk b c) :
    c.clearProbes.clearFreshness.entries = b.clearProbes.clearFreshness.entries := by
  have hlen := h.length
  apply entries_ext (by simpa using hlen)
  intro i hi
  rw [length_clearFreshness, length_clearProbes] at hi
  have hb : i < b.entries.length := by omega
  rw [entry_clearFreshness (by simpa using hi), entry_clearFreshness (by simpa using hb),
    entry_clearProbes hi, entry_clearProbes hb, (h.walked i hb).same]

/-! ## One walk -/

/-- A walk from a name that has an entry sets its mark and leaves the marks that are set. -/
theorem Marked.walk (hb : b.Walkable disk dir) (h : Marked disk dir ignore b c)
    (hfind : b.find? dir name = some id) :
    ∃ c', c.get dir name = (id, c) ∧ (c.freshness disk dir ignore id).2 = c' ∧
      Marked disk dir ignore b c' ∧ c'.mark id ≠ .unset ∧
      ∀ i, c.mark i ≠ .unset → c'.mark i = c.mark i := by
  obtain ⟨f, c', hrun, hwalk, hmarked⟩ := freshness_walk hb (find?_some hfind).1 h
  refine ⟨c', get_of_find? (h.base.find? hb.distinct hfind), by rw [hrun], hmarked, ?_, hwalk.keep⟩
  rw [hwalk.answer]
  exact hwalk.set

/-- A mark is the time of a file, so none is later than the clock. -/
theorem Marked.le_clock (h : Marked disk dir ignore b c) (hd : disk.Dated) {v : Nat}
    (hv : (c.mark i).time? = some v) : v ≤ disk.clock := by
  obtain ⟨j, -, htime⟩ := h.memo.sound i v hv
  exact hd _ v htime

/-- Two caches of a pass with one mark agree on whether a file is current. -/
theorem Marked.isOutputCurrent_congr (h : Marked disk dir ignore b c)
    (h' : Marked disk dir ignore b c') (hi : i < b.entries.length) (hmark : c'.mark i = c.mark i) :
    (c'.entry i).isOutputCurrent = (c.entry i).isOutputCurrent := by
  have hout : (c'.entry i).outputTime = (c.entry i).outputTime :=
    (h'.base.walked i hi).outputTime.trans (h.base.walked i hi).outputTime.symm
  unfold mark at hmark
  unfold Entry.isOutputCurrent
  rw [hmark, hout]

end Cache

/-! ## What a pass leaves alone -/

/-- The law that no file is read and nothing but the cache changes. -/
def Workspace.unread : Law Workspace where
  moves w w' := w'.cache.reads = w.cache.reads ∧ { w with cache := w'.cache } = w'
  fails _ _ := True
  refl _ := ⟨rfl, rfl⟩
  trans {w w' w''} h h' := by
    refine ⟨h'.1.trans h.1, ?_⟩
    rw [← h'.2, ← h.2]
  back _ _ := trivial
  fault _ _ := trivial

theorem Workspace.walking_unread : Walking Workspace.unread where
  get w name := by
    refine ⟨?_, rfl⟩
    unfold Cache.get
    simp only
    split <;> rfl
  look w id := ⟨rfl, rfl⟩
  mark w id f := ⟨rfl, rfl⟩
  unmark w := ⟨rfl, rfl⟩

namespace Session

variable {w w' : Workspace} {mains program : List String}

/-- The pass over a program reads no file, and it changes nothing but the cache. -/
theorem refreshProgram_reads {u : Unit} (h : refreshProgram program w = .ok u w') :
    w'.cache.reads = w.cache.reads ∧ { w with cache := w'.cache } = w' :=
  (obeys_refreshProgram Workspace.walking_unread program).ok h

/-- Neither does the pass over entry files. -/
theorem staleMains_reads {force : Bool} {stale : List String}
    (h : staleMains force mains w = .ok stale w') :
    w'.cache.reads = w.cache.reads ∧ { w with cache := w'.cache } = w' :=
  (obeys_staleMains Workspace.walking_unread force mains).ok h

/-! ## The pass over a program -/

/-- The pass over a program whose files have entries marks all of them. -/
theorem refreshProgram_ok (hw : w.cache.Walkable w.disk w.project.dir)
    (hknown : ∀ file ∈ program, ∃ i, w.cache.find? w.project.dir file = some i) :
    ∃ c, refreshProgram program w = .ok () { w with cache := c } ∧
      Cache.Marked w.disk w.project.dir true w.cache.clearFreshness c ∧
      ∀ file ∈ program, ∀ i, w.cache.find? w.project.dir file = some i → c.mark i ≠ .unset := by
  have hb := hw.clearFreshness
  have hall : ∀ (files : List String) (c : Cache), (∀ file ∈ files, file ∈ program) →
      Cache.Marked w.disk w.project.dir true w.cache.clearFreshness c →
      ∃ c', files.forM (fun file => onCache fun disk dir c =>
            ((), ((c.get dir file).2.freshness disk dir true (c.get dir file).1).2))
            { w with cache := c } = .ok () { w with cache := c' } ∧
        Cache.Marked w.disk w.project.dir true w.cache.clearFreshness c' ∧
        (∀ i, c.mark i ≠ .unset → c'.mark i = c.mark i) ∧
        ∀ file ∈ files, ∀ i, w.cache.find? w.project.dir file = some i → c'.mark i ≠ .unset := by
    intro files
    induction files with
    | nil => exact fun c _ hc => ⟨c, rfl, hc, fun _ _ => rfl, by simp⟩
    | cons file files ih =>
      intro c hmem hc
      obtain ⟨id, hid⟩ := hknown file (hmem file List.mem_cons_self)
      obtain ⟨c₁, hget, hfresh, hc₁, hset, hkeep⟩ :=
        hc.walk hb (by rw [Cache.find?_clearFreshness]; exact hid)
      obtain ⟨c', hrun, hc', hkeep', hall⟩ :=
        ih c₁ (fun f hf => hmem f (List.mem_cons_of_mem _ hf)) hc₁
      refine ⟨c', ?_, hc', fun i hi => ?_, fun f hf i hi => ?_⟩
      · have hone : onCache (fun disk dir c =>
            ((), ((c.get dir file).2.freshness disk dir true (c.get dir file).1).2))
            { w with cache := c } = .ok () { w with cache := c₁ } := by
          refine (onCache_ok_iff _ _ _ _).mpr ⟨rfl, ?_⟩
          rw [hget, hfresh]
        exact (bind_of_ok hone).trans hrun
      · rw [hkeep' i (by rw [hkeep i hi]; exact hi), hkeep i hi]
      · rcases List.mem_cons.mp hf with rfl | hf
        · rw [hid] at hi
          obtain rfl := Option.some.inj hi
          rw [hkeep' id hset]
          exact hset
        · exact hall f hf i hi
  obtain ⟨c, hrun, hc, -, hset⟩ := hall program w.cache.clearFreshness (fun _ h => h)
    (Cache.Marked.start w.disk w.project.dir true w.cache)
  exact ⟨c, hrun, hc, hset⟩

/-! ## The pass over the entry files -/

/-- Whether the entry of a name is current, as the marks of a cache have it. -/
def isCurrent (dir : String) (c : Cache) (name : String) : Bool :=
  (c.find? dir name).any fun i => (c.entry i).isOutputCurrent

/-- Entry files one after the other in a pass, with those answered so far. The answer for each is read
off the marks at the end, because a mark that was set stays. The induction is on the entry files. -/
private theorem staleFrom_ok (hw : w.cache.Walkable w.disk w.project.dir)
    (hknown : ∀ main ∈ mains, ∃ i, w.cache.find? w.project.dir main = some i) :
    ∀ (ms acc : List String) (c : Cache), (∀ m ∈ ms, m ∈ mains) →
      Cache.Marked w.disk w.project.dir false w.cache.clearFreshness c →
      ∃ c', ms.filterAuxM (fun main => onCache fun disk dir c =>
            (c.get dir main).2.isStale disk dir false false (c.get dir main).1) acc
            { w with cache := c }
          = .ok ((ms.filter fun main => !isCurrent w.project.dir c' main).reverse ++ acc)
            { w with cache := c' } ∧
        Cache.Marked w.disk w.project.dir false w.cache.clearFreshness c' ∧
        (∀ i, c.mark i ≠ .unset → c'.mark i = c.mark i) ∧
        ∀ m ∈ ms, ∀ i, w.cache.find? w.project.dir m = some i → c'.mark i ≠ .unset := by
  have hb := hw.clearFreshness
  intro ms
  induction ms with
  | nil => exact fun acc c _ hc => ⟨c, rfl, hc, fun _ _ => rfl, by simp⟩
  | cons m ms ih =>
    intro acc c hmem hc
    obtain ⟨id, hid⟩ := hknown m (hmem m List.mem_cons_self)
    have hidb : w.cache.clearFreshness.find? w.project.dir m = some id := by
      rw [Cache.find?_clearFreshness]
      exact hid
    obtain ⟨c₁, hget, hfresh, hc₁, hset, hkeep⟩ := hc.walk hb hidb
    obtain ⟨stale, hstale⟩ : ∃ stale, (!(c₁.entry id).isOutputCurrent) = stale := ⟨_, rfl⟩
    obtain ⟨c', hrun, hc', hkeep', hall⟩ := ih (cond stale (m :: acc) acc) c₁
      (fun f hf => hmem f (List.mem_cons_of_mem _ hf)) hc₁
    refine ⟨c', ?_, hc', fun i hi => ?_, fun f hf i hi => ?_⟩
    · -- the answer at the turn of the name is the answer by the marks at the end
      have hcurrent : (!isCurrent w.project.dir c' m) = stale := by
        unfold isCurrent
        rw [hc'.base.find? hb.distinct hidb, Option.any_some, ← hstale,
          hc₁.isOutputCurrent_congr hc' (Cache.find?_some hidb).1 (hkeep' id hset)]
      rw [List.filterAuxM, bind_of_ok (t := { w with cache := c₁ }) (a := stale)]
      · rw [hrun, List.filter_cons, hcurrent]
        cases stale with
        | true => simp
        | false => simp
      · refine (onCache_ok_iff _ _ _ _).mpr ?_
        rw [hget]
        unfold Cache.isStale
        simp only [Bool.false_eq_true, if_false, hfresh]
        exact ⟨hstale, trivial⟩
    · rw [hkeep' i (by rw [hkeep i hi]; exact hi), hkeep i hi]
    · rcases List.mem_cons.mp hf with rfl | hf
      · rw [hid] at hi
        obtain rfl := Option.some.inj hi
        rw [hkeep' id hset]
        exact hset
      · exact hall f hf i hi

/-- The pass over entry files that have entries: it answers those that are not current by the marks
at its end. -/
theorem staleMains_ok (hw : w.cache.Walkable w.disk w.project.dir)
    (hknown : ∀ main ∈ mains, ∃ i, w.cache.find? w.project.dir main = some i) :
    ∃ c, staleMains false mains w
        = .ok (mains.filter fun main => !isCurrent w.project.dir c main) { w with cache := c } ∧
      Cache.Marked w.disk w.project.dir false w.cache.clearFreshness c ∧
      ∀ main ∈ mains, ∀ i, w.cache.find? w.project.dir main = some i → c.mark i ≠ .unset := by
  obtain ⟨c, hrun, hc, -, hset⟩ := staleFrom_ok hw hknown mains [] w.cache.clearFreshness
    (fun _ h => h) (Cache.Marked.start w.disk w.project.dir false w.cache)
  refine ⟨c, ?_, hc, hset⟩
  have hclear : onCache (fun _ _ c => ((), c.clearFreshness)) w
      = .ok () { w with cache := w.cache.clearFreshness } := rfl
  have hrest : mains.filterM (fun main => onCache fun disk dir c =>
        (c.get dir main).2.isStale disk dir false false (c.get dir main).1)
        { w with cache := w.cache.clearFreshness }
      = .ok (mains.filter fun main => !isCurrent w.project.dir c main) { w with cache := c } := by
    unfold List.filterM
    rw [bind_of_ok hrun, List.append_nil, List.reverse_reverse]
    rfl
  exact (bind_of_ok hclear).trans hrest

/-- What was collected so far stays among the answers. -/
private theorem suffix_of_filterAuxM {σ α : Type} {f : α → Step σ Bool} :
    ∀ {as acc out : List α} {s t : σ}, as.filterAuxM f acc s = .ok out t → acc <:+ out
  | [], acc, out, s, t, h => by
    obtain ⟨rfl, -⟩ := (pure_ok_iff _ _ _ _).mp h
    exact List.suffix_refl _
  | a :: as, acc, out, s, t, h => by
    rw [List.filterAuxM] at h
    obtain ⟨keep, s', -, h⟩ := (bind_ok_iff _ _ _ _ _).mp h
    have hrest := suffix_of_filterAuxM h
    cases keep with
    | true => exact (List.suffix_cons _ _).trans hrest
    | false => exact hrest

/-- A name that was never met is stale. -/
private theorem stale_of_unknown (hdest : w.destination = none)
    {name : String} (hfind : w.cache.find? w.project.dir name = none) :
    ((w.cache.get w.project.dir name).2.isStale w.disk w.project.dir false false
      (w.cache.get w.project.dir name).1).1 = true := by
  obtain ⟨c₁, hc₁⟩ : ∃ c₁, (w.cache.get w.project.dir name).2 = c₁ := ⟨_, rfl⟩
  obtain ⟨id, hid⟩ : ∃ id, (w.cache.get w.project.dir name).1 = id := ⟨_, rfl⟩
  have hlt : id < c₁.entries.length := by
    have hsome := Cache.find?_get w.cache w.project.dir name
    rw [hc₁, hid] at hsome
    exact (Cache.find?_some hsome).1
  have hblank : (c₁.entry id).outputTime = .unset := by
    rw [← hc₁, ← hid, Cache.get_of_not_find? hfind]
    simp [Cache.entry, Entry.blank]
  have hmoves := moves_freshness Frame.walking_marks false id { w with cache := c₁ }
  have hm := Frame.moves_of_law hmoves hdest
  have hout := (Entry.lasts_of_marking (hm.cache.old id hlt)).2
  rw [hc₁, hid]
  unfold Cache.isStale Entry.isOutputCurrent
  simp only [Bool.false_eq_true, if_false]
  rw [hout, hblank]
  simp [Stamp.time?]

/-- Where no entry file is stale, all of them have entries. -/
theorem known_of_staleMains_nil (hdest : w.destination = none)
    (hw : w.cache.Walkable w.disk w.project.dir) (h : staleMains false mains w = .ok [] w') :
    ∀ main ∈ mains, ∃ i, w.cache.find? w.project.dir main = some i := by
  have hb := hw.clearFreshness
  have hall : ∀ (ms acc : List String) (c : Cache) (w' : Workspace),
      Cache.Marked w.disk w.project.dir false w.cache.clearFreshness c →
      ms.filterAuxM (fun main => onCache fun disk dir c =>
            (c.get dir main).2.isStale disk dir false false (c.get dir main).1) acc
            { w with cache := c } = .ok [] w' →
      ∀ m ∈ ms, ∃ i, w.cache.find? w.project.dir m = some i := by
    intro ms
    induction ms with
    | nil => simp
    | cons m ms ih =>
      intro acc c w' hc hrun
      rw [List.filterAuxM] at hrun
      obtain ⟨stale, w₁, hone, hrest⟩ := (bind_ok_iff _ _ _ _ _).mp hrun
      obtain ⟨hstale, hw₁⟩ := (onCache_ok_iff _ _ _ _).mp hone
      cases hfind : w.cache.find? w.project.dir m with
      | none =>
        -- it is stale, and the answer has it
        have hnone : c.find? w.project.dir m = none := by
          have hkeys : c.keys = w.cache.clearFreshness.keys := by
            unfold Cache.keys
            apply List.ext_getElem (by simp [hc.base.length])
            intro i hi hi'
            rw [List.length_map] at hi hi'
            rw [List.getElem_map, List.getElem_map, ← Cache.entry_eq hi, ← Cache.entry_eq hi']
            exact (hc.base.walked i hi').key
          rw [Cache.find?_eq_keys, hkeys, ← Cache.find?_eq_keys, Cache.find?_clearFreshness]
          exact hfind
        have htrue : stale = true := by
          rw [← hstale]
          exact stale_of_unknown (w := { w with cache := c }) hdest hnone
        rw [htrue] at hrest
        have hsuffix := suffix_of_filterAuxM hrest
        exact absurd (List.suffix_nil.mp hsuffix) (by simp)
      | some id =>
        obtain ⟨c₁, hget, hfresh, hc₁, -, -⟩ :=
          hc.walk hb (by rw [Cache.find?_clearFreshness]; exact hfind)
        have hw₁' : w₁ = { w with cache := c₁ } := by
          rw [← hw₁]
          simp only [hget]
          unfold Cache.isStale
          simp only [Bool.false_eq_true, if_false, hfresh]
        rw [hw₁'] at hrest
        intro x hx
        rcases List.mem_cons.mp hx with rfl | hx
        · exact ⟨id, hfind⟩
        · exact ih _ c₁ w' hc₁ hrest x hx
  obtain ⟨u, w₀, hclear, h⟩ := (bind_ok_iff _ _ _ _ _).mp h
  obtain ⟨-, hw₀⟩ := (onCache_ok_iff _ _ _ _).mp hclear
  obtain ⟨out, w₁, hrun, hpure⟩ := (bind_ok_iff _ _ _ _ _).mp h
  obtain ⟨hout, rfl⟩ := (pure_ok_iff _ _ _ _).mp hpure
  rw [List.reverse_eq_nil_iff] at hout
  rw [hout, ← hw₀] at hrun
  exact hall mains [] _ w₁ (Cache.Marked.start w.disk w.project.dir false w.cache) hrun

end Session

end Bundler

/-
Ledgers that are well kept.

A ledger is well kept if its index and its events say what its entries say (`Ledger.Kept`). A request makes an
entry, or changes one, or changes all of them. For each of these there is one lemma that the ledger stays
well kept, and a request is a few of them one after the other (`Ledger.Kept.answer`). What else a request does
is told with it: the ledger goes on without renaming anything (`Ledger.Onwards`), a new entry has the path
that was asked for, and the answer is the number of the file.
-/
import Bundler.Proofs.Events

set_option autoImplicit false

namespace Bundler

namespace Ledger

open Event (Tells Orderly Lawful LastLook)

variable {l l' l'' : Ledger} {disk : Disk} {id : Nat} {shape : Shape} {dir name key : String}

/-! ## Going on -/

/-- No entry was taken away or given another name, and no number was. -/
structure Onwards (l l' : Ledger) : Prop where
  longer : l.cache.entries.length ≤ l'.cache.entries.length
  fullNames : ∀ i, i < l.cache.entries.length → (l'.cache.entry i).fullName = (l.cache.entry i).fullName
  keys : ∀ i, i < l.cache.entries.length → (l'.cache.entry i).key = (l.cache.entry i).key
  numbers : ∀ key id, l.index.get? key = some id → l'.index.get? key = some id

theorem Onwards.refl (l : Ledger) : l.Onwards l :=
  ⟨Nat.le_refl _, fun _ _ => rfl, fun _ _ => rfl, fun _ _ h => h⟩

theorem Onwards.trans (h : l.Onwards l') (h' : l'.Onwards l'') : l.Onwards l'' where
  longer := Nat.le_trans h.longer h'.longer
  fullNames i hi := (h'.fullNames i (Nat.lt_of_lt_of_le hi h.longer)).trans (h.fullNames i hi)
  keys i hi := (h'.keys i (Nat.lt_of_lt_of_le hi h.longer)).trans (h.keys i hi)
  numbers key id hid := h'.numbers key id (h.numbers key id hid)

/-- There is no new entry either. -/
structure SameNames (l l' : Ledger) : Prop extends l.Onwards l' where
  length : l'.cache.entries.length = l.cache.entries.length
  index : l'.index = l.index

theorem SameNames.refl (l : Ledger) : l.SameNames l := ⟨.refl l, rfl, rfl⟩

/-- What holds of an entry that was changed, and of the others as they are, holds of all. -/
private theorem forall_entry_modify {c : Cache} {f : Entry → Entry} {P : Nat → Entry → Prop}
    (hself : id < c.entries.length → P id (f (c.entry id)))
    (hother : ∀ i, i < c.entries.length → id ≠ i → P i (c.entry i)) (i : Nat) (hi : i < c.entries.length) :
    P i ((c.modify id f).entry i) := by
  rw [Cache.entry_modify f hi]
  by_cases hid : id = i
  · subst hid
    rw [if_pos rfl]
    exact hself hi
  · rw [if_neg hid]
    exact hother i hi hid

private theorem entry_of_entries {c c' : Cache} (h : c'.entries = c.entries) (i : Nat) : c'.entry i = c.entry i := by
  unfold Cache.entry
  rw [h]

/-- Where one entry was changed, and not its names, the names are the same. -/
private theorem sameNames_change {f : Entry → Entry} (hindex : l'.index = l.index)
    (hentries : l'.cache.entries = (l.cache.modify id f).entries)
    (hname : (f (l.cache.entry id)).fullName = (l.cache.entry id).fullName)
    (hkey : (f (l.cache.entry id)).key = (l.cache.entry id).key) : l.SameNames l' := by
  have hlen : l'.cache.entries.length = l.cache.entries.length := by
    rw [hentries, Cache.length_modify]
  refine ⟨⟨Nat.le_of_eq hlen.symm, fun i hi => ?_, fun i hi => ?_, fun _ _ h => hindex ▸ h⟩, hlen, hindex⟩
  · rw [entry_of_entries hentries]
    exact forall_entry_modify (P := fun i e => e.fullName = (l.cache.entry i).fullName)
      (fun _ => hname) (fun _ _ _ => rfl) i hi
  · rw [entry_of_entries hentries]
    exact forall_entry_modify (P := fun i e => e.key = (l.cache.entry i).key)
      (fun _ => hkey) (fun _ _ _ => rfl) i hi

/-! ## Ledgers that are well kept -/

/-- A ledger whose index and events say what its entries say. -/
structure Kept (l : Ledger) : Prop where
  indexed : l.Indexed
  distinct : l.cache.KeysDistinct
  keyed : ∀ i, i < l.cache.entries.length → (l.cache.entry i).key = Text.lower (l.cache.entry i).fullName
  tells : ∀ i, i < l.cache.entries.length → Tells l.events i (l.cache.entry i)
  /-- Only files that have an entry were asked for. -/
  met : ∀ i, l.cache.entries.length ≤ i → ∀ event ∈ l.events, event.Concerns i → event = .clear
  orderly : Orderly l.events
  /-- No read that the cache counts is missing. -/
  counted : l.cache.reads ≤ l.events.countP Event.isRead

theorem kept_empty : empty.Kept where
  indexed := indexed_empty
  distinct i _ hi _ _ := absurd hi (Nat.not_lt_zero i)
  keyed i hi := absurd hi (Nat.not_lt_zero i)
  tells i hi := absurd hi (Nat.not_lt_zero i)
  met _ _ _ hmem _ := absurd hmem List.not_mem_nil
  orderly before _ behind heq :=
    absurd heq.symm (List.append_ne_nil_of_right_ne_nil before (List.cons_ne_nil _ behind))
  counted := Nat.le_refl 0

/-- The index and the entries belong to each other one to one. -/
theorem Kept.index_iff (h : l.Kept) :
    l.index.get? key = some id ↔ id < l.cache.entries.length ∧ (l.cache.entry id).key = key := by
  rw [h.indexed key]
  constructor
  · exact Cache.indexOf?_some
  · rintro ⟨hid, hkey⟩
    cases hfind : l.cache.indexOf? key with
    | none => exact absurd hkey (Cache.indexOf?_none hfind hid)
    | some j =>
      obtain ⟨hj, hkeyj⟩ := Cache.indexOf?_some hfind
      rw [h.distinct j id hj hid (hkeyj.trans hkey.symm)]

/-- What a ledger with the same names has to say for itself. -/
private theorem Kept.of_sameNames (h : l.Kept) (hnames : l.SameNames l')
    (htells : ∀ i, i < l.cache.entries.length → Tells l'.events i (l'.cache.entry i))
    (hmet : ∀ i, l.cache.entries.length ≤ i → ∀ event ∈ l'.events, event.Concerns i → event = .clear)
    (horderly : Orderly l'.events) (hcounted : l'.cache.reads ≤ l'.events.countP Event.isRead) : l'.Kept where
  indexed := by
    refine h.indexed.of_keys hnames.index (List.ext_getElem (by simp [Cache.keys, hnames.length]) ?_)
    intro i hi' hi
    simp only [Cache.keys, List.length_map] at hi hi'
    simp only [Cache.keys, List.getElem_map, ← Cache.entry_eq hi, ← Cache.entry_eq hi']
    exact hnames.keys i hi
  distinct i j hi hj hkey := by
    rw [hnames.length] at hi hj
    rw [hnames.keys i hi, hnames.keys j hj] at hkey
    exact h.distinct i j hi hj hkey
  keyed i hi := by
    rw [hnames.length] at hi
    rw [hnames.keys i hi, hnames.fullNames i hi]
    exact h.keyed i hi
  tells i hi := htells i (hnames.length ▸ hi)
  met i hi := hmet i (hnames.length ▸ hi)
  orderly := horderly
  counted := hcounted

/-- One entry was changed, and an event about it was written down. -/
private theorem Kept.change_noted {f : Entry → Entry} (h : l.Kept) (event : Event)
    (hid : id < l.cache.entries.length) (hindex : l'.index = l.index)
    (hentries : l'.cache.entries = (l.cache.modify id f).entries) (hevents : l'.events = l.events ++ [event])
    (hname : (f (l.cache.entry id)).fullName = (l.cache.entry id).fullName)
    (hkey : (f (l.cache.entry id)).key = (l.cache.entry id).key)
    (hconcerns : ∀ i, event.Concerns i → i = id)
    (htells : Tells (l.events ++ [event]) id (f (l.cache.entry id))) (hlaw : Lawful l.events event)
    (hcounted : l'.cache.reads ≤ (l.events ++ [event]).countP Event.isRead) : l'.Kept ∧ l.SameNames l' := by
  have hnames := sameNames_change hindex hentries hname hkey
  refine ⟨h.of_sameNames hnames (fun i hi => ?_) (fun i hi e he hc => ?_) ?_ (hevents ▸ hcounted), hnames⟩
  · rw [hevents, entry_of_entries hentries]
    refine forall_entry_modify (P := Tells (l.events ++ [event])) (fun _ => htells) (fun i hi hne => ?_) i hi
    exact (h.tells i hi).concat_other fun hc => hne (hconcerns i hc).symm
  · rw [hevents] at he
    rcases List.mem_append.mp he with he | he
    · exact h.met i hi e he hc
    · rw [List.mem_singleton.mp he] at hc
      exact absurd (hconcerns i hc ▸ hi) (Nat.not_le_of_lt hid)
  · rw [hevents]
    exact h.orderly.concat hlaw

/-- One entry was changed without a word to the disk. -/
private theorem Kept.change_silently {f : Entry → Entry} (h : l.Kept)
    (hname : (f (l.cache.entry id)).fullName = (l.cache.entry id).fullName)
    (hkey : (f (l.cache.entry id)).key = (l.cache.entry id).key)
    (htells : Tells l.events id (f (l.cache.entry id))) :
    (l.change id f).Kept ∧ l.SameNames (l.change id f) := by
  have hnames : l.SameNames (l.change id f) := sameNames_change rfl rfl hname hkey
  exact ⟨h.of_sameNames hnames (forall_entry_modify (P := Tells l.events) (fun _ => htells) fun i hi _ =>
    h.tells i hi) h.met h.orderly h.counted, hnames⟩

/-- All entries were changed. -/
private theorem Kept.map {f : Entry → Entry} (h : l.Kept) (hindex : l'.index = l.index)
    (hcache : l'.cache = l.cache.mapEntries f) (hname : ∀ e, (f e).fullName = e.fullName)
    (hkey : ∀ e, (f e).key = e.key)
    (htells : ∀ i, i < l.cache.entries.length → Tells l'.events i (f (l.cache.entry i)))
    (hmet : ∀ i, l.cache.entries.length ≤ i → ∀ event ∈ l'.events, event.Concerns i → event = .clear)
    (horderly : Orderly l'.events) (hcounted : l.cache.reads ≤ l'.events.countP Event.isRead) :
    l'.Kept ∧ l.SameNames l' := by
  have hlen : l'.cache.entries.length = l.cache.entries.length := by
    rw [hcache, Cache.length_mapEntries]
  have hentry : ∀ i, i < l.cache.entries.length → l'.cache.entry i = f (l.cache.entry i) := fun i hi => by
    rw [hcache, Cache.entry_mapEntries f hi]
  have hnames : l.SameNames l' := by
    refine ⟨⟨Nat.le_of_eq hlen.symm, fun i hi => ?_, fun i hi => ?_, fun _ _ h => hindex ▸ h⟩, hlen, hindex⟩
    · rw [hentry i hi, hname]
    · rw [hentry i hi, hkey]
  refine ⟨h.of_sameNames hnames (fun i hi => ?_) hmet horderly ?_, hnames⟩
  · rw [hentry i hi]
    exact htells i hi
  · rw [hcache]
    exact hcounted

/-- Clearing the times. -/
theorem Kept.clearTimes (h : l.Kept) :
    ({ l with cache := l.cache.clearProbes }.note .clear).Kept ∧
      l.SameNames ({ l with cache := l.cache.clearProbes }.note .clear) := by
  refine h.map rfl rfl (fun _ => rfl) (fun _ => rfl) (fun i hi => (h.tells i hi).after_clear) ?_
    (h.orderly.concat trivial) ?_
  · intro i hi event hmem hc
    rcases List.mem_append.mp hmem with hmem | hmem
    · exact h.met i hi event hmem hc
    · exact List.mem_singleton.mp hmem
  · change _ ≤ (l.events ++ [Event.clear]).countP Event.isRead
    rw [List.countP_append]
    exact Nat.le_add_right_of_le h.counted

/-- All other clearings leave what was seen and read of a file alone. -/
private theorem Kept.map_silently {f : Entry → Entry} (h : l.Kept) (hname : ∀ e, (f e).fullName = e.fullName)
    (hkey : ∀ e, (f e).key = e.key) (hcurrent : ∀ e, (f e).current = e.current)
    (htime : ∀ (shape : Shape) e, shape.time (f e) = shape.time e)
    (hthere : ∀ (shape : Shape) e, shape.isThere (f e) = shape.isThere e) :
    ({ l with cache := l.cache.mapEntries f } : Ledger).Kept ∧
      l.SameNames { l with cache := l.cache.mapEntries f } :=
  h.map rfl rfl hname hkey
    (fun i hi => (h.tells i hi).congr (hcurrent _) (htime · _) (hthere · _)) h.met h.orderly h.counted

/-! ## Looking and reading -/

/-- A look is made only where nothing is known of the file. -/
theorem Kept.probe (h : l.Kept) (disk : Disk) (hid : id < l.cache.entries.length) :
    (l.probe disk id).Kept ∧ l.SameNames (l.probe disk id) ∧
      ((l.probe disk id).cache.entry id).current.isSet = true := by
  rw [← and_assoc]
  constructor
  · rcases probe_cases disk l id with ⟨-, heq⟩ | ⟨hunset, heq⟩
    · rw [heq]
      exact ⟨h, .refl l⟩
    · rw [heq]
      refine h.change_noted (.look id (l.look disk id).1) hid rfl rfl rfl rfl rfl
        (fun _ hc => Eq.symm hc) ?_ ?_ ?_
      · exact (h.tells id hid).after_look (Disk.stamp_isSet _ _)
      · exact (h.tells id hid).lawful_look hunset _
      · rw [List.countP_append]
        exact Nat.le_add_right_of_le h.counted
  · rw [cache_probe, Cache.probe_eq, Cache.entry_modify_self _ hid]
    exact Entry.isSet_looked disk _

/-- The cache counts a read that was written down, or does not count it. -/
private theorem Kept.counted_load (h : l.Kept) (disk : Disk) (shape : Shape) (id : Nat) (done : Bool) :
    (l.load disk shape id).2.cache.reads
      ≤ (l.events ++ [Event.read shape id (l.cache.entry id).current done]).countP Event.isRead := by
  have hle : (l.load disk shape id).2.cache.reads ≤ l.cache.reads + 1 := by
    change (l.cache.countRead disk _).reads ≤ _
    unfold Cache.countRead
    split
    · exact Nat.le_succ _
    · exact Nat.le_refl _
  rw [List.countP_append]
  exact Nat.le_trans hle (Nat.add_le_add_right h.counted 1)

/-- A content is asked for only where it is not current. -/
theorem Kept.ensure (h : l.Kept) (disk : Disk) (shape : Shape) (hid : id < l.cache.entries.length)
    (hset : (l.cache.entry id).current.isSet = true) :
    (l.ensure disk shape id).Kept ∧ l.SameNames (l.ensure disk shape id) := by
  have htells := h.tells id hid
  have hentries : ∀ f, ((l.load disk shape id).2.change id f).cache.entries = (l.cache.modify id f).entries :=
    fun f => by
      change (Cache.modify (l.cache.countRead disk _) id f).entries = _
      unfold Cache.modify
      rw [Cache.entries_countRead]
  rcases ensure_cases disk l shape id with ⟨hfound, heq⟩ | ⟨-, heq⟩ | ⟨hfound, hcurrent, heq⟩
  · rw [heq]
    exact h.change_silently (shape.lost_fullName _) (shape.lost_key _)
      (htells.after_loss hset (shape.isCurrent_of_not_found hfound))
  · rw [heq]
    exact ⟨h, .refl l⟩
  · rw [heq]
    cases hread : disk.read? (l.cache.entry id).fullName with
    | some bytes =>
      refine h.change_noted (.read shape id (l.cache.entry id).current true) hid rfl (hentries _) ?_
        (shape.kept_fullName bytes _) (shape.kept_key bytes _) (fun _ hc => Eq.symm hc)
        (htells.after_read_kept hfound hcurrent bytes) (htells.lawful_read hfound hcurrent true)
        (h.counted_load disk shape id true)
      simp only [change, load, note, hread, Option.isSome_some]
    | none =>
      refine h.change_noted (.read shape id (l.cache.entry id).current false) hid rfl (hentries _) ?_
        (shape.lost_fullName _) (shape.lost_key _) (fun _ hc => Eq.symm hc)
        (htells.after_read_lost hfound hcurrent) (htells.lawful_read hfound hcurrent false)
        (h.counted_load disk shape id false)
      simp only [change, load, note, hread, Option.isSome_none]

/-! ## What a request does -/

/-- A ledger has gone on to a well kept one with an entry for a file. If the entry is new, its name is the one
that the file was asked for by. -/
structure Serves (l l' : Ledger) (dir name : String) (id : Nat) : Prop where
  kept : l'.Kept
  onwards : l.Onwards l'
  new : ∀ i, l.cache.entries.length ≤ i → i < l'.cache.entries.length →
    (l'.cache.entry i).fullName = Cache.canonicalName dir name
  number : l'.index.get? (Cache.keyOf dir name) = some id

theorem Serves.id_lt (h : l.Serves l' dir name id) : id < l'.cache.entries.length :=
  (h.kept.index_iff.mp h.number).1

/-- Changes of the entries that leave the names alone. -/
theorem Serves.trans_sameNames (h : l.Serves l' dir name id) (hkept : l''.Kept) (hnames : l'.SameNames l'') :
    l.Serves l'' dir name id where
  kept := hkept
  onwards := h.onwards.trans hnames.toOnwards
  new i hi hi' := by
    rw [hnames.length] at hi'
    rw [hnames.fullNames i hi']
    exact h.new i hi hi'
  number := hnames.numbers _ _ h.number

private theorem entry_concat_old {c : Cache} {i : Nat} (e : Entry) (hi : i < c.entries.length) :
    ({ c with entries := c.entries ++ [e] } : Cache).entry i = c.entry i := by
  unfold Cache.entry
  rw [List.getElem?_append_left hi]

private theorem entry_concat_new (c : Cache) (e : Entry) :
    ({ c with entries := c.entries ++ [e] } : Cache).entry c.entries.length = e := by
  unfold Cache.entry
  rw [List.getElem?_concat_length]
  rfl

/-- What holds of the entries that were there, and of a new one, holds of all. -/
private theorem forall_lt_concat {c : Cache} {e : Entry} {P : Nat → Entry → Prop}
    (hold : ∀ i, i < c.entries.length → P i (c.entry i)) (hnew : P c.entries.length e) (i : Nat)
    (hi : i < (c.entries ++ [e]).length) : P i (({ c with entries := c.entries ++ [e] } : Cache).entry i) := by
  rw [List.length_append, List.length_singleton] at hi
  rcases Nat.lt_or_eq_of_le (Nat.le_of_lt_succ hi) with hlt | rfl
  · rw [entry_concat_old e hlt]
    exact hold i hlt
  · rw [entry_concat_new]
    exact hnew

/-- An entry is made if there is none. -/
theorem Kept.get (h : l.Kept) (dir name : String) :
    l.Serves (l.get dir name).2 dir name (l.get dir name).1 := by
  have hdistinct : (l.get dir name).2.cache.KeysDistinct := by
    have hadvances := Cache.Advances.get (P := fun _ _ => True) (fun _ => trivial) dir name l.cache
    rw [← h.indexed.get_eq dir name] at hadvances
    exact hadvances.distinct h.distinct
  have hindexed := h.indexed.get dir name
  unfold Ledger.get at hdistinct hindexed ⊢
  cases hfind : l.find? dir name with
  | some id => exact ⟨h, .refl l, fun i hi hi' => absurd hi' (Nat.not_lt_of_le hi), hfind⟩
  | none =>
    simp only [hfind] at hdistinct hindexed ⊢
    have hlonger : l.cache.entries.length
        ≤ (l.cache.entries ++ [Entry.blank (Cache.canonicalName dir name) (Cache.keyOf dir name)]).length := by
      rw [List.length_append]
      exact Nat.le_add_right _ _
    refine ⟨⟨hindexed, hdistinct, ?_, ?_, ?_, h.orderly, h.counted⟩, ⟨hlonger, ?_, ?_, ?_⟩, ?_, ?_⟩
    · exact forall_lt_concat (P := fun _ e => e.key = Text.lower e.fullName) h.keyed rfl
    · refine forall_lt_concat (P := Tells l.events) h.tells ?_
      exact Tells.blank _ _ (h.met _ (Nat.le_refl _))
    · exact fun i hi => h.met i (Nat.le_trans hlonger hi)
    · exact fun i hi => congrArg Entry.fullName (entry_concat_old _ hi)
    · exact fun i hi => congrArg Entry.key (entry_concat_old _ hi)
    · intro key id hid
      rw [OrderedMap.get?_insert, if_neg, hid]
      rintro rfl
      exact absurd (hfind.symm.trans hid) nofun
    · exact fun i hi hi' => forall_lt_concat (P := fun i e => l.cache.entries.length ≤ i → e.fullName = _)
        (fun i hi hi' => absurd hi (Nat.not_lt_of_le hi')) (fun _ => rfl) i hi' hi
    · rw [OrderedMap.get?_insert, if_pos rfl]

theorem Kept.existence (h : l.Kept) (disk : Disk) (dir name : String) :
    l.Serves (l.existence disk dir name).2 dir name (l.existence disk dir name).1 ∧
      ((l.existence disk dir name).2.cache.entry (l.existence disk dir name).1).current.isSet = true := by
  have hget := h.get dir name
  obtain ⟨hkept, hnames, hset⟩ := hget.kept.probe disk hget.id_lt
  exact ⟨hget.trans_sameNames hkept hnames, hset⟩

theorem Kept.content (h : l.Kept) (disk : Disk) (shape : Shape) (dir name : String) :
    l.Serves (l.content disk shape dir name).2 dir name (l.content disk shape dir name).1 := by
  obtain ⟨hserves, hset⟩ := h.existence disk dir name
  obtain ⟨hkept, hnames⟩ := hserves.kept.ensure disk shape hserves.id_lt hset
  exact hserves.trans_sameNames hkept hnames

/-- What a request comes to. The answer is the number that the file has afterwards, if the request was about
a file. -/
structure Answers (l l' : Ledger) (r : Cache.Request) (answer : Option Nat) : Prop where
  kept : l'.Kept
  onwards : l.Onwards l'
  new : ∀ i, l.cache.entries.length ≤ i → i < l'.cache.entries.length →
    r.path? = some (l'.cache.entry i).fullName
  number : answer = r.key?.bind l'.index.get?
  made : ∀ path, r.path? = some path → ∃ id, l'.index.get? (Text.lower path) = some id

private theorem Serves.answers {r : Cache.Request} (h : l.Serves l' dir name id)
    (hpath : r.path? = some (Cache.canonicalName dir name)) (hkey : r.key? = some (Cache.keyOf dir name)) :
    l.Answers l' r (some id) where
  kept := h.kept
  onwards := h.onwards
  new i hi hi' := by rw [hpath, h.new i hi hi']
  number := by rw [hkey, Option.bind_some, h.number]
  made path hpath' := by
    rw [hpath, Option.some.injEq] at hpath'
    exact ⟨id, hpath' ▸ h.number⟩

/-- A request that makes no entry. -/
private theorem SameNames.answers {r : Cache.Request} {answer : Option Nat} (h : l.SameNames l')
    (hkept : l'.Kept) (hpath : r.path? = none) (hnumber : answer = r.key?.bind l'.index.get?) :
    l.Answers l' r answer where
  kept := hkept
  onwards := h.toOnwards
  new i hi hi' := by
    rw [h.length] at hi'
    exact absurd hi' (Nat.not_lt_of_le hi)
  number := hnumber
  made path hpath' := by
    rw [hpath] at hpath'
    cases hpath'

/-- **One request.** A well kept ledger stays well kept. -/
theorem Kept.answer (h : l.Kept) (disk : Disk) (r : Cache.Request) :
    l.Answers (l.answer disk r).2 r (l.answer disk r).1 := by
  cases r with
  | get dir name => exact (h.get dir name).answers rfl rfl
  | find dir name => exact (SameNames.refl l).answers h rfl rfl
  | existence dir name => exact (h.existence disk dir name).1.answers rfl rfl
  | content dir name => exact (h.content disk .text dir name).answers rfl rfl
  | buffer dir name => exact (h.content disk .bytes dir name).answers rfl rfl
  | clearTimes => exact h.clearTimes.2.answers h.clearTimes.1 rfl rfl
  | clearFreshness =>
    have hmap := h.map_silently (f := fun e => { e with freshness := .unset }) (fun _ => rfl) (fun _ => rfl)
      (fun _ => rfl) (by rintro ⟨⟩ _ <;> rfl) (by rintro ⟨⟩ _ <;> rfl)
    exact hmap.2.answers hmap.1 rfl rfl
  | forceRebuild =>
    have hmap := h.map_silently (f := fun e => { e with infoTime := .unset, outputTime := .unset })
      (fun _ => rfl) (fun _ => rfl) (fun _ => rfl) (by rintro ⟨⟩ _ <;> rfl) (by rintro ⟨⟩ _ <;> rfl)
    exact hmap.2.answers hmap.1 rfl rfl

end Ledger

end Bundler

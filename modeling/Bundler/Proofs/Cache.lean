/-
The cache as a table of entries.

Everything that a build does to the cache is one of three things: an entry is appended because a
name is met for the first time, one entry is changed, or all entries are. So a fact about a cache
before and after a step is a fact about entries before and after a change, together with the fact
that the table only grows. `Advances` says this once: every entry that was there is related to
what it has become, and every new entry is related to a blank one. It is reflexive and transitive
where the relation of entries is, so a relation of entries is carried through a whole build by
looking at the few changes of one entry that there are: looking at the file, reading it, and what
the single stages of a build add to that.

An entry is found by its key. Keys are distinct and are not changed, so a number that was found
for a name stays good, and the entry that a number stands for is the same in every later cache.
-/
import Mathlib.Data.List.Basic
import Bundler.Cache.Freshness

set_option autoImplicit false

namespace Bundler

/-! ## Maps -/

namespace OrderedMap

variable {α β : Type} [DecidableEq α]

theorem get?_cons (e : α × β) (es : List (α × β)) (k : α) :
    (⟨e :: es⟩ : OrderedMap α β).get? k
      = if e.1 = k then some e.2 else (⟨es⟩ : OrderedMap α β).get? k := by
  by_cases h : e.1 = k
  · simp [get?, h]
  · simp [get?, h]

private theorem get?_insertList (k : α) (v : β) (k' : α) (es : List (α × β)) :
    (⟨insertList k v es⟩ : OrderedMap α β).get? k'
      = if k = k' then some v else (⟨es⟩ : OrderedMap α β).get? k' := by
  induction es with
  | nil => simp [insertList, get?_cons]
  | cons e es ih =>
    by_cases he : e.1 = k
    · by_cases hk : k = k'
      · simp [insertList, get?_cons, he, hk]
      · simp [insertList, get?_cons, he, hk]
    · by_cases hk : k = k'
      · subst hk
        simp [insertList, get?_cons, he, ih]
      · simp [insertList, get?_cons, he, ih, hk]

/-- Inserting changes what is under the key and nothing else. -/
theorem get?_insert (m : OrderedMap α β) (k : α) (v : β) (k' : α) :
    (m.insert k v).get? k' = if k = k' then some v else m.get? k' :=
  get?_insertList k v k' m.toList

/-- What is found in a map is one of its pairs. -/
theorem mem_of_get? {m : OrderedMap α β} {k : α} {v : β} (h : m.get? k = some v) :
    (k, v) ∈ m.toList := by
  obtain ⟨e, he, rfl⟩ := Option.map_eq_some_iff.mp h
  have hk : e.1 = k := by simpa using List.find?_some he
  subst hk
  exact List.mem_of_find?_eq_some he

theorem mem_keys_of_get? {m : OrderedMap α β} {k : α} {v : β} (h : m.get? k = some v) :
    k ∈ m.keys := List.mem_map.mpr ⟨(k, v), mem_of_get? h, rfl⟩

theorem contains_iff {m : OrderedMap α β} {k : α} :
    m.contains k = true ↔ ∃ v, m.get? k = some v := by
  unfold contains get?
  rw [List.any_eq_true, ← Option.isSome_iff_exists, Option.isSome_map, List.find?_isSome]

private theorem mem_insertList {k : α} {v : β} {e : α × β} :
    ∀ {es : List (α × β)}, e ∈ insertList k v es → e = (k, v) ∨ e ∈ es
  | [], h => .inl (List.mem_singleton.mp h)
  | d :: es, h => by
    unfold insertList at h
    split at h
    · exact (List.mem_cons.mp h).imp_right (List.mem_cons_of_mem _)
    · rcases List.mem_cons.mp h with rfl | h
      · exact .inr List.mem_cons_self
      · exact (mem_insertList h).imp_right (List.mem_cons_of_mem _)

/-- A pair of a map into which one was inserted is that one, or it was there before. -/
theorem mem_insert {m : OrderedMap α β} {k : α} {v : β} {e : α × β}
    (h : e ∈ (m.insert k v).toList) : e = (k, v) ∨ e ∈ m.toList := mem_insertList h

/-- Keeping some of the pairs keeps what is found under a key all of whose pairs are kept. -/
theorem get?_filter_of_keep {p : α → β → Bool} {m : OrderedMap α β} {k : α}
    (h : ∀ v, p k v = true) : (m.filter p).get? k = m.get? k := by
  obtain ⟨es⟩ := m
  induction es with
  | nil => rfl
  | cons e es ih =>
    by_cases hk : e.1 = k
    · subst hk
      simp only [OrderedMap.filter, List.filter_cons, h e.2, if_true, get?_cons]
    · by_cases hp : p e.1 e.2 = true
      · simp only [OrderedMap.filter, List.filter_cons, hp, if_true, get?_cons, hk, if_false]
        exact ih
      · simp only [OrderedMap.filter, List.filter_cons, hp, if_false, get?_cons, hk]
        exact ih

/-- A pair that is not kept is not found. -/
theorem keep_of_get?_filter {p : α → β → Bool} {m : OrderedMap α β} {k : α} {v : β}
    (h : (m.filter p).get? k = some v) : p k v = true := by
  have hmem := mem_of_get? h
  exact (List.mem_filter.mp hmem).2

end OrderedMap

/-- What a look at a path says. -/
def Disk.stamp (d : Disk) (path : String) : Stamp :=
  match d.modified? path with
  | some t => .at t
  | none => .missing

theorem Disk.stamp_eq_at {d : Disk} {path : String} {t : Nat} :
    d.stamp path = .at t ↔ d.modified? path = some t := by
  unfold Disk.stamp
  cases d.modified? path with
  | none => simp
  | some u => simp

theorem Disk.stamp_time? (d : Disk) (path : String) : (d.stamp path).time? = d.modified? path := by
  unfold Disk.stamp
  cases d.modified? path with
  | none => rfl
  | some u => rfl

theorem Disk.stamp_isSet (d : Disk) (path : String) : (d.stamp path).isSet = true := by
  unfold Disk.stamp
  cases d.modified? path with
  | none => rfl
  | some u => rfl

/-! ## Changes of one entry -/

namespace Entry

/-- The entry after a look at its file. -/
def looked (disk : Disk) (e : Entry) : Entry :=
  if e.current.isSet then e else { e with current := disk.stamp e.fullName }

/-- The entry after its text was asked for. -/
def withText (disk : Disk) (e : Entry) : Entry :=
  if !e.found then { e with textTime := .missing }
  else if e.isTextCurrent then e
  else
    match disk.read? e.fullName with
    | some bytes => { e with text := some (Text.ofBytes bytes), textTime := e.current }
    | none => { e with textTime := .missing }

/-- The entry after its bytes were asked for. -/
def withBuffer (disk : Disk) (e : Entry) : Entry :=
  if !e.found then { e with bufferTime := .missing }
  else if e.isBufferCurrent then e
  else
    match disk.read? e.fullName with
    | some bytes => { e with buffer := some bytes, bufferTime := e.current }
    | none => { e with bufferTime := .missing }

theorem looked_of_isSet {disk : Disk} {e : Entry} (h : e.current.isSet = true) :
    e.looked disk = e := by
  unfold looked
  rw [if_pos h]

theorem looked_of_unset {disk : Disk} {e : Entry} (h : e.current = .unset) :
    e.looked disk = { e with current := disk.stamp e.fullName } := by
  unfold looked
  rw [h]
  rfl

@[simp] theorem looked_key (disk : Disk) (e : Entry) : (e.looked disk).key = e.key := by
  unfold looked
  split <;> rfl

@[simp] theorem withText_key (disk : Disk) (e : Entry) : (e.withText disk).key = e.key := by
  unfold withText
  split
  · rfl
  · split
    · rfl
    · split <;> rfl

@[simp] theorem withBuffer_key (disk : Disk) (e : Entry) : (e.withBuffer disk).key = e.key := by
  unfold withBuffer
  split
  · rfl
  · split
    · rfl
    · split <;> rfl

/-- What was looked at is set. -/
theorem isSet_looked (disk : Disk) (e : Entry) : (e.looked disk).current.isSet = true := by
  unfold looked
  split
  · assumption
  · exact Disk.stamp_isSet disk e.fullName

theorem at_of_found {e : Entry} (h : e.found = true) : ∃ t, e.current = .at t := by
  unfold found at h
  cases hcur : e.current with
  | unset => rw [hcur] at h; exact absurd h (by simp [Stamp.time?])
  | missing => rw [hcur] at h; exact absurd h (by simp [Stamp.time?])
  | «at» t => exact ⟨t, rfl⟩

theorem isTextCurrent_iff {e : Entry} : e.isTextCurrent = true ↔
    e.found = true ∧ e.textTime = e.current ∧ ∃ text, e.text = some text := by
  unfold isTextCurrent
  rw [Bool.and_eq_true, Bool.and_eq_true, beq_iff_eq, Option.isSome_iff_exists, and_assoc]

theorem isBufferCurrent_iff {e : Entry} : e.isBufferCurrent = true ↔
    e.found = true ∧ e.bufferTime = e.current ∧ ∃ bytes, e.buffer = some bytes := by
  unfold isBufferCurrent
  rw [Bool.and_eq_true, Bool.and_eq_true, beq_iff_eq, Option.isSome_iff_exists, and_assoc]

theorem isSourceCurrent_iff {e : Entry} : e.isSourceCurrent = true ↔
    e.isTextCurrent = true ∧ e.sourceTime = e.textTime ∧ ∃ script, e.script = some script := by
  unfold isSourceCurrent
  rw [Bool.and_eq_true, Bool.and_eq_true, beq_iff_eq, Option.isSome_iff_exists, and_assoc]

theorem isInfoCurrent_iff {e : Entry} : e.isInfoCurrent = true ↔
    e.found = true ∧ e.infoTime = e.current ∧ ∃ refs, e.references = some refs := by
  unfold isInfoCurrent
  rw [Bool.and_eq_true, Bool.and_eq_true, beq_iff_eq, Option.isSome_iff_exists, and_assoc]

/-- What was read of a file is current or not by what there is to be seen of it. -/
theorem references?_congr {e e' : Entry} (hcur : e'.current = e.current)
    (hinfo : e'.infoTime = e.infoTime) (hrefs : e'.references = e.references) :
    e'.references? = e.references? := by
  unfold references? isInfoCurrent found
  rw [hcur, hinfo, hrefs]

/-- What asking for a text comes to: the text is current already, there is none to be had, or it is read. -/
theorem withText_cases (disk : Disk) (e : Entry) :
    (e.isTextCurrent = true ∧ e.withText disk = e) ∨
      (e.isTextCurrent = false ∧ (e.found = true → disk.read? e.fullName = none) ∧
        e.withText disk = { e with textTime := .missing }) ∨
      ∃ bytes, e.found = true ∧ disk.read? e.fullName = some bytes ∧
        e.withText disk = { e with text := some (Text.ofBytes bytes), textTime := e.current } := by
  unfold Entry.withText
  by_cases hfound : e.found = true
  · by_cases htext : e.isTextCurrent = true
    · exact .inl ⟨htext, by simp [hfound, htext]⟩
    · rw [Bool.not_eq_true] at htext
      cases hread : disk.read? e.fullName with
      | none => exact .inr (.inl ⟨htext, fun _ => rfl, by simp [hfound, htext]⟩)
      | some bytes => exact .inr (.inr ⟨bytes, hfound, rfl, by simp [hfound, htext]⟩)
  · rw [Bool.not_eq_true] at hfound
    refine .inr (.inl ⟨?_, fun h => ?_, by simp [hfound]⟩)
    · unfold isTextCurrent
      rw [hfound, Bool.false_and, Bool.false_and]
    · rw [hfound] at h
      cases h

/-- The text of a file that can be read is current when it was asked for. -/
theorem isTextCurrent_withText {disk : Disk} {e : Entry} (hfound : e.found = true)
    (hread : (disk.read? e.fullName).isSome = true) : (e.withText disk).isTextCurrent = true := by
  unfold withText
  rw [if_neg (by simp [hfound])]
  split
  · assumption
  · obtain ⟨bytes, hbytes⟩ := Option.isSome_iff_exists.mp hread
    rw [hbytes]
    unfold Entry.isTextCurrent
    unfold Entry.found at hfound ⊢
    simp [hfound]

theorem needsCopy_withText (disk : Disk) (e : Entry) :
    (e.withText disk).needsCopy = e.needsCopy := by
  unfold withText
  split
  · rfl
  · split
    · rfl
    · split <;> rfl

theorem needsCopy_withBuffer (disk : Disk) (e : Entry) :
    (e.withBuffer disk).needsCopy = e.needsCopy := by
  unfold withBuffer
  split
  · rfl
  · split
    · rfl
    · split <;> rfl

end Entry

namespace Cache

variable {dir : String} {c c' c'' : Cache} {i id : Nat} {name : String}

/-! ## The table -/

/-- The key of a name. -/
def keyOf (dir name : String) : String := Text.lower (canonicalName dir name)

/-- The keys of the entries. -/
def keys (c : Cache) : List String := c.entries.map Entry.key

theorem entry_eq (h : i < c.entries.length) : c.entry i = c.entries[i] := by
  unfold entry
  rw [List.getElem?_eq_getElem h]
  rfl

theorem entry_mem (h : i < c.entries.length) : c.entry i ∈ c.entries := by
  rw [entry_eq h]
  exact List.getElem_mem h

theorem mem_iff_entry {e : Entry} :
    e ∈ c.entries ↔ ∃ i, i < c.entries.length ∧ c.entry i = e := by
  constructor
  · intro he
    obtain ⟨i, hi, rfl⟩ := List.getElem_of_mem he
    exact ⟨i, hi, entry_eq hi⟩
  · rintro ⟨i, hi, rfl⟩
    exact entry_mem hi

/-- Two caches with the same entries under the same numbers have the same entries. -/
theorem entries_ext (hlen : c.entries.length = c'.entries.length)
    (h : ∀ i, i < c.entries.length → c.entry i = c'.entry i) : c.entries = c'.entries := by
  apply List.ext_getElem hlen
  intro i hi hi'
  rw [← entry_eq hi, ← entry_eq hi']
  exact h i hi

@[simp] theorem length_modify (f : Entry → Entry) :
    (c.modify id f).entries.length = c.entries.length := by
  unfold modify
  simp only [List.length_modify]

@[simp] theorem length_mapEntries (f : Entry → Entry) :
    (c.mapEntries f).entries.length = c.entries.length := by
  unfold mapEntries
  simp only [List.length_map]

@[simp] theorem reads_modify (f : Entry → Entry) : (c.modify id f).reads = c.reads := rfl

theorem entry_modify (f : Entry → Entry) (h : i < c.entries.length) :
    (c.modify id f).entry i = if id = i then f (c.entry i) else c.entry i := by
  rw [entry_eq (by simpa using h), entry_eq h]
  simp only [modify, List.getElem_modify]

theorem entry_modify_self (f : Entry → Entry) (h : id < c.entries.length) :
    (c.modify id f).entry id = f (c.entry id) := by
  rw [entry_modify f h, if_pos rfl]

theorem entry_modify_ne (f : Entry → Entry) (hne : id ≠ i) :
    (c.modify id f).entry i = c.entry i := by
  by_cases h : i < c.entries.length
  · rw [entry_modify f h, if_neg hne]
  · unfold entry
    rw [List.getElem?_eq_none (by simpa using h), List.getElem?_eq_none (by omega)]

theorem entry_mapEntries (f : Entry → Entry) (h : i < c.entries.length) :
    (c.mapEntries f).entry i = f (c.entry i) := by
  rw [entry_eq (by simpa using h), entry_eq h]
  simp only [mapEntries, List.getElem_map]

/-! ## Finding entries -/

/-- No two entries have one key. -/
def KeysDistinct (c : Cache) : Prop :=
  ∀ i j, i < c.entries.length → j < c.entries.length → (c.entry i).key = (c.entry j).key → i = j

theorem indexOf?_some {key : String} (h : c.indexOf? key = some id) :
    id < c.entries.length ∧ (c.entry id).key = key := by
  obtain ⟨hlt, hkey, -⟩ := List.findIdx?_eq_some_iff_getElem.mp h
  rw [entry_eq hlt]
  exact ⟨hlt, by simpa using hkey⟩

theorem indexOf?_none {key : String} (h : c.indexOf? key = none) (hi : i < c.entries.length) :
    (c.entry i).key ≠ key := by
  have hall := List.findIdx?_eq_none_iff.mp h _ (entry_mem hi)
  simpa using hall

/-- An entry is found by its key. -/
theorem find?_eq_some (hc : c.KeysDistinct) (hi : id < c.entries.length)
    (hkey : (c.entry id).key = keyOf dir name) : c.find? dir name = some id := by
  unfold find?
  cases h : c.indexOf? (Text.lower (canonicalName dir name)) with
  | none => exact absurd hkey (indexOf?_none h hi)
  | some j =>
    obtain ⟨hj, hkeyj⟩ := indexOf?_some h
    rw [hc j id hj hi (hkeyj.trans hkey.symm)]

theorem find?_some (h : c.find? dir name = some id) :
    id < c.entries.length ∧ (c.entry id).key = keyOf dir name := indexOf?_some h

/-- Only the keys matter for what is found. -/
theorem find?_eq_keys (c : Cache) (dir name : String) :
    c.find? dir name = c.keys.findIdx? fun key => key == keyOf dir name := by
  unfold find? indexOf? keys keyOf
  rw [List.findIdx?_map]
  rfl

/-- What was found is found where further keys were appended. -/
theorem find?_of_prefix (h : c.keys <+: c'.keys) (hf : c.find? dir name = some id) :
    c'.find? dir name = some id := by
  obtain ⟨more, hmore⟩ := h
  rw [find?_eq_keys] at hf ⊢
  rw [← hmore, List.findIdx?_append, hf]
  rfl

/-- Names with one key find one entry. -/
theorem find?_congr {name' : String} (h : keyOf dir name = keyOf dir name') :
    c.find? dir name = c.find? dir name' := by
  unfold find?
  unfold keyOf at h
  rw [h]

theorem get_of_find? (h : c.find? dir name = some id) : c.get dir name = (id, c) := by
  unfold get
  unfold find? at h
  simp only [h]

theorem get_of_not_find? (h : c.find? dir name = none) :
    c.get dir name = (c.entries.length,
      { c with entries := c.entries ++ [.blank (canonicalName dir name) (keyOf dir name)] }) := by
  unfold get
  unfold find? at h
  simp only [h]
  rfl

/-! ## How a cache goes on -/

/-- The cache has become another one: each entry that was there has changed by `P`, and each new
one is a blank one that has changed by `P`. -/
structure Advances (dir : String) (P : Entry → Entry → Prop) (c c' : Cache) : Prop where
  keys : c.keys <+: c'.keys
  old : ∀ i, i < c.entries.length → P (c.entry i) (c'.entry i)
  new : ∀ i, c.entries.length ≤ i → i < c'.entries.length →
    ∃ name, P (.blank (canonicalName dir name) (keyOf dir name)) (c'.entry i)
  distinct : c.KeysDistinct → c'.KeysDistinct

variable {P Q : Entry → Entry → Prop}

theorem Advances.longer (h : Advances dir P c c') : c.entries.length ≤ c'.entries.length := by
  have hlen := h.keys.length_le
  unfold Cache.keys at hlen
  rw [List.length_map, List.length_map] at hlen
  exact hlen

theorem Advances.refl (hrefl : ∀ e, P e e) (c : Cache) : Advances dir P c c where
  keys := List.prefix_refl _
  old i _ := hrefl _
  new i h h' := absurd h' (by omega)
  distinct h := h

theorem Advances.trans (htrans : ∀ {e₁ e₂ e₃}, P e₁ e₂ → P e₂ e₃ → P e₁ e₃)
    (h : Advances dir P c c') (h' : Advances dir P c' c'') : Advances dir P c c'' where
  keys := h.keys.trans h'.keys
  old i hi := htrans (h.old i hi) (h'.old i (Nat.lt_of_lt_of_le hi h.longer))
  new i hi hi' := by
    by_cases hold : i < c'.entries.length
    · obtain ⟨name, hP⟩ := h.new i hi hold
      exact ⟨name, htrans hP (h'.old i hold)⟩
    · exact h'.new i (by omega) hi'
  distinct hc := h'.distinct (h.distinct hc)

theorem Advances.mono (h : ∀ e e', P e e' → Q e e') (hc : Advances dir P c c') :
    Advances dir Q c c' where
  keys := hc.keys
  old i hi := h _ _ (hc.old i hi)
  new i hi hi' := (hc.new i hi hi').imp fun _ hP => h _ _ hP
  distinct := hc.distinct

/-- Only the entries of a cache matter. -/
theorem Advances.of_entries_eq (hrefl : ∀ e, P e e) (h : c'.entries = c.entries) :
    Advances dir P c c' := by
  have hentry : ∀ i, c'.entry i = c.entry i := fun i => by unfold entry; rw [h]
  have hkeys : c.keys = c'.keys := by unfold Cache.keys; rw [h]
  refine ⟨hkeys ▸ List.prefix_refl _, fun i _ => by rw [hentry]; exact hrefl _, fun i hi hi' => ?_, ?_⟩
  · rw [h] at hi'
    omega
  · intro hc i j hi hj
    rw [h] at hi hj
    rw [hentry, hentry]
    exact hc i j hi hj

theorem keys_modify {f : Entry → Entry} (hkey : ∀ e, (f e).key = e.key) :
    (c.modify id f).keys = c.keys := by
  unfold keys
  apply List.ext_getElem (by simp)
  intro i hi hi'
  rw [List.length_map] at hi hi'
  rw [List.getElem_map, List.getElem_map, ← entry_eq hi, ← entry_eq hi', entry_modify f hi']
  by_cases hid : id = i
  · rw [if_pos hid, hkey]
  · rw [if_neg hid]

theorem keys_mapEntries {f : Entry → Entry} (hkey : ∀ e, (f e).key = e.key) :
    (c.mapEntries f).keys = c.keys := by
  unfold keys mapEntries
  rw [List.map_map]
  exact List.map_congr_left fun e _ => hkey e

theorem Advances.modify (hrefl : ∀ e, P e e) {f : Entry → Entry} (hkey : ∀ e, (f e).key = e.key)
    (h : id < c.entries.length → P (c.entry id) (f (c.entry id))) :
    Advances dir P c (c.modify id f) where
  keys := (keys_modify hkey).symm ▸ List.prefix_refl _
  old i hi := by
    rw [entry_modify f hi]
    by_cases hid : id = i
    · subst hid
      rw [if_pos rfl]
      exact h hi
    · rw [if_neg hid]
      exact hrefl _
  new i hi hi' := by
    rw [length_modify] at hi'
    omega
  distinct hc i j hi hj := by
    rw [length_modify] at hi hj
    have hkeys : ∀ k, k < c.entries.length → ((c.modify id f).entry k).key = (c.entry k).key := by
      intro k hk
      rw [entry_modify f hk]
      by_cases hid : id = k
      · rw [if_pos hid, hkey]
      · rw [if_neg hid]
    rw [hkeys i hi, hkeys j hj]
    exact hc i j hi hj

theorem Advances.mapEntries {f : Entry → Entry} (hkey : ∀ e, (f e).key = e.key)
    (h : ∀ e, P e (f e)) : Advances dir P c (c.mapEntries f) where
  keys := (keys_mapEntries (c := c) hkey).symm ▸ List.prefix_refl _
  old i hi := by
    rw [entry_mapEntries f hi]
    exact h _
  new i hi hi' := by
    rw [length_mapEntries] at hi'
    omega
  distinct hc i j hi hj := by
    rw [length_mapEntries] at hi hj
    rw [entry_mapEntries f hi, entry_mapEntries f hj, hkey, hkey]
    exact hc i j hi hj

private theorem entry_append (e : Entry) (hi : i ≤ c.entries.length) :
    ({ c with entries := c.entries ++ [e] } : Cache).entry i
      = if i < c.entries.length then c.entry i else e := by
  by_cases h : i < c.entries.length
  · unfold entry
    rw [if_pos h, List.getElem?_append_left h]
  · have heq : i = c.entries.length := by omega
    unfold entry
    rw [if_neg h, heq, List.getElem?_append_right (Nat.le_refl _)]
    simp

theorem Advances.get (hrefl : ∀ e, P e e) (dir name : String) (c : Cache) :
    Advances dir P c (c.get dir name).2 := by
  cases hf : c.find? dir name with
  | some id =>
    rw [get_of_find? hf]
    exact Advances.refl hrefl c
  | none =>
    rw [get_of_not_find? hf]
    refine ⟨by simp [Cache.keys], fun i hi => ?_, fun i hi hi' => ⟨name, ?_⟩,
      fun hc i j hi hj hkey => ?_⟩
    · rw [entry_append _ (by omega), if_pos hi]
      exact hrefl _
    · simp only [List.length_append, List.length_singleton] at hi'
      rw [entry_append _ (by omega), if_neg (by omega)]
      exact hrefl _
    · simp only [List.length_append, List.length_singleton] at hi hj
      rw [entry_append _ (by omega), entry_append _ (by omega)] at hkey
      unfold find? at hf
      by_cases hi' : i < c.entries.length
      · by_cases hj' : j < c.entries.length
        · rw [if_pos hi', if_pos hj'] at hkey
          exact hc i j hi' hj' hkey
        · rw [if_pos hi', if_neg hj'] at hkey
          exact absurd hkey (indexOf?_none hf hi')
      · by_cases hj' : j < c.entries.length
        · rw [if_neg hi', if_pos hj'] at hkey
          exact absurd hkey.symm (indexOf?_none hf hj')
        · omega

/-- A name that was asked for has an entry. -/
theorem find?_get (c : Cache) (dir name : String) :
    (c.get dir name).2.find? dir name = some (c.get dir name).1 := by
  cases hf : c.find? dir name with
  | some id =>
    rw [get_of_find? hf]
    exact hf
  | none =>
    rw [get_of_not_find? hf]
    have hold : c.keys.findIdx? (fun key => key == keyOf dir name) = none := by
      rw [← find?_eq_keys]
      exact hf
    rw [find?_eq_keys]
    unfold keys at hold ⊢
    rw [List.map_append, List.findIdx?_append, hold]
    simp [Entry.blank]

/-- The number of a name stays good. -/
theorem Advances.find? (h : Advances dir P c c') {dir' : String}
    (hf : c.find? dir' name = some id) : c'.find? dir' name = some id := find?_of_prefix h.keys hf

/-! ## Looking and reading -/

theorem probe_eq (disk : Disk) (c : Cache) (id : Nat) :
    c.probe disk id = c.modify id (Entry.looked disk) := by
  unfold probe
  congr 1
  funext e
  unfold Entry.looked Disk.stamp
  by_cases h : e.current.isSet = true
  · rw [if_pos h, if_pos h]
  · rw [if_neg h, if_neg h]
    cases disk.modified? e.fullName with
    | none => rfl
    | some t => rfl

theorem entries_modify_congr {f g : Entry → Entry}
    (h : id < c.entries.length → f (c.entry id) = g (c.entry id)) :
    (c.modify id f).entries = (c.modify id g).entries := by
  apply entries_ext (by simp)
  intro i hi
  rw [length_modify] at hi
  rw [entry_modify f hi, entry_modify g hi]
  by_cases hid : id = i
  · subst hid
    rw [if_pos rfl, if_pos rfl, h hi]
  · rw [if_neg hid, if_neg hid]

theorem entries_modify_id {f : Entry → Entry}
    (h : id < c.entries.length → f (c.entry id) = c.entry id) :
    (c.modify id f).entries = c.entries := by
  apply entries_ext (by simp)
  intro i hi
  rw [length_modify] at hi
  rw [entry_modify f hi]
  by_cases hid : id = i
  · subst hid
    rw [if_pos rfl, h hi]
  · rw [if_neg hid]

@[simp] theorem entries_countRead (disk : Disk) (c : Cache) (path : String) :
    (c.countRead disk path).entries = c.entries := by
  unfold countRead
  split <;> rfl

@[simp] theorem entry_countRead (disk : Disk) (c : Cache) (path : String) (i : Nat) :
    (c.countRead disk path).entry i = c.entry i := by
  unfold entry
  rw [entries_countRead]

private theorem entries_modify_countRead (disk : Disk) (path : String) (f : Entry → Entry) :
    ((c.countRead disk path).modify id f).entries = (c.modify id f).entries := by
  unfold modify
  simp only [entries_countRead]

theorem entries_ensureText (disk : Disk) (c : Cache) (id : Nat) :
    (c.ensureText disk id).entries = (c.modify id (Entry.withText disk)).entries := by
  unfold ensureText
  by_cases hfound : (c.entry id).found = true
  · by_cases hcur : (c.entry id).isTextCurrent = true
    · simp only [hfound, hcur, Bool.not_true, Bool.false_eq_true, if_false, if_true]
      refine (entries_modify_id fun _ => ?_).symm
      unfold Entry.withText
      simp only [hfound, hcur, Bool.not_true, Bool.false_eq_true, if_false, if_true]
    · simp only [hfound, hcur, Bool.not_true, Bool.false_eq_true, if_false]
      cases hread : disk.read? (c.entry id).fullName with
      | none =>
        simp only
        rw [entries_modify_countRead]
        refine entries_modify_congr fun _ => ?_
        simp only [Entry.withText, hfound, hcur, hread, Bool.not_true, Bool.false_eq_true, if_false]
      | some bytes =>
        simp only
        rw [entries_modify_countRead]
        refine entries_modify_congr fun _ => ?_
        simp only [Entry.withText, hfound, hcur, hread, Bool.not_true, Bool.false_eq_true, if_false]
  · simp only [hfound, Bool.not_false, if_true]
    refine entries_modify_congr fun _ => ?_
    simp only [Entry.withText, hfound, Bool.not_false, if_true]

theorem entries_ensureBuffer (disk : Disk) (c : Cache) (id : Nat) :
    (c.ensureBuffer disk id).entries = (c.modify id (Entry.withBuffer disk)).entries := by
  unfold ensureBuffer
  by_cases hfound : (c.entry id).found = true
  · by_cases hcur : (c.entry id).isBufferCurrent = true
    · simp only [hfound, hcur, Bool.not_true, Bool.false_eq_true, if_false, if_true]
      refine (entries_modify_id fun _ => ?_).symm
      unfold Entry.withBuffer
      simp only [hfound, hcur, Bool.not_true, Bool.false_eq_true, if_false, if_true]
    · simp only [hfound, hcur, Bool.not_true, Bool.false_eq_true, if_false]
      cases hread : disk.read? (c.entry id).fullName with
      | none =>
        simp only
        rw [entries_modify_countRead]
        refine entries_modify_congr fun _ => ?_
        simp only [Entry.withBuffer, hfound, hcur, hread, Bool.not_true, Bool.false_eq_true,
          if_false]
      | some bytes =>
        simp only
        rw [entries_modify_countRead]
        refine entries_modify_congr fun _ => ?_
        simp only [Entry.withBuffer, hfound, hcur, hread, Bool.not_true, Bool.false_eq_true,
          if_false]
  · simp only [hfound, Bool.not_false, if_true]
    refine entries_modify_congr fun _ => ?_
    simp only [Entry.withBuffer, hfound, Bool.not_false, if_true]

theorem keys_probe (disk : Disk) (c : Cache) (id : Nat) : (c.probe disk id).keys = c.keys := by
  rw [probe_eq, keys_modify (Entry.looked_key disk)]

theorem keys_ensureText (disk : Disk) (c : Cache) (id : Nat) :
    (c.ensureText disk id).keys = c.keys := by
  have hkeys : (c.modify id (Entry.withText disk)).keys = c.keys :=
    keys_modify (Entry.withText_key disk)
  unfold keys at hkeys ⊢
  rw [entries_ensureText]
  exact hkeys

theorem keys_ensureBuffer (disk : Disk) (c : Cache) (id : Nat) :
    (c.ensureBuffer disk id).keys = c.keys := by
  have hkeys : (c.modify id (Entry.withBuffer disk)).keys = c.keys :=
    keys_modify (Entry.withBuffer_key disk)
  unfold keys at hkeys ⊢
  rw [entries_ensureBuffer]
  exact hkeys

/-- The number that reading a file answers is that of its name. -/
theorem find?_content (disk : Disk) (dir name : String) (c : Cache) :
    (c.content disk dir name).2.find? dir name = some (c.content disk dir name).1 := by
  have h := find?_get c dir name
  unfold content existence
  simp only
  rw [find?_eq_keys, keys_ensureText, keys_probe, ← find?_eq_keys]
  exact h

theorem find?_existence (disk : Disk) (dir name : String) (c : Cache) :
    (c.existence disk dir name).2.find? dir name = some (c.existence disk dir name).1 := by
  have h := find?_get c dir name
  unfold existence
  simp only
  rw [find?_eq_keys, keys_probe, ← find?_eq_keys]
  exact h

theorem entry_ensureText (disk : Disk) (hid : id < c.entries.length) :
    (c.ensureText disk id).entry id = (c.entry id).withText disk := by
  rw [← entry_modify_self (Entry.withText disk) hid]
  unfold entry
  rw [entries_ensureText]

theorem entry_ensureBuffer (disk : Disk) (hid : id < c.entries.length) :
    (c.ensureBuffer disk id).entry id = (c.entry id).withBuffer disk := by
  rw [← entry_modify_self (Entry.withBuffer disk) hid]
  unfold entry
  rw [entries_ensureBuffer]

end Cache

end Bundler

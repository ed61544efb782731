/-
A cache that writes down what it asks of the disk.

What a cache answers does not show how often it asked the disk, and the numbers of its entries are found by
looking through their keys. A ledger (`Ledger`) is a cache with both made plain. It keeps an index of the
numbers by key, which is asked instead of the entries, and it writes an event whenever the disk is asked for
a time or for a content. The disk is reached in two places only, `Ledger.look` and `Ledger.load`, and both
write their event.

A ledger answers what the cache answers and has the same entries (`Ledger.answerAll_eq`), as long as the index
says what the entries say. The index is right from the start and stays right, because a number is put into it
together with its entry and keys are not changed.
-/
import Bundler.Proofs.Cache

set_option autoImplicit false

namespace Bundler

/-! ## Requests -/

/-- What a cache is asked for. A file is asked for by a name in a directory. -/
inductive Cache.Request where
  | get (dir name : String)
  | find (dir name : String)
  | existence (dir name : String)
  | content (dir name : String)
  | buffer (dir name : String)
  | clearTimes
  | clearFreshness
  | forceRebuild

namespace Cache.Request

/-- The key of the file that a request is about. -/
def key? : Cache.Request → Option String
  | .get dir name | .find dir name | .existence dir name | .content dir name | .buffer dir name =>
    some (Cache.keyOf dir name)
  | _ => none

/-- The full path of the file that gets an entry by the request if it has none. -/
def path? : Cache.Request → Option String
  | .get dir name | .existence dir name | .content dir name | .buffer dir name =>
    some (Cache.canonicalName dir name)
  | _ => none

end Cache.Request

/-- The answers to requests that are made one after the other, each while the disk is in some state. -/
def Cache.answerAll {σ : Type} (answer : Disk → σ → Request → Option Nat × σ) :
    σ → List (Disk × Request) → List (Option Nat) × σ
  | s, [] => ([], s)
  | s, (disk, r) :: requests =>
    let (id, s) := answer disk s r
    let (ids, s) := answerAll answer s requests
    (id :: ids, s)

/-- The answer of a cache: the number of an entry, where there is one to tell. -/
def Cache.answer (disk : Disk) (c : Cache) : Request → Option Nat × Cache
  | .get dir name =>
    let (id, c) := c.get dir name
    (some id, c)
  | .find dir name => (c.find? dir name, c)
  | .existence dir name =>
    let (id, c) := c.existence disk dir name
    (some id, c)
  | .content dir name =>
    let (id, c) := c.content disk dir name
    (some id, c)
  | .buffer dir name =>
    let (id, c) := c.bytes disk dir name
    (some id, c)
  | .clearTimes => (none, c.clearProbes)
  | .clearFreshness => (none, c.clearFreshness)
  | .forceRebuild => (none, c.forceRebuild)

/-! ## What is kept of a content -/

/-- What a content is kept as: a text, or its bytes. -/
inductive Shape where
  | text
  | bytes
  deriving DecidableEq

namespace Shape

/-- The time that the content was read at. -/
def time (shape : Shape) (e : Entry) : Stamp :=
  match shape with
  | .text => e.textTime
  | .bytes => e.bufferTime

/-- Whether there is a content. -/
def isThere (shape : Shape) (e : Entry) : Bool :=
  match shape with
  | .text => e.text.isSome
  | .bytes => e.buffer.isSome

/-- Whether the content is that of the file. -/
def isCurrent (shape : Shape) (e : Entry) : Bool :=
  match shape with
  | .text => e.isTextCurrent
  | .bytes => e.isBufferCurrent

/-- The entry with a content that was read now. -/
def kept (shape : Shape) (bytes : Bytes) (e : Entry) : Entry :=
  match shape with
  | .text => { e with text := some (Text.ofBytes bytes), textTime := e.current }
  | .bytes => { e with buffer := some bytes, bufferTime := e.current }

/-- The entry when nothing was to be read. -/
def lost (shape : Shape) (e : Entry) : Entry :=
  match shape with
  | .text => { e with textTime := .missing }
  | .bytes => { e with bufferTime := .missing }

/-- How a cache reads a content. -/
def ensure (shape : Shape) (disk : Disk) (c : Cache) (id : Nat) : Cache :=
  match shape with
  | .text => c.ensureText disk id
  | .bytes => c.ensureBuffer disk id

/-- How a cache gives an entry with a content. -/
def content (shape : Shape) (disk : Disk) (dir : String) (c : Cache) (name : String) : Nat × Cache :=
  match shape with
  | .text => c.content disk dir name
  | .bytes => c.bytes disk dir name

variable (shape : Shape) (bytes : Bytes) (e : Entry)

@[simp] theorem kept_fullName : (shape.kept bytes e).fullName = e.fullName := by
  cases shape <;> rfl

@[simp] theorem kept_key : (shape.kept bytes e).key = e.key := by
  cases shape <;> rfl

@[simp] theorem kept_current : (shape.kept bytes e).current = e.current := by
  cases shape <;> rfl

@[simp] theorem lost_fullName : (shape.lost e).fullName = e.fullName := by
  cases shape <;> rfl

@[simp] theorem lost_key : (shape.lost e).key = e.key := by
  cases shape <;> rfl

@[simp] theorem lost_current : (shape.lost e).current = e.current := by
  cases shape <;> rfl

/-- Both contents are read in one way. -/
theorem ensure_eq (disk : Disk) (c : Cache) (id : Nat) :
    shape.ensure disk c id =
      if !(c.entry id).found then c.modify id shape.lost
      else if shape.isCurrent (c.entry id) then c
      else
        match disk.read? (c.entry id).fullName with
        | some bytes => (c.countRead disk (c.entry id).fullName).modify id (shape.kept bytes)
        | none => (c.countRead disk (c.entry id).fullName).modify id shape.lost := by
  cases shape <;> rfl

theorem content_eq (disk : Disk) (dir : String) (c : Cache) (name : String) :
    shape.content disk dir c name =
      ((c.existence disk dir name).1,
        shape.ensure disk (c.existence disk dir name).2 (c.existence disk dir name).1) := by
  cases shape <;> rfl

theorem keys_ensure (disk : Disk) (c : Cache) (id : Nat) : (shape.ensure disk c id).keys = c.keys := by
  cases shape with
  | text => exact Cache.keys_ensureText disk c id
  | bytes => exact Cache.keys_ensureBuffer disk c id

variable {shape e}

theorem isCurrent_of_not_found (h : e.found = false) : shape.isCurrent e = false := by
  cases shape with
  | text => simp only [isCurrent, Entry.isTextCurrent, h, Bool.false_and]
  | bytes => simp only [isCurrent, Entry.isBufferCurrent, h, Bool.false_and]

end Shape

/-! ## Ledgers -/

/-- What is written down. -/
inductive Event where
  /-- The disk was asked for the time of the file of an entry. -/
  | look (id : Nat) (seen : Stamp)
  /-- The disk was asked for the content of the file of an entry, which had been seen at a time. -/
  | read (shape : Shape) (id : Nat) (time : Stamp) (done : Bool)
  /-- All times were forgotten. -/
  | clear
  deriving DecidableEq

/-- Whether the disk was asked for a content. -/
def Event.isRead : Event → Bool
  | .read .. => true
  | _ => false

/-- Whether the disk was asked for the time of the file of an entry. -/
def Event.isLookAt (id : Nat) : Event → Bool
  | .look i _ => i == id
  | _ => false

/-- A cache with an index of its entries and with what it asked of the disk. -/
structure Ledger where
  cache : Cache
  /-- The numbers of the entries by their keys. -/
  index : OrderedMap String Nat
  /-- What was asked of the disk, oldest first. -/
  events : List Event

namespace Ledger

/-- A ledger without entries. -/
def empty : Ledger := ⟨.empty, .empty, []⟩

/-- Changes the entry with a number. -/
def change (l : Ledger) (id : Nat) (f : Entry → Entry) : Ledger :=
  { l with cache := l.cache.modify id f }

/-- Writes an event down. -/
def note (l : Ledger) (event : Event) : Ledger :=
  { l with events := l.events ++ [event] }

/-- Asks the disk for the time of a file. -/
def look (disk : Disk) (l : Ledger) (id : Nat) : Stamp × Ledger :=
  let seen := disk.stamp (l.cache.entry id).fullName
  (seen, l.note (.look id seen))

/-- Asks the disk for the content of a file. -/
def load (disk : Disk) (l : Ledger) (shape : Shape) (id : Nat) : Option Bytes × Ledger :=
  let e := l.cache.entry id
  let bytes? := disk.read? e.fullName
  (bytes?, { l with cache := l.cache.countRead disk e.fullName }.note
    (.read shape id e.current bytes?.isSome))

/-- The number of a name by the index. -/
def find? (l : Ledger) (dir name : String) : Option Nat :=
  l.index.get? (Cache.keyOf dir name)

/-- The number of the entry for a name, which is made and put into the index if there is none. -/
def get (l : Ledger) (dir name : String) : Nat × Ledger :=
  match l.find? dir name with
  | some id => (id, l)
  | none =>
    let id := l.cache.entries.length
    let e := Entry.blank (Cache.canonicalName dir name) (Cache.keyOf dir name)
    (id, { l with
      cache := { l.cache with entries := l.cache.entries ++ [e] }
      index := l.index.insert (Cache.keyOf dir name) id })

/-- Looks at the file of an entry, unless that was done since the last clearing. -/
def probe (disk : Disk) (l : Ledger) (id : Nat) : Ledger :=
  if (l.cache.entry id).current.isSet then l
  else
    let (seen, l) := l.look disk id
    l.change id fun e => { e with current := seen }

/-- Reads the content of an entry, unless it is current. -/
def ensure (disk : Disk) (l : Ledger) (shape : Shape) (id : Nat) : Ledger :=
  let e := l.cache.entry id
  if !e.found then l.change id shape.lost
  else if shape.isCurrent e then l
  else
    match l.load disk shape id with
    | (some bytes, l) => l.change id (shape.kept bytes)
    | (none, l) => l.change id shape.lost

/-- The entry of a name, looked at. -/
def existence (disk : Disk) (l : Ledger) (dir name : String) : Nat × Ledger :=
  let (id, l) := l.get dir name
  (id, l.probe disk id)

/-- The entry of a name with its content. -/
def content (disk : Disk) (l : Ledger) (shape : Shape) (dir name : String) : Nat × Ledger :=
  let (id, l) := l.existence disk dir name
  (id, l.ensure disk shape id)

/-- The answer of a ledger. -/
def answer (disk : Disk) (l : Ledger) : Cache.Request → Option Nat × Ledger
  | .get dir name =>
    let (id, l) := l.get dir name
    (some id, l)
  | .find dir name => (l.find? dir name, l)
  | .existence dir name =>
    let (id, l) := l.existence disk dir name
    (some id, l)
  | .content dir name =>
    let (id, l) := l.content disk .text dir name
    (some id, l)
  | .buffer dir name =>
    let (id, l) := l.content disk .bytes dir name
    (some id, l)
  | .clearTimes => (none, { l with cache := l.cache.clearProbes }.note .clear)
  | .clearFreshness => (none, { l with cache := l.cache.clearFreshness })
  | .forceRebuild => (none, { l with cache := l.cache.forceRebuild })

/-! ## The index -/

/-- The index says what the entries say. -/
def Indexed (l : Ledger) : Prop := ∀ key, l.index.get? key = l.cache.indexOf? key

variable {l : Ledger} {disk : Disk} {id : Nat} {shape : Shape} {dir name : String}

theorem Indexed.find?_eq (h : l.Indexed) (dir name : String) :
    l.find? dir name = l.cache.find? dir name := h _

private theorem indexOf?_eq_keys (c : Cache) (key : String) :
    c.indexOf? key = c.keys.findIdx? (· == key) := by
  unfold Cache.indexOf? Cache.keys
  rw [List.findIdx?_map]
  rfl

/-- Only the keys of the entries matter for the index. -/
theorem Indexed.of_keys {l' : Ledger} (h : l.Indexed) (hindex : l'.index = l.index)
    (hkeys : l'.cache.keys = l.cache.keys) : l'.Indexed := by
  intro key
  rw [hindex, h key, indexOf?_eq_keys, indexOf?_eq_keys, hkeys]

theorem Indexed.get (h : l.Indexed) (dir name : String) : (l.get dir name).2.Indexed := by
  unfold Ledger.get
  cases hfind : l.find? dir name with
  | some id => exact h
  | none =>
    intro key
    have hnone : l.cache.keys.findIdx? (· == Cache.keyOf dir name) = none := by
      rw [← indexOf?_eq_keys, ← h]
      exact hfind
    have hkeys : ({ l.cache with entries := l.cache.entries ++
        [.blank (Cache.canonicalName dir name) (Cache.keyOf dir name)] } : Cache).keys
          = l.cache.keys ++ [Cache.keyOf dir name] := List.map_append
    have hlen : l.cache.keys.length = l.cache.entries.length := List.length_map _
    simp only [OrderedMap.get?_insert, indexOf?_eq_keys, hkeys, List.findIdx?_append, hlen, h key]
    by_cases hkey : Cache.keyOf dir name = key
    · subst hkey
      simp [hnone]
    · simp [hkey]

/-! ## The entries -/

private theorem cache_ext {c c' : Cache} (hentries : c.entries = c'.entries) (hreads : c.reads = c'.reads) :
    c = c' := by
  cases c
  cases c'
  simp only at hentries hreads
  rw [hentries, hreads]

/-- A ledger finds and makes the entries of its cache. -/
theorem Indexed.get_eq (h : l.Indexed) (dir name : String) :
    ((l.get dir name).1, (l.get dir name).2.cache) = l.cache.get dir name := by
  unfold Ledger.get
  rw [h.find?_eq]
  cases hfind : l.cache.find? dir name with
  | some id => rw [Cache.get_of_find? hfind]
  | none => rw [Cache.get_of_not_find? hfind]

/-- What looking at a file comes to: it was looked at, or the disk is asked for its time. -/
theorem probe_cases (disk : Disk) (l : Ledger) (id : Nat) :
    ((l.cache.entry id).current.isSet = true ∧ l.probe disk id = l) ∨
      ((l.cache.entry id).current = .unset ∧
        l.probe disk id = (l.look disk id).2.change id fun e =>
          { e with current := (l.look disk id).1 }) := by
  unfold probe
  cases hcurrent : (l.cache.entry id).current with
  | unset => exact .inr ⟨rfl, rfl⟩
  | missing => exact .inl ⟨rfl, rfl⟩
  | «at» t => exact .inl ⟨rfl, rfl⟩

theorem cache_probe (disk : Disk) (l : Ledger) (id : Nat) :
    (l.probe disk id).cache = l.cache.probe disk id := by
  rw [Cache.probe_eq]
  rcases probe_cases disk l id with ⟨hset, h⟩ | ⟨hunset, h⟩
  · rw [h]
    refine cache_ext ?_ rfl
    exact (Cache.entries_modify_id fun _ => Entry.looked_of_isSet hset).symm
  · rw [h]
    refine cache_ext (Cache.entries_modify_congr fun _ => ?_) rfl
    exact (Entry.looked_of_unset hunset).symm

/-- What asking for a content comes to: it is not there, it is current already, or the disk is asked for it. -/
theorem ensure_cases (disk : Disk) (l : Ledger) (shape : Shape) (id : Nat) :
    ((l.cache.entry id).found = false ∧ l.ensure disk shape id = l.change id shape.lost) ∨
      (shape.isCurrent (l.cache.entry id) = true ∧ l.ensure disk shape id = l) ∨
      ((l.cache.entry id).found = true ∧ shape.isCurrent (l.cache.entry id) = false ∧
        l.ensure disk shape id = match disk.read? (l.cache.entry id).fullName with
          | some bytes => (l.load disk shape id).2.change id (shape.kept bytes)
          | none => (l.load disk shape id).2.change id shape.lost) := by
  unfold ensure
  simp only
  by_cases hfound : (l.cache.entry id).found = true
  · by_cases hcurrent : shape.isCurrent (l.cache.entry id) = true
    · exact .inr (.inl ⟨hcurrent, by rw [if_neg (by simp [hfound]), if_pos hcurrent]⟩)
    · refine .inr (.inr ⟨hfound, by simpa using hcurrent, ?_⟩)
      have hload : l.load disk shape id
          = (disk.read? (l.cache.entry id).fullName, (l.load disk shape id).2) := rfl
      rw [if_neg (by simp [hfound]), if_neg hcurrent, hload]
      cases disk.read? (l.cache.entry id).fullName <;> rfl
  · exact .inl ⟨by simpa using hfound, if_pos (by simp [hfound])⟩

/-- A ledger reads what its cache reads. -/
theorem cache_ensure (disk : Disk) (l : Ledger) (shape : Shape) (id : Nat) :
    (l.ensure disk shape id).cache = shape.ensure disk l.cache id := by
  rw [Shape.ensure_eq]
  unfold ensure
  by_cases hfound : (l.cache.entry id).found = true
  · by_cases hcurrent : shape.isCurrent (l.cache.entry id) = true
    · simp only [hfound, hcurrent, Bool.not_true, Bool.false_eq_true, if_false, if_true]
    · simp only [hfound, hcurrent, Bool.not_true, Bool.false_eq_true, if_false, load]
      cases disk.read? (l.cache.entry id).fullName <;> rfl
  · simp only [hfound, Bool.not_false, if_true]
    rfl

theorem index_probe (disk : Disk) (l : Ledger) (id : Nat) : (l.probe disk id).index = l.index := by
  rcases probe_cases disk l id with ⟨-, h⟩ | ⟨-, h⟩
  · rw [h]
  · rw [h]
    rfl

theorem index_ensure (disk : Disk) (l : Ledger) (shape : Shape) (id : Nat) :
    (l.ensure disk shape id).index = l.index := by
  rcases ensure_cases disk l shape id with ⟨-, h⟩ | ⟨-, h⟩ | ⟨-, -, h⟩
  · rw [h]
    rfl
  · rw [h]
  · rw [h]
    cases disk.read? (l.cache.entry id).fullName <;> rfl

theorem Indexed.existence (h : l.Indexed) (disk : Disk) (dir name : String) :
    (l.existence disk dir name).2.Indexed ∧
      ((l.existence disk dir name).1, (l.existence disk dir name).2.cache)
        = l.cache.existence disk dir name := by
  have hget := h.get_eq dir name
  refine ⟨(h.get dir name).of_keys (index_probe _ _ _) ?_, ?_⟩
  · change ((l.get dir name).2.probe disk (l.get dir name).1).cache.keys = _
    rw [cache_probe, Cache.keys_probe]
  · unfold Ledger.existence Cache.existence
    rw [← hget]
    simp only [cache_probe]

theorem Indexed.content (h : l.Indexed) (disk : Disk) (shape : Shape) (dir name : String) :
    (l.content disk shape dir name).2.Indexed ∧
      ((l.content disk shape dir name).1, (l.content disk shape dir name).2.cache)
        = shape.content disk dir l.cache name := by
  obtain ⟨hindexed, hexist⟩ := h.existence disk dir name
  refine ⟨hindexed.of_keys (index_ensure _ _ _ _) ?_, ?_⟩
  · change ((l.existence disk dir name).2.ensure disk shape _).cache.keys = _
    rw [cache_ensure, Shape.keys_ensure]
  · rw [Shape.content_eq, ← hexist]
    unfold Ledger.content
    simp only [cache_ensure]

/-- A ledger answers what its cache answers, and its index stays right. -/
theorem Indexed.answer (h : l.Indexed) (disk : Disk) (r : Cache.Request) :
    (l.answer disk r).2.Indexed ∧
      ((l.answer disk r).1, (l.answer disk r).2.cache) = l.cache.answer disk r := by
  have hsome : ∀ {p q : Nat × Cache}, p = q → (some p.1, p.2) = (some q.1, q.2) :=
    fun heq => congrArg (fun p : Nat × Cache => (some p.1, p.2)) heq
  cases r with
  | get dir name => exact ⟨h.get dir name, hsome (h.get_eq dir name)⟩
  | find dir name =>
    refine ⟨h, ?_⟩
    simp only [Ledger.answer, Cache.answer, h.find?_eq]
  | existence dir name =>
    obtain ⟨hindexed, heq⟩ := h.existence disk dir name
    exact ⟨hindexed, hsome heq⟩
  | content dir name =>
    obtain ⟨hindexed, heq⟩ := h.content disk .text dir name
    exact ⟨hindexed, hsome heq⟩
  | buffer dir name =>
    obtain ⟨hindexed, heq⟩ := h.content disk .bytes dir name
    exact ⟨hindexed, hsome heq⟩
  | clearTimes => exact ⟨h.of_keys rfl (Cache.keys_mapEntries fun _ => rfl), rfl⟩
  | clearFreshness => exact ⟨h.of_keys rfl (Cache.keys_mapEntries fun _ => rfl), rfl⟩
  | forceRebuild => exact ⟨h.of_keys rfl (Cache.keys_mapEntries fun _ => rfl), rfl⟩

/-- **A ledger is its cache.** It gives the same answers and has the same entries. -/
theorem Indexed.answerAll_eq (h : l.Indexed) (requests : List (Disk × Cache.Request)) :
    ((Cache.answerAll Ledger.answer l requests).1, (Cache.answerAll Ledger.answer l requests).2.cache)
      = Cache.answerAll Cache.answer l.cache requests := by
  induction requests generalizing l with
  | nil => rfl
  | cons request requests ih =>
    obtain ⟨disk, r⟩ := request
    obtain ⟨hindexed, heq⟩ := h.answer disk r
    unfold Cache.answerAll
    rw [← heq]
    simp only
    rw [← ih hindexed]

theorem indexed_empty : empty.Indexed := fun _ => rfl

end Ledger

end Bundler

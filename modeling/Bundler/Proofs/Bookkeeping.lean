/-
A cache is an index of files that asks the disk no more than it has to.

Whatever a cache is asked for, in any order and while files come, go and change, two things hold
(`Cache.answerAll_bookkeeping`). The first is about names: the entries and the index of their keys belong to
each other one to one, so two names have one entry just if their full paths are the same in small letters. A
number stands for the same file for ever, and the file is read by the spelling of the path that was met
first. The second is about the disk. Between two clearings the time of a file is asked for once at most. And
a content is read once at most, as text and as bytes each, as long as the file is seen in one state: between
two reads that came to something there is a look that saw another state than the one that was read.

Every ledger is well kept, by induction on the requests from the last one (`Ledger.kept_run`). What a ledger
says of its names is then read off its entries, and what it asked of the disk off the law of its events.
-/
import Mathlib.Data.List.Induction
import Bundler.Proofs.Keeping

set_option autoImplicit false

namespace Bundler

/-- Where no two elements of a kind follow each other there is one at most. -/
private theorem countP_le_one {α : Type} {p : α → Bool} {xs : List α}
    (h : ∀ before x between y behind, xs = before ++ x :: (between ++ y :: behind) →
      p x = true → p y = true → False) : xs.countP p ≤ 1 := by
  induction xs with
  | nil => exact Nat.zero_le 1
  | cons x xs ih =>
    by_cases hx : p x = true
    · have hnone : xs.countP p = 0 := List.countP_eq_zero.mpr fun y hy hpy => by
        obtain ⟨between, behind, rfl⟩ := List.append_of_mem hy
        exact h [] x between y behind rfl hx hpy
      have hone : (x :: xs).countP p = 1 := by rw [List.countP_cons_of_pos hx, hnone]
      exact Nat.le_of_eq hone
    · rw [List.countP_cons_of_neg hx]
      exact ih fun before x' between y behind heq =>
        h (x :: before) x' between y behind (by rw [heq, List.cons_append])

namespace Event

variable {events before middle behind : List Event} {id : Nat}

theorem isLookAt_iff {event : Event} : event.isLookAt id = true ↔ ∃ seen, event = look id seen := by
  cases event with
  | look i seen => simp [isLookAt]
  | read shape i time done => simp [isLookAt]
  | clear => simp [isLookAt]

/-- By the law of events a file is looked at once at most as long as nothing is forgotten. -/
theorem Orderly.countP_looks_le (h : Orderly events) (heq : events = before ++ middle ++ behind)
    (hclear : clear ∉ middle) (id : Nat) : middle.countP (isLookAt id) ≤ 1 := by
  refine countP_le_one fun front x between y rest hmiddle hx hy => ?_
  obtain ⟨seen, rfl⟩ := isLookAt_iff.mp hx
  obtain ⟨seen', rfl⟩ := isLookAt_iff.mp hy
  have hlaw := h (before ++ front ++ look id seen :: between) (look id seen') (rest ++ behind)
    (by rw [heq, hmiddle]; simp)
  have hmem : clear ∈ between := hlaw (before ++ front) seen between rfl
  rw [hmiddle] at hclear
  exact hclear (by simp [hmem])

/-- By the law of events a content is read once at most as long as its file is seen in one state. -/
theorem Orderly.count_reads_le (h : Orderly events) (heq : events = before ++ middle ++ behind)
    {shape : Shape} {time : Stamp} (hsame : ∀ seen, look id seen ∈ middle → seen = time) :
    middle.count (read shape id time true) ≤ 1 := by
  refine countP_le_one fun front x between y rest hmiddle hx hy => ?_
  obtain rfl := beq_iff_eq.mp hx
  obtain rfl := beq_iff_eq.mp hy
  have hlaw := h (before ++ front ++ read shape id time true :: between) (read shape id time true)
    (rest ++ behind) (by rw [heq, hmiddle]; simp)
  obtain ⟨seen, hmem, hne⟩ := hlaw.2.2 rfl (before ++ front) time between rfl
  exact hne (hsame seen (by rw [hmiddle]; simp [hmem]))

end Event

namespace Ledger

variable {disk : Disk} {key : String}

/-! ## All requests -/

variable {requests before behind : List (Disk × Cache.Request)}

/-- The ledger after requests, from the beginning on. -/
def run (requests : List (Disk × Cache.Request)) : List (Option Nat) × Ledger :=
  Cache.answerAll Ledger.answer .empty requests

private theorem answerAll_concat {σ : Type} (answer : Disk → σ → Cache.Request → Option Nat × σ) (s : σ)
    (requests : List (Disk × Cache.Request)) (disk : Disk) (r : Cache.Request) :
    Cache.answerAll answer s (requests ++ [(disk, r)])
      = ((Cache.answerAll answer s requests).1 ++ [(answer disk (Cache.answerAll answer s requests).2 r).1],
        (answer disk (Cache.answerAll answer s requests).2 r).2) := by
  induction requests generalizing s with
  | nil => rfl
  | cons request requests ih =>
    obtain ⟨disk', r'⟩ := request
    rw [List.cons_append]
    unfold Cache.answerAll
    simp only
    rw [ih]
    rfl

theorem run_concat (requests : List (Disk × Cache.Request)) (disk : Disk) (r : Cache.Request) :
    run (requests ++ [(disk, r)])
      = ((run requests).1 ++ [((run requests).2.answer disk r).1], ((run requests).2.answer disk r).2) :=
  answerAll_concat _ _ _ _ _

/-- **Every ledger is well kept.** -/
theorem kept_run (requests : List (Disk × Cache.Request)) : (run requests).2.Kept := by
  induction requests using List.reverseRecOn with
  | nil => exact kept_empty
  | append_singleton requests request ih =>
    obtain ⟨disk, r⟩ := request
    rw [run_concat]
    exact (ih.answer disk r).kept

/-- What the last request comes to. -/
theorem answers_run (requests : List (Disk × Cache.Request)) (disk : Disk) (r : Cache.Request) :
    (run requests).2.Answers (run (requests ++ [(disk, r)])).2 r ((run requests).2.answer disk r).1 := by
  rw [run_concat]
  exact (kept_run requests).answer disk r

/-- Ledgers only go on. -/
theorem onwards_run (before behind : List (Disk × Cache.Request)) :
    (run before).2.Onwards (run (before ++ behind)).2 := by
  induction behind using List.reverseRecOn with
  | nil =>
    rw [List.append_nil]
    exact .refl _
  | append_singleton behind request ih =>
    obtain ⟨disk, r⟩ := request
    rw [← List.append_assoc]
    exact ih.trans (answers_run _ disk r).onwards

/-- Each request is answered once. -/
theorem length_run (requests : List (Disk × Cache.Request)) : (run requests).1.length = requests.length := by
  induction requests using List.reverseRecOn with
  | nil => rfl
  | append_singleton requests request ih =>
    obtain ⟨disk, r⟩ := request
    rw [run_concat, List.length_append, List.length_append, ih]
    rfl

/-- A file has an entry if one was asked for it, and only then. -/
theorem get?_run_iff : (∃ id, (run requests).2.index.get? key = some id) ↔
    ∃ request ∈ requests, ∃ path, request.2.path? = some path ∧ Text.lower path = key := by
  induction requests using List.reverseRecOn with
  | nil => simp [run, Cache.answerAll, empty, OrderedMap.empty, OrderedMap.get?]
  | append_singleton requests request ih =>
    obtain ⟨disk, r⟩ := request
    have hlast := answers_run requests disk r
    constructor
    · rintro ⟨id, hid⟩
      obtain ⟨hlt, hkey⟩ := hlast.kept.index_iff.mp hid
      by_cases hold : id < (run requests).2.cache.entries.length
      · rw [hlast.onwards.keys id hold] at hkey
        obtain ⟨request, hmem, hpath⟩ := ih.mp ⟨id, (kept_run requests).index_iff.mpr ⟨hold, hkey⟩⟩
        exact ⟨request, List.mem_append_left _ hmem, hpath⟩
      · refine ⟨(disk, r), by simp, _, hlast.new id (Nat.le_of_not_lt hold) hlt, ?_⟩
        rw [← hlast.kept.keyed id hlt, hkey]
    · rintro ⟨request, hmem, path, hpath, rfl⟩
      rcases List.mem_append.mp hmem with hmem | hmem
      · obtain ⟨id, hid⟩ := ih.mpr ⟨request, hmem, path, hpath, rfl⟩
        exact ⟨id, hlast.onwards.numbers _ _ hid⟩
      · rw [List.mem_singleton.mp hmem] at hpath
        exact hlast.made path hpath

/-- An entry has the first path that its file was asked for by. -/
theorem find?_paths {i : Nat} (hi : i < (run requests).2.cache.entries.length) :
    (requests.filterMap fun request => request.2.path?).find?
        (fun path => Text.lower path == ((run requests).2.cache.entry i).key)
      = some ((run requests).2.cache.entry i).fullName := by
  induction requests using List.reverseRecOn with
  | nil => exact absurd hi (Nat.not_lt_zero i)
  | append_singleton requests request ih =>
    obtain ⟨disk, r⟩ := request
    have hlast := answers_run requests disk r
    rw [List.filterMap_append, List.find?_append]
    by_cases hold : i < (run requests).2.cache.entries.length
    · rw [hlast.onwards.keys i hold, hlast.onwards.fullNames i hold, ih hold]
      rfl
    · -- The file was not asked for before, since it has no number.
      have hnone : (requests.filterMap fun request => request.2.path?).find?
          (fun path => Text.lower path == ((run (requests ++ [(disk, r)])).2.cache.entry i).key) = none := by
        refine List.find?_eq_none.mpr fun path hmem hpath => ?_
        obtain ⟨request, hrequest, hpath'⟩ := List.mem_filterMap.mp hmem
        obtain ⟨id, hid⟩ := get?_run_iff.mpr ⟨request, hrequest, path, hpath', beq_iff_eq.mp hpath⟩
        have hi' := hlast.kept.index_iff.mpr ⟨hi, rfl⟩
        rw [hlast.onwards.numbers _ _ hid, Option.some.injEq] at hi'
        rw [← hi'] at hold
        exact hold ((kept_run requests).index_iff.mp hid).1
      rw [hnone, Option.none_or]
      have hpath := hlast.new i (Nat.le_of_not_lt hold) hi
      have hpaths : [(disk, r)].filterMap (fun request => request.2.path?)
          = [((run (requests ++ [(disk, r)])).2.cache.entry i).fullName] :=
        List.filterMap_cons_some (f := fun request : Disk × Cache.Request => request.2.path?) hpath
      rw [hpaths, List.find?_cons_of_pos]
      rw [hlast.kept.keyed i hi]
      exact beq_self_eq_true _

/-- The answer to a request is the number of its file just afterwards. -/
theorem getElem?_run {i : Nat} {r : Cache.Request} (h : requests[i]? = some (disk, r)) :
    (run requests).1[i]? = some (r.key?.bind (run (requests.take (i + 1))).2.index.get?) := by
  induction requests using List.reverseRecOn with
  | nil => cases h
  | append_singleton requests request ih =>
    obtain ⟨disk', r'⟩ := request
    have hlen : i < requests.length + 1 := by
      have := (List.getElem?_eq_some_iff.mp h).1
      simpa using this
    rcases Nat.lt_or_eq_of_le (Nat.le_of_lt_succ hlen) with hlt | rfl
    · rw [List.getElem?_append_left hlt] at h
      rw [run_concat, List.getElem?_append_left (length_run requests ▸ hlt), List.take_append_of_le_length hlt,
        ih h]
    · rw [List.getElem?_concat_length, Option.some.injEq, Prod.mk.injEq] at h
      obtain ⟨rfl, rfl⟩ := h
      rw [List.take_of_length_le (by simp), ← (answers_run requests disk' r').number, run_concat]
      simp only
      rw [← length_run requests, List.getElem?_concat_length]

/-- A request for an entry is answered with one. -/
theorem getElem?_run_of_path {i : Nat} {r : Cache.Request} {path : String} (h : requests[i]? = some (disk, r))
    (hpath : r.path? = some path) : ∃ id, (run requests).1[i]? = some (some id) := by
  have hkey : r.key? = some (Text.lower path) := by
    cases r with
    | get dir name | existence dir name | content dir name | buffer dir name =>
      rw [← Option.some.inj hpath]
      rfl
    | find dir name => cases hpath
    | clearTimes | clearFreshness | forceRebuild => cases hpath
  have hmem : (disk, r) ∈ requests.take (i + 1) := by
    rw [List.mem_iff_getElem?]
    exact ⟨i, by rw [List.getElem?_take_of_lt (Nat.lt_succ_self i), h]⟩
  obtain ⟨id, hid⟩ := get?_run_iff.mpr ⟨(disk, r), hmem, path, hpath, rfl⟩
  exact ⟨id, by rw [getElem?_run h, hkey, Option.bind_some, hid]⟩

/-- A number that was given stays the number of the file. -/
theorem get?_run_of_getElem? {i id : Nat} {r : Cache.Request} (h : requests[i]? = some (disk, r))
    (hid : (run requests).1[i]? = some (some id)) :
    ∃ key, r.key? = some key ∧ (run requests).2.index.get? key = some id := by
  rw [getElem?_run h, Option.some.injEq, Option.bind_eq_some_iff] at hid
  obtain ⟨key, hkey, hnumber⟩ := hid
  refine ⟨key, hkey, ?_⟩
  have honwards := onwards_run (requests.take (i + 1)) (requests.drop (i + 1))
  rw [List.take_append_drop] at honwards
  exact honwards.numbers key id hnumber

end Ledger

/-! ## Bookkeeping -/

/-- The answers of a new cache, and what becomes of it. -/
def Cache.run (requests : List (Disk × Cache.Request)) : List (Option Nat) × Cache :=
  Cache.answerAll Cache.answer .empty requests

/-- The ledger of a cache. -/
private theorem ledger_run (requests : List (Disk × Cache.Request)) :
    ((Ledger.run requests).1, (Ledger.run requests).2.cache) = Cache.run requests :=
  Ledger.indexed_empty.answerAll_eq requests

/-- A cache is an index of files that asks the disk no more than it has to. -/
structure Cache.Bookkeeping (requests : List (Disk × Cache.Request)) : Prop where
  /-- The ledger is that of the cache. -/
  ledger : ((Ledger.run requests).1, (Ledger.run requests).2.cache) = Cache.run requests
  /-- The index has the numbers of the entries by their keys, and nothing else. -/
  index : ∀ key id, (Ledger.run requests).2.index.get? key = some id ↔
    id < (Cache.run requests).2.entries.length ∧ ((Cache.run requests).2.entry id).key = key
  /-- The files with an entry are those for which one was asked. -/
  members : ∀ key, (∃ id, (Ledger.run requests).2.index.get? key = some id) ↔
    ∃ request ∈ requests, ∃ path, request.2.path? = some path ∧ Text.lower path = key
  /-- The answer to a request is the number that its file has afterwards. -/
  answers : ∀ (i : Nat) (disk : Disk) (r : Cache.Request), requests[i]? = some (disk, r) →
    (Cache.run requests).1[i]? = some (r.key?.bind (Ledger.run (requests.take (i + 1))).2.index.get?)
  /-- Whoever asks for an entry gets one. -/
  answered : ∀ (i : Nat) (disk : Disk) (r : Cache.Request) path, requests[i]? = some (disk, r) →
    r.path? = some path → ∃ id, (Cache.run requests).1[i]? = some (some id)
  /-- Two names have one entry just if they have one key. -/
  same : ∀ (i j : Nat) (disk disk' : Disk) (r r' : Cache.Request) id id',
    requests[i]? = some (disk, r) → requests[j]? = some (disk', r') →
    (Cache.run requests).1[i]? = some (some id) → (Cache.run requests).1[j]? = some (some id') →
    (id = id' ↔ r.key? = r'.key?)
  /-- Numbers and names stay as they are. -/
  lasting : ∀ before behind, requests = before ++ behind →
    (Ledger.run before).2.Onwards (Ledger.run requests).2
  /-- A file is read by the path that was met first. -/
  spelled : ∀ id, id < (Cache.run requests).2.entries.length →
    (requests.filterMap fun request => request.2.path?).find?
        (fun path => Text.lower path == ((Cache.run requests).2.entry id).key)
      = some ((Cache.run requests).2.entry id).fullName
  /-- Between two clearings a file is looked at once at most. -/
  looks : ∀ before middle behind id, (Ledger.run requests).2.events = before ++ middle ++ behind →
    Event.clear ∉ middle → middle.countP (Event.isLookAt id) ≤ 1
  /-- As long as a file is seen in one state, its text and its bytes are read once at most. -/
  reads : ∀ before middle behind shape id time,
    (Ledger.run requests).2.events = before ++ middle ++ behind →
    (∀ seen, Event.look id seen ∈ middle → seen = time) → middle.count (.read shape id time true) ≤ 1
  /-- A content is read in the state that the last look saw. -/
  states : ∀ before shape id time done behind,
    (Ledger.run requests).2.events = before ++ Event.read shape id time done :: behind →
    Event.LastLook before id time ∧ ∃ t, time = .at t
  /-- No read that the cache counts is missing. -/
  counted : (Cache.run requests).2.reads ≤ (Ledger.run requests).2.events.countP Event.isRead

/-- **Bookkeeping.** A cache is an index of files that asks the disk no more than it has to, whatever it is
asked for and whatever becomes of the files meanwhile. -/
theorem Cache.answerAll_bookkeeping (requests : List (Disk × Cache.Request)) : Bookkeeping requests := by
  have hledger := ledger_run requests
  have hids : (Cache.run requests).1 = (Ledger.run requests).1 := by rw [← hledger]
  have hcache : (Cache.run requests).2 = (Ledger.run requests).2.cache := by rw [← hledger]
  have hkept := Ledger.kept_run requests
  constructor
  case ledger => exact hledger
  case index =>
    intro key id
    rw [hcache]
    exact hkept.index_iff
  case members => exact fun key => Ledger.get?_run_iff
  case answers =>
    intro i disk r h
    rw [hids]
    exact Ledger.getElem?_run h
  case answered =>
    intro i disk r path h hpath
    rw [hids]
    exact Ledger.getElem?_run_of_path h hpath
  case same =>
    intro i j disk disk' r r' id id' h h' hid hid'
    rw [hids] at hid hid'
    obtain ⟨key, hkey, hnumber⟩ := Ledger.get?_run_of_getElem? h hid
    obtain ⟨key', hkey', hnumber'⟩ := Ledger.get?_run_of_getElem? h' hid'
    rw [hkey, hkey', Option.some.injEq]
    constructor
    · rintro rfl
      exact (hkept.index_iff.mp hnumber).2.symm.trans (hkept.index_iff.mp hnumber').2
    · rintro rfl
      exact Option.some.inj (hnumber.symm.trans hnumber')
  case lasting =>
    rintro before behind rfl
    exact Ledger.onwards_run before behind
  case spelled =>
    intro id hid
    rw [hcache] at hid ⊢
    exact Ledger.find?_paths hid
  case looks => exact fun before middle behind id heq hclear => hkept.orderly.countP_looks_le heq hclear id
  case reads => exact fun before middle behind shape id time heq => hkept.orderly.count_reads_le heq
  case states =>
    intro before shape id time done behind heq
    have hlaw := hkept.orderly before _ behind heq
    exact ⟨hlaw.1, hlaw.2.1⟩
  case counted =>
    rw [hcache]
    exact hkept.counted

/-- A file that is asked for in two spellings is read once. After a clearing it is looked at again, and since it
has changed it is read again. -/
example :
    let disk := Disk.empty.write "/a/B.ts" []
    let disk' := disk.touch "/a/B.ts"
    (Ledger.run [(disk, .content "/a" "B.ts"), (disk', .content "/A" "b.ts"), (disk', .clearTimes),
        (disk', .content "/a" "./b.ts")]).2.events
      = [.look 0 (.at 1), .read .text 0 (.at 1) true, .clear, .look 0 (.at 2),
        .read .text 0 (.at 2) true] := by
  decide +kernel

end Bundler

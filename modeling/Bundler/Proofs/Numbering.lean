/-
The numbers of messages.

Files are started and finished, and messages are used, in any order (`Catalogue.Act`). A use is
answered with a number (`Catalogue.answers`). What a number stands for is the message at its place, and
the messages and hints of a catalogue are only ever continued at the end (`Catalogue.keys_act`), so a
number stands for the same message and hint ever after (`Catalogue.Denotes.run`), whatever the catalogue
was in the beginning.

For a catalogue that begins without messages there is more to say: which uses get the same number, in
which order numbers are given out, and what a message knows of its uses (`Catalogue.numbered`). All of it
is kept from one act to the next, so it is shown of a list of acts with one more act at its end.
-/
import Bundler.Catalogue
import Mathlib.Data.List.Induction
import Mathlib.Data.List.Nodup

set_option autoImplicit false

namespace Bundler

/-- What a message is told from others by. -/
def Message.key (m : Message) : String × Option String := (m.message, m.hint)

namespace Catalogue

/-! ## Acts -/

/-- What is done with a catalogue: a file is started, a message with its hint is used, or the current
file is finished. -/
inductive Act where
  | start (file : String)
  | use (key : String × Option String) (withParams : Bool)
  | finish
  deriving DecidableEq

/-- Whether an act is a use. -/
def Act.isUse : Act → Bool
  | .use _ _ => true
  | _ => false

/-- A catalogue after an act. -/
def act (c : Catalogue) : Act → Catalogue
  | .start file => c.startFile file
  | .use key withParams => (c.add key.1 withParams key.2).2
  | .finish => c.finishFile

/-- A catalogue after some acts. -/
def run (c : Catalogue) (acts : List Act) : Catalogue := acts.foldl act c

/-- What is used by an act, with the number that is answered. -/
def answer? (c : Catalogue) : Act → Option ((String × Option String) × Nat)
  | .use key withParams => some (key, (c.add key.1 withParams key.2).1)
  | _ => none

/-- What is used by some acts, with the numbers that are answered. -/
def answers (c : Catalogue) : List Act → List ((String × Option String) × Nat)
  | [] => []
  | a :: acts => (c.answer? a).toList ++ (c.act a).answers acts

/-- A number stands for a message with its hint. -/
def Denotes (c : Catalogue) (id : Nat) (key : String × Option String) : Prop :=
  (c.message? id).map Message.key = some key

variable {c : Catalogue} {acts : List Act} {key : String × Option String} {id : Nat}

@[simp] theorem run_nil (c : Catalogue) : c.run [] = c := rfl

theorem run_append (c : Catalogue) (acts more : List Act) :
    c.run (acts ++ more) = (c.run acts).run more := List.foldl_append

theorem run_concat (c : Catalogue) (acts : List Act) (a : Act) :
    c.run (acts ++ [a]) = (c.run acts).act a := run_append c acts [a]

theorem answers_append (c : Catalogue) (acts more : List Act) :
    c.answers (acts ++ more) = c.answers acts ++ (c.run acts).answers more := by
  induction acts generalizing c with
  | nil => rfl
  | cons a acts ih =>
    have ih := ih (c.act a)
    simp only [List.cons_append, answers, ih, List.append_assoc]
    rfl

theorem answers_concat (c : Catalogue) (acts : List Act) (a : Act) :
    c.answers (acts ++ [a]) = c.answers acts ++ ((c.run acts).answer? a).toList := by
  simp [answers_append, answers]

/-! ## One act -/

/-- The messages with their hints, in the order of their numbers. -/
def keys (c : Catalogue) : List (String × Option String) := c.toList.map Message.key

theorem getElem?_keys (c : Catalogue) (id : Nat) : c.keys[id]? = (c.message? id).map Message.key :=
  List.getElem?_map

theorem denotes_iff : c.Denotes id key ↔ c.keys[id]? = some key := by
  unfold Denotes
  rw [getElem?_keys]

theorem length_keys (c : Catalogue) : c.keys.length = c.size := List.length_map ..

/-- The number of a message is its place, which is behind all others if it is new. -/
private theorem idOf?_eq (c : Catalogue) (key : String × Option String) :
    c.idOf? key.1 key.2 = if key ∈ c.keys then some (c.keys.idxOf key) else none := by
  have hsame : ∀ m : Message, (m.message == key.1 && m.hint == key.2) = (m.key == key) := fun m => by
    obtain ⟨message, hint⟩ := key
    exact (Bool.eq_iff_iff.mpr (by simp [Message.key])).symm
  have hplace : c.toList.findIdx (fun m => m.key == key) = c.keys.idxOf key := by
    unfold keys List.idxOf
    rw [List.findIdx_map]
    rfl
  unfold idOf?
  rw [funext hsame, List.findIdx?_eq_guard_findIdx_lt, hplace]
  simp [Option.guard, ← List.idxOf_lt_length_iff, length_keys, size]

theorem add_fst (c : Catalogue) (key : String × Option String) (withParams : Bool) :
    (c.add key.1 withParams key.2).1 = c.keys.idxOf key := by
  unfold add
  rw [idOf?_eq]
  by_cases h : key ∈ c.keys
  · simp only [h, if_true]
  · simp only [h, if_false]
    rw [List.idxOf_eq_length h, length_keys]

/-- A use changes the message that is used, which is a new one if there was none, and no other. -/
theorem message?_use (c : Catalogue) (key : String × Option String) (withParams : Bool) (id : Nat) :
    (c.act (.use key withParams)).message? id =
      if id = c.keys.idxOf key then
        some (((c.message? id).getD ⟨key.1, key.2, false, []⟩).use c.current withParams)
      else c.message? id := by
  unfold act add
  simp only
  rw [idOf?_eq]
  by_cases h : key ∈ c.keys
  · simp only [h, if_true]
    have hlt := List.idxOf_lt_length_of_mem h
    rw [length_keys] at hlt
    unfold message?
    rw [List.getElem?_modify]
    by_cases hid : id = c.keys.idxOf key
    · subst hid
      simp [List.getElem?_eq_getElem (l := c.toList) hlt]
    · simp [hid, Ne.symm hid]
  · simp only [h, if_false]
    rw [List.idxOf_eq_length h, length_keys]
    unfold message? size
    rw [List.getElem?_append]
    by_cases hid : id = c.toList.length
    · subst hid
      simp [Message.use]
    · by_cases hlt : id < c.toList.length
      · simp [hlt, hid]
      · simp [hlt, hid]
        omega

/-- The messages and hints are continued at the end, by one that is used for the first time. -/
theorem keys_act_use (c : Catalogue) (key : String × Option String) (withParams : Bool) :
    (c.act (.use key withParams)).keys = if key ∈ c.keys then c.keys else c.keys ++ [key] := by
  split
  · rename_i h
    refine List.ext_getElem? fun id => ?_
    rw [getElem?_keys, getElem?_keys, message?_use]
    split
    · rename_i hid
      obtain ⟨m, hm, -⟩ : ∃ m, c.message? id = some m ∧ m.key = key := by
        rw [← Option.map_eq_some_iff, ← getElem?_keys, hid]
        exact List.getElem?_idxOf h
      rw [hm]
      rfl
    · rfl
  · rename_i h
    unfold act add
    simp only
    rw [idOf?_eq, if_neg h]
    exact List.map_append

theorem keys_act_start (c : Catalogue) (file : String) : (c.act (.start file)).keys = c.keys := by
  unfold keys act startFile
  rw [List.map_map]
  rfl

theorem keys_act (c : Catalogue) (a : Act) : c.keys <+: (c.act a).keys := by
  cases a with
  | start file => exact (c.keys_act_start file) ▸ List.prefix_rfl
  | use key withParams =>
    rw [keys_act_use]
    split
    · exact List.prefix_rfl
    · exact List.prefix_append _ _
  | finish => exact List.prefix_rfl

/-- The number that a use is answered stands for what is used. -/
theorem denotes_answer {a : Act} (h : c.answer? a = some (key, id)) : (c.act a).Denotes id key := by
  cases a with
  | use k withParams =>
    cases h
    rw [denotes_iff, add_fst, keys_act_use]
    split
    · rename_i h
      exact List.getElem?_idxOf h
    · rename_i h
      rw [List.idxOf_eq_length h]
      exact List.getElem?_concat_length
  | start => cases h
  | finish => cases h

/-! ## Many acts -/

theorem keys_run (c : Catalogue) (acts : List Act) : c.keys <+: (c.run acts).keys := by
  induction acts generalizing c with
  | nil => exact List.prefix_rfl
  | cons a acts ih => exact (keys_act c a).trans (ih (c.act a))

/-- What a number stands for it stands for ever after. -/
theorem Denotes.run (h : c.Denotes id key) (acts : List Act) : (c.run acts).Denotes id key := by
  rw [denotes_iff] at h ⊢
  obtain ⟨hlt, rfl⟩ := List.getElem?_eq_some_iff.mp h
  exact List.prefix_iff_getElem?.mp (keys_run c acts) id hlt

/-- The number that some use was answered stands for what was used. -/
theorem denotes_of_mem_answers (h : (key, id) ∈ c.answers acts) : (c.run acts).Denotes id key := by
  induction acts generalizing c with
  | nil => cases h
  | cons a acts ih =>
    rcases List.mem_append.mp h with hfirst | hrest
    · exact (denotes_answer (Option.mem_toList.mp hfirst)).run acts
    · exact ih hrest

/-- There is a catalogue that has come from another one by some acts, or there is none and was none. -/
def Continued (c c' : Option Catalogue) : Prop := ∃ acts, c' = c.map fun c => c.run acts

theorem Continued.refl (c : Option Catalogue) : Continued c c := ⟨[], (Option.map_id' ..).symm⟩

theorem Continued.trans {c c' c'' : Option Catalogue} (h : Continued c c') (h' : Continued c' c'') :
    Continued c c'' := by
  obtain ⟨acts, rfl⟩ := h
  obtain ⟨more, rfl⟩ := h'
  refine ⟨acts ++ more, ?_⟩
  simp only [Option.map_map, Function.comp_def, run_append]

theorem Continued.isSome {c c' : Option Catalogue} (h : Continued c c') : c'.isSome = c.isSome := by
  obtain ⟨acts, rfl⟩ := h
  exact Option.isSome_map

/-! ## A catalogue from its beginning -/

/-- A file is the current one: it was started, and since then there were only uses. -/
def IsCurrent (acts : List Act) (file : String) : Prop :=
  ∃ before since, acts = before ++ .start file :: since ∧ ∀ a ∈ since, a.isUse = true

/-- A file uses a message: it did while it was the current one, and it was not started again since. -/
def UsedBy (acts : List Act) (key : String × Option String) (file : String) : Prop :=
  ∃ before withParams after, acts = before ++ .use key withParams :: after ∧ IsCurrent before file ∧
    .start file ∉ after

/-- A place in a list with one more member is its end, or a place in the list. -/
private theorem concat_eq_iff {α : Type} {as before after : List α} {a b : α} :
    as ++ [a] = before ++ b :: after ↔
      (as = before ∧ a = b ∧ after = []) ∨ ∃ more, as = before ++ b :: more ∧ after = more ++ [a] := by
  constructor
  · intro h
    rcases List.eq_nil_or_concat after with rfl | ⟨more, d, rfl⟩
    · obtain ⟨rfl, hlast⟩ := List.append_inj' h rfl
      exact .inl ⟨rfl, by simpa using hlast, rfl⟩
    · have h : as ++ [a] = (before ++ b :: more) ++ [d] := by simp [h]
      obtain ⟨rfl, hlast⟩ := List.append_inj' h rfl
      exact .inr ⟨more, rfl, by simpa using hlast.symm⟩
  · rintro (⟨rfl, rfl, rfl⟩ | ⟨more, rfl, rfl⟩)
    · rfl
    · simp

theorem isCurrent_concat {a : Act} {file : String} :
    IsCurrent (acts ++ [a]) file ↔ a = .start file ∨ a.isUse = true ∧ IsCurrent acts file := by
  unfold IsCurrent
  simp only [concat_eq_iff]
  constructor
  · rintro ⟨before, since, ⟨-, rfl, -⟩ | ⟨more, rfl, rfl⟩, hsince⟩
    · exact .inl rfl
    · refine .inr ⟨hsince a (by simp), before, more, rfl, fun b hb => hsince b ?_⟩
      exact List.mem_append_left _ hb
  · rintro (rfl | ⟨huse, before, since, rfl, hsince⟩)
    · exact ⟨acts, [], .inl ⟨rfl, rfl, rfl⟩, fun _ h => absurd h List.not_mem_nil⟩
    · refine ⟨before, since ++ [a], .inr ⟨since, rfl, rfl⟩, fun b hb => ?_⟩
      rcases List.mem_append.mp hb with hb | hb
      · exact hsince b hb
      · rwa [List.mem_singleton.mp hb]

theorem usedBy_concat {a : Act} {file : String} :
    UsedBy (acts ++ [a]) key file ↔
      (a ≠ .start file ∧ UsedBy acts key file) ∨
        (∃ withParams, a = .use key withParams) ∧ IsCurrent acts file := by
  unfold UsedBy
  simp only [concat_eq_iff]
  constructor
  · rintro ⟨before, p, after, ⟨rfl, rfl, -⟩ | ⟨more, rfl, rfl⟩, hcurrent, hafter⟩
    · exact .inr ⟨⟨p, rfl⟩, hcurrent⟩
    · rw [List.mem_append, not_or, List.mem_singleton] at hafter
      exact .inl ⟨fun h => hafter.2 h.symm, before, p, more, rfl, hcurrent, hafter.1⟩
  · rintro (⟨hne, before, p, after, rfl, hcurrent, hafter⟩ | ⟨⟨p, rfl⟩, hcurrent⟩)
    · refine ⟨before, p, after ++ [a], .inr ⟨after, rfl, rfl⟩, hcurrent, ?_⟩
      rw [List.mem_append, not_or, List.mem_singleton]
      exact ⟨hafter, fun h => hne h.symm⟩
    · exact ⟨acts, p, [], .inl ⟨rfl, rfl, rfl⟩, hcurrent, List.not_mem_nil⟩

/-- The current file is noted. -/
theorem current_run (acts : List Act) (file : String) :
    (empty.run acts).current = some file ↔ IsCurrent acts file := by
  induction acts using List.reverseRecOn with
  | nil =>
    constructor
    · intro h
      cases h
    · rintro ⟨before, since, h, -⟩
      simp at h
  | append_singleton acts a ih =>
    rw [run_concat, isCurrent_concat, ← ih]
    cases a with
    | start other => simp [act, startFile, Act.isUse]
    | use key withParams =>
      have hsame : ((empty.run acts).act (.use key withParams)).current = (empty.run acts).current := by
        unfold act add
        simp only
        split <;> rfl
      simp [hsame, Act.isUse]
    | finish => simp [act, finishFile, Act.isUse]

theorem nodup_keys_act (h : c.keys.Nodup) (a : Act) : (c.act a).keys.Nodup := by
  cases a with
  | start file => rwa [keys_act_start]
  | use key withParams =>
    rw [keys_act_use]
    split
    · exact h
    · rename_i hnew
      exact List.nodup_append.mpr ⟨h, List.nodup_singleton key, fun k hk k' hk' heq => by
        rw [List.mem_singleton.mp hk'] at heq
        exact hnew (heq ▸ hk)⟩
  | finish => exact h

/-- No two numbers stand for one message. -/
theorem nodup_keys_run (acts : List Act) : (empty.run acts).keys.Nodup := by
  induction acts using List.reverseRecOn with
  | nil => exact List.nodup_nil
  | append_singleton acts a ih =>
    rw [run_concat]
    exact nodup_keys_act ih a

/-- The messages of a catalogue are those that were used. -/
theorem mem_keys_run (acts : List Act) (key : String × Option String) :
    key ∈ (empty.run acts).keys ↔ ∃ withParams, .use key withParams ∈ acts := by
  induction acts using List.reverseRecOn with
  | nil => simp [keys, empty]
  | append_singleton acts a ih =>
    rw [run_concat]
    cases a with
    | start file => simp [keys_act_start, ih]
    | use k withParams =>
      rw [keys_act_use]
      by_cases hk : k ∈ (empty.run acts).keys
      · rw [if_pos hk, ih]
        refine ⟨fun ⟨p, hp⟩ => ⟨p, List.mem_append_left _ hp⟩, fun ⟨p, hp⟩ => ?_⟩
        rcases List.mem_append.mp hp with hp | hp
        · exact ⟨p, hp⟩
        · cases List.mem_singleton.mp hp
          exact ih.mp hk
      · rw [if_neg hk, List.mem_append, ih]
        simp only [List.mem_append, List.mem_singleton, Act.use.injEq, exists_or]
        simp
    | finish =>
      have hsame : ((empty.run acts).act .finish).keys = (empty.run acts).keys := rfl
      simp [hsame, ih]

/-- The numbers are given out one after the other. -/
theorem eraseDups_answers (acts : List Act) :
    ((empty.answers acts).map Prod.snd).eraseDups = List.range (empty.run acts).size := by
  induction acts using List.reverseRecOn with
  | nil => rfl
  | append_singleton acts a ih =>
    rw [answers_concat, List.map_append, List.eraseDups_append, ih, run_concat, ← length_keys, ← length_keys]
    cases a with
    | start file => rw [keys_act_start]; simp [answer?]
    | use key withParams =>
      have hmem : ∀ id, id ∈ (empty.answers acts).map Prod.snd ↔ id < (empty.run acts).keys.length := by
        intro id
        rw [← List.mem_eraseDups, ih, List.mem_range, length_keys]
      simp only [answer?, Option.toList_some, List.map_cons, List.map_nil]
      rw [add_fst, keys_act_use]
      -- a message that is there has a number that was given out, and a new one gets the next number
      by_cases h : key ∈ (empty.run acts).keys
      · have hold := (hmem _).mpr (List.idxOf_lt_length_of_mem h)
        simp [if_pos h, List.removeAll, hold]
      · have hnew : (empty.run acts).keys.idxOf key ∉ (empty.answers acts).map Prod.snd := by
          rw [hmem, List.idxOf_eq_length h]
          exact Nat.lt_irrefl _
        rw [if_neg h, List.length_append]
        rw [List.removeAll, List.filter_cons_of_pos (by simpa using hnew), List.filter_nil,
          List.idxOf_eq_length h, List.length_singleton, List.range_succ]
        rfl
    | finish =>
      have hsame : ((empty.run acts).act .finish).keys = (empty.run acts).keys := rfl
      simp [answer?, hsame]

/-- What a message was before a use: it is the one that is used, it is new, or it is another one. -/
theorem message?_use_cases {withParams : Bool} {m : Message} (hkeys : c.keys.Nodup)
    (h : (c.act (.use key withParams)).message? id = some m) :
    (m.key ≠ key ∧ c.message? id = some m) ∨
      (m.key = key ∧ ∃ old, c.message? id = some old ∧ old.key = key ∧ m = old.use c.current withParams) ∨
      (m.key = key ∧ key ∉ c.keys ∧
        m = Message.use ⟨key.1, key.2, false, []⟩ c.current withParams) := by
  rw [message?_use] at h
  split at h
  · rename_i hid
    obtain rfl := Option.some.inj h
    by_cases hmem : key ∈ c.keys
    · obtain ⟨old, hold, hkey⟩ : ∃ old, c.message? id = some old ∧ old.key = key := by
        rw [← Option.map_eq_some_iff, ← getElem?_keys, hid]
        exact List.getElem?_idxOf hmem
      rw [hold]
      exact .inr (.inl ⟨hkey, old, rfl, hkey, rfl⟩)
    · have hnone : c.message? id = none := by
        rw [hid, List.idxOf_eq_length hmem, length_keys]
        exact List.getElem?_eq_none (Nat.le_refl _)
      rw [hnone]
      exact .inr (.inr ⟨rfl, hmem, rfl⟩)
  · rename_i hid
    refine .inl ⟨?_, h⟩
    rintro rfl
    -- a message stands at one place only
    have hplace : c.keys[id]? = some m.key := by rw [getElem?_keys, h]; rfl
    obtain ⟨hlt, hget⟩ := List.getElem?_eq_some_iff.mp hplace
    exact hid (by rw [← hget, hkeys.idxOf_getElem])

theorem message?_start {file : String} {m : Message}
    (h : (c.act (.start file)).message? id = some m) :
    ∃ old, c.message? id = some old ∧ m.key = old.key ∧ m.withParams = old.withParams ∧
      m.files = old.files.filter (· != file) := by
  obtain ⟨old, hold, rfl⟩ := Option.map_eq_some_iff.mp (List.getElem?_map.symm.trans h)
  exact ⟨old, hold, rfl, rfl, rfl⟩

/-- Whether a message has parameters is noted when they are met. -/
theorem withParams_run (acts : List Act) {m : Message} (hm : (empty.run acts).message? id = some m) :
    m.withParams = true ↔ .use m.key true ∈ acts := by
  induction acts using List.reverseRecOn generalizing m with
  | nil => cases hm
  | append_singleton acts a ih =>
    rw [run_concat] at hm
    rw [List.mem_append, List.mem_singleton]
    cases a with
    | start file =>
      obtain ⟨old, hold, hkey, hparams, -⟩ := message?_start hm
      rw [hkey, hparams]
      simpa using ih hold
    | use key p =>
      rcases message?_use_cases (nodup_keys_run acts) hm with
        ⟨hne, hold⟩ | ⟨hkey, old, hold, holdKey, rfl⟩ | ⟨hkey, hnew, rfl⟩
      · simpa [hne] using ih hold
      · have ih := ih hold
        rw [holdKey] at ih
        rw [hkey]
        simp [Message.use, ih]
      · have hno : .use key true ∉ acts := fun h => hnew ((mem_keys_run acts key).mpr ⟨true, h⟩)
        rw [hkey]
        simp [Message.use, hno]
    | finish => simpa using ih hm

theorem Message.mem_files_use (m : Message) (current : Option String) (withParams : Bool) (file : String) :
    file ∈ (m.use current withParams).files ↔ file ∈ m.files ∨ current = some file := by
  unfold Message.use
  cases current with
  | none => simp
  | some other =>
    by_cases h : other ∈ m.files
    · have hsame : file ∈ m.files ↔ file ∈ m.files ∨ other = file :=
        ⟨.inl, fun h' => h'.elim id fun heq => heq ▸ h⟩
      simpa [h] using hsame
    · simp [h, eq_comm]

theorem Message.nodup_files_use {m : Message} (h : m.files.Nodup) (current : Option String)
    (withParams : Bool) : (m.use current withParams).files.Nodup := by
  unfold Message.use
  cases current with
  | none => exact h
  | some file =>
    by_cases hfile : file ∈ m.files
    · simpa [hfile] using h
    · simpa [hfile, List.nodup_append] using ⟨h, fun a ha heq => hfile (heq ▸ ha)⟩

/-- The files of a message are those that use it, each of them once. -/
theorem files_run (acts : List Act) {m : Message} (hm : (empty.run acts).message? id = some m) :
    m.files.Nodup ∧ ∀ file, file ∈ m.files ↔ UsedBy acts m.key file := by
  induction acts using List.reverseRecOn generalizing m with
  | nil => cases hm
  | append_singleton acts a ih =>
    rw [run_concat] at hm
    simp only [usedBy_concat]
    cases a with
    | start file =>
      obtain ⟨old, hold, hkey, -, hleft⟩ := message?_start hm
      obtain ⟨hnodup, hfiles⟩ := ih hold
      rw [hkey, hleft]
      refine ⟨hnodup.filter _, fun other => ?_⟩
      rw [List.mem_filter, hfiles, bne_iff_ne, and_comm]
      simp [ne_comm]
    | use key p =>
      rcases message?_use_cases (nodup_keys_run acts) hm with
        ⟨hne, hold⟩ | ⟨hkey, old, hold, holdKey, rfl⟩ | ⟨hkey, hnew, rfl⟩
      · obtain ⟨hnodup, hfiles⟩ := ih hold
        refine ⟨hnodup, fun file => ?_⟩
        simp [hfiles, hne.symm]
      · obtain ⟨hnodup, hfiles⟩ := ih hold
        refine ⟨Message.nodup_files_use hnodup _ _, fun file => ?_⟩
        rw [Message.mem_files_use, hfiles, hkey, holdKey, current_run]
        simp
      · refine ⟨Message.nodup_files_use List.nodup_nil _ _, fun file => ?_⟩
        -- no file has used a message that is new
        have hno : ¬UsedBy acts key file := by
          rintro ⟨before, p, after, rfl, -⟩
          exact hnew ((mem_keys_run _ key).mpr ⟨p, by simp⟩)
        rw [Message.mem_files_use, hkey, current_run]
        simp [hno]
    | finish =>
      obtain ⟨hnodup, hfiles⟩ := ih hm
      refine ⟨hnodup, fun file => ?_⟩
      simp [hfiles]

/-- What is true of a catalogue that began without messages, after some acts. -/
structure Numbered (acts : List Act) : Prop where
  /-- Two uses get the same number if they are uses of one message with one hint, and not otherwise. -/
  same : ∀ x ∈ empty.answers acts, ∀ y ∈ empty.answers acts, x.2 = y.2 ↔ x.1 = y.1
  /-- The numbers, by their first uses, are those below the number of messages, in this order. -/
  ordered : ((empty.answers acts).map Prod.snd).eraseDups = List.range (empty.run acts).size
  /-- A number stands for what was used, whatever is done from then on. -/
  lasting : ∀ x ∈ empty.answers acts, ∀ later, ((empty.run acts).run later).Denotes x.2 x.1
  withParams : ∀ id m, (empty.run acts).message? id = some m →
    (m.withParams = true ↔ .use m.key true ∈ acts)
  files : ∀ id m, (empty.run acts).message? id = some m →
    m.files.Nodup ∧ ∀ file, file ∈ m.files ↔ UsedBy acts m.key file

theorem numbered (acts : List Act) : Numbered acts where
  same x hx y hy := by
    have hx := denotes_of_mem_answers hx
    have hy := denotes_of_mem_answers hy
    constructor
    · intro heq
      rw [heq] at hx
      exact Option.some.inj (hx.symm.trans hy)
    · intro heq
      rw [heq] at hx
      rw [denotes_iff] at hx hy
      obtain ⟨hlt, -⟩ := List.getElem?_eq_some_iff.mp hx
      exact (List.getElem?_inj hlt (nodup_keys_run acts)).mp (hx.trans hy.symm)
  ordered := eraseDups_answers acts
  lasting _ hx later := (denotes_of_mem_answers hx).run later
  withParams _ _ hm := withParams_run acts hm
  files _ _ hm := files_run acts hm

end Catalogue

end Bundler

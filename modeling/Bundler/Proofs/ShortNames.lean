/-
Short names are stable and unique.

A session asks for short names and for output names again and again, in any order. Whatever it asks, the
answers come from one assignment of short names to names (`ShortNames.Shortens`): names have the same
short name just if they are the same in small letters, and a short name that was given once is given for
ever. The reserved names stand for themselves and are given to no other name. All other short names are a
word with the extension of the spelling that was met first.

Two things carry this. A word is determined by its number (`word_injective`), and a short name determines
its word and its extension, because words have letters only. So of the names that are taken, none but a
reserved one is made with a word that was not tried before, and all reserved names are made with the
same word. The search for a new name is therefore over at the latest with the second word that it tries
(`ShortNames.Settled.finds`).
-/
import Bundler.Proofs.InnerPaths

set_option autoImplicit false

namespace Bundler

open Text

/-! ## Words -/

private theorem letter_injective {j k : Nat} (hj : j < 26) (hk : k < 26) (h : letter j = letter k) :
    j = k := by
  have hall : ∀ j k : Fin 26, letter j = letter k → j = k := by decide +kernel
  exact congrArg Fin.val (hall ⟨j, hj⟩ ⟨k, hk⟩ h)

/-- A word is determined by its number. -/
theorem word_injective {m n : Nat} (h : word m = word n) : m = n := by
  induction m using word.induct generalizing n with
  | case1 m hm =>
    rw [word.eq_def m, if_pos hm, word.eq_def n] at h
    by_cases hn : n < 26
    · rw [if_pos hn] at h
      exact letter_injective hm hn (List.singleton_inj.mp h)
    · rw [if_neg hn] at h
      exact absurd (List.append_eq_singleton_iff.mp h.symm) (by simp [Path.word_ne_nil])
  | case2 m hm ih =>
    rw [word.eq_def m, if_neg hm, word.eq_def n] at h
    by_cases hn : n < 26
    · rw [if_pos hn] at h
      exact absurd (List.append_eq_singleton_iff.mp h) (by simp [Path.word_ne_nil])
    · rw [if_neg hn] at h
      obtain ⟨hfront, hlast⟩ := List.append_inj' h rfl
      have hfront := ih hfront
      have hlast := letter_injective (Nat.mod_lt _ (by decide)) (Nat.mod_lt _ (by decide))
        (List.singleton_inj.mp hlast)
      omega

namespace ShortNames

/-- A word over the small letters. -/
def IsWord (w : List Char) : Prop := w ≠ [] ∧ ∀ c ∈ w, 'a' ≤ c ∧ c ≤ 'z'

theorem isWord_word (n : Nat) : IsWord (word n) := by
  have hall : ∀ k : Fin 26, 'a' ≤ letter k ∧ letter k ≤ 'z' := by decide +kernel
  refine ⟨Path.word_ne_nil n, fun c hc => ?_⟩
  obtain ⟨k, hk, rfl⟩ := Path.isLetter_of_mem_word hc
  exact hall ⟨k, hk⟩

/-! ## Names made of a word and an ending -/

/-- The ending that a name hands on to its short name. -/
def ending (name : String) : String := lower (Path.extension name)

private theorem toList_candidate (n : Nat) (ext : String) :
    (candidate n ext).toList = word n ++ ext.toList := by
  unfold candidate
  rw [String.toList_append, String.toList_ofList]

/-- The word of a name goes up to the first point. -/
private theorem takeWhile_candidate (n : Nat) (name : String) :
    (candidate n (ending name)).toList.takeWhile (· != '.') = word n := by
  have hword : ∀ c ∈ word n, (c != '.') = true := by
    intro c hc
    obtain ⟨k, hk, rfl⟩ := Path.isLetter_of_mem_word hc
    have hpoint := Path.letter_ne hk
    simp only [List.mem_cons, not_or] at hpoint
    simpa using hpoint.2.2.1
  rw [toList_candidate, List.takeWhile_append_of_pos hword]
  rcases (Path.lower_extension name).1 with hnone | ⟨more, hmore⟩
  · simp [ending, hnone]
  · simp [ending, hmore]

/-- A name that is made of a word and an ending determines the word. -/
theorem candidate_injective {m n : Nat} {name other : String}
    (h : candidate m (ending name) = candidate n (ending other)) : m = n := by
  refine word_injective ?_
  rw [← takeWhile_candidate m name, h, takeWhile_candidate]

/-- All reserved names are made with one word. -/
theorem word_of_candidate_mem_reserved {n : Nat} {name : String}
    (h : candidate n (ending name) ∈ reserved) : word n = "bundle".toList := by
  have hall : ∀ r ∈ reserved, r.toList.takeWhile (· != '.') = "bundle".toList := by decide
  rw [← takeWhile_candidate n name]
  exact hall _ h

/-! ## The search for a new name -/

/-- The search for a word goes on from a number until it meets one that makes a new name. -/
inductive Finds (used : List String) (ext : String) : Nat → Nat → Prop
  | here {n : Nat} (h : candidate n ext ∉ used) : Finds used ext n n
  | next {n m : Nat} (h : candidate n ext ∈ used) (rest : Finds used ext (n + 1) m) :
      Finds used ext n m

variable {used : List String} {ext : String} {s : ShortNames} {m n : Nat}

theorem Finds.le (h : Finds used ext n m) : n ≤ m := by
  induction h with
  | here => exact Nat.le_refl _
  | next _ _ ih => omega

/-- What the search finds is new. -/
theorem Finds.new (h : Finds used ext n m) : candidate m ext ∉ used := by
  induction h with
  | here h => exact h
  | next _ _ ih => exact ih

/-- With enough steps the first free number is the one that the search finds. -/
theorem Finds.firstFree_eq (h : Finds used ext n m) {steps : Nat} (hsteps : m ≤ n + steps) :
    firstFree used ext steps n = m := by
  induction h generalizing steps with
  | here h =>
    cases steps with
    | zero => rfl
    | succ steps =>
      unfold firstFree
      rw [if_neg (by simpa using h)]
  | next h rest ih =>
    have hle := rest.le
    obtain ⟨steps, rfl⟩ : ∃ k, steps = k + 1 := ⟨steps - 1, by omega⟩
    unfold firstFree
    rw [if_pos (by simpa using h)]
    exact ih (by omega)

/-! ## The assignment -/

/-- An assignment of short names as it comes about from the start of a merged bundle. -/
structure Settled (s : ShortNames) : Prop where
  enabled : s.enabled = true
  /-- The reserved names stand for themselves. -/
  reserved : ∀ r ∈ reserved, s.assigned.get? r = some r
  /-- What is assigned to another name is made with a word that was tried. -/
  made : ∀ e ∈ s.assigned.toList, e.2 ∈ ShortNames.reserved ∨
    ∃ n name, n < s.counter ∧ e.2 = candidate n (ending name)
  /-- No short name is assigned twice. -/
  distinct : ∀ k l short, s.assigned.get? k = some short → s.assigned.get? l = some short → k = l

private theorem assigned_ofConfig {c : Config} (h : c.bundle = .merged) :
    (ofConfig c).assigned = .ofList (reserved.map fun n => (n, n)) := by
  unfold ofConfig
  rw [h]
  rfl

/-- At the start the reserved names are assigned to themselves and nothing else is. -/
private theorem mem_assigned_ofConfig {c : Config} (h : c.bundle = .merged) {e : String × String}
    (he : e ∈ (ofConfig c).assigned.toList) : e.1 = e.2 ∧ e.2 ∈ reserved := by
  have hall : ∀ e ∈ (OrderedMap.ofList (reserved.map fun n => (n, n))).toList,
      e.1 = e.2 ∧ e.2 ∈ reserved := by decide
  rw [assigned_ofConfig h] at he
  exact hall e he

theorem settled_ofConfig {c : Config} (h : c.bundle = .merged) : (ofConfig c).Settled where
  enabled := by
    unfold ofConfig
    rw [h]
    rfl
  reserved := by
    rw [assigned_ofConfig h]
    decide
  made e he := .inl (mem_assigned_ofConfig h he).2
  distinct k l short hk hl :=
    (mem_assigned_ofConfig h (OrderedMap.mem_of_get? hk)).1.trans
      (mem_assigned_ofConfig h (OrderedMap.mem_of_get? hl)).1.symm

/-- A word that was not tried makes a new name, unless it is the word of the reserved names. -/
private theorem Settled.word_of_used {name : String} (h : s.Settled) (hn : s.counter ≤ n)
    (hused : candidate n (ending name) ∈ s.assigned.values) : word n = "bundle".toList := by
  obtain ⟨e, he, hvalue⟩ := List.mem_map.mp hused
  rcases h.made e he with hreserved | ⟨k, other, hk, hmade⟩
  · rw [hvalue] at hreserved
    exact word_of_candidate_mem_reserved hreserved
  · have hsame := candidate_injective (hvalue.symm.trans hmade)
    omega

/-- The search for a new name comes to an end, with the first word or with the second. -/
theorem Settled.finds (h : s.Settled) (name : String) :
    ∃ n, Finds s.assigned.values (ending name) s.counter n ∧ n ≤ s.counter + 1 := by
  by_cases hfirst : candidate s.counter (ending name) ∈ s.assigned.values
  · refine ⟨s.counter + 1, .next hfirst (.here fun hsecond => ?_), Nat.le_refl _⟩
    have hone := h.word_of_used (Nat.le_refl _) hfirst
    have htwo := h.word_of_used (Nat.le_succ _) hsecond
    exact absurd (word_injective (hone.trans htwo.symm)) (by omega)
  · exact ⟨s.counter, .here hfirst, Nat.le_succ _⟩

/-- A name that has a short name keeps it, and nothing changes. -/
theorem shortName_of_assigned {name short : String} (henabled : s.enabled = true)
    (h : s.assigned.get? (lower name) = some short) : s.shortName name = (short, s) := by
  unfold shortName
  simp only [henabled, Bool.not_true, Bool.false_eq_true, if_false, h]

/-- A name that has none gets the one that the search finds. -/
theorem Settled.shortName_of_new {name : String} (h : s.Settled)
    (hnew : s.assigned.get? (lower name) = none) :
    ∃ n, Finds s.assigned.values (ending name) s.counter n ∧ n ≤ s.counter + 1 ∧
      s.shortName name = (candidate n (ending name), { s with
        assigned := s.assigned.insert (lower name) (candidate n (ending name))
        counter := n + 1 }) := by
  obtain ⟨n, hfinds, hn⟩ := h.finds name
  have hsize : 1 ≤ s.assigned.size :=
    List.length_pos_of_mem (OrderedMap.mem_of_get? (h.reserved "bundle.js" (by decide)))
  have hfree : firstFree s.assigned.values (ending name) s.assigned.size s.counter = n :=
    hfinds.firstFree_eq (by omega)
  refine ⟨n, hfinds, hn, ?_⟩
  unfold ending at hfree ⊢
  unfold shortName
  simp only [h.enabled, Bool.not_true, Bool.false_eq_true, if_false, hnew, hfree]

/-- Asking for a short name leaves the assignment settled, and the next word is one of the two behind
the last one. -/
theorem Settled.shortName (h : s.Settled) (name : String) :
    (s.shortName name).2.Settled ∧ (s.shortName name).2.counter ≤ s.counter + 2 := by
  cases hkey : s.assigned.get? (lower name) with
  | some short =>
    rw [shortName_of_assigned h.enabled hkey]
    exact ⟨h, Nat.le_add_right _ _⟩
  | none =>
    obtain ⟨n, hfinds, hn, hshort⟩ := h.shortName_of_new hkey
    have hle := hfinds.le
    rw [hshort]
    refine ⟨⟨h.enabled, fun r hr => ?_, fun e he => ?_, fun k l short hk hl => ?_⟩,
      Nat.succ_le_succ hn⟩
    · simp only [OrderedMap.get?_insert]
      split
      · rename_i heq
        rw [heq, h.reserved r hr] at hkey
        cases hkey
      · exact h.reserved r hr
    · rcases OrderedMap.mem_insert he with rfl | hold
      · exact .inr ⟨n, name, Nat.lt_succ_self n, rfl⟩
      · refine (h.made e hold).imp id ?_
        rintro ⟨k, other, hk, hmade⟩
        exact ⟨k, other, by change k < n + 1; omega, hmade⟩
    · have hfresh : ∀ k, s.assigned.get? k ≠ some (candidate n (ending name)) := fun k hk =>
        hfinds.new (List.mem_map.mpr ⟨_, OrderedMap.mem_of_get? hk, rfl⟩)
      simp only [OrderedMap.get?_insert] at hk hl
      split at hk
      · split at hl
        · rename_i hk' hl'
          exact hk'.symm.trans hl'
        · exact absurd (hl.trans hk.symm) (hfresh l)
      · split at hl
        · exact absurd (hk.trans hl.symm) (hfresh k)
        · exact h.distinct k l short hk hl

/-! ## Questions -/

/-- A question for the short name or for the output name of a name. -/
inductive Question where
  | short (name : String)
  | output (name : String)

/-- The name that a question is about. -/
def Question.name : Question → String
  | .short name | .output name => name

/-- Answers a question. -/
def ask (s : ShortNames) : Question → String × ShortNames
  | .short name => s.shortName name
  | .output name => s.shorten name

/-- Answers questions one after the other. -/
def askAll (s : ShortNames) : List Question → List String × ShortNames
  | [] => ([], s)
  | q :: qs =>
    let (answer, s) := s.ask q
    let (answers, s) := s.askAll qs
    (answer :: answers, s)

/-- What stands in front of a short name in an output name. -/
def front (s : ShortNames) : String :=
  match s.directory with
  | some directory => trimSlashes directory ++ "/"
  | none => ""

/-- The answer to a question, given what stands in front of output names and the short names. -/
def Question.answer (front : String) (short : String → String) : Question → String
  | .short name => short name
  | .output name => front ++ short name

/-- The short name that is assigned to a name. -/
def known (s : ShortNames) (name : String) : String := (s.assigned.get? (lower name)).getD name

theorem inDirectory_eq (s : ShortNames) (short : String) : s.inDirectory short = s.front ++ short := by
  unfold inDirectory front
  cases s.directory with
  | none => exact (String.empty_append).symm
  | some directory => rfl

theorem ask_snd (s : ShortNames) (q : Question) : (s.ask q).2 = (s.shortName q.name).2 := by
  cases q with
  | short name => rfl
  | output name => exact shorten_snd s name

/-- The output name is the short name with something in front, which does not depend on the name. -/
theorem ask_fst (henabled : s.enabled = true) (q : Question) :
    (s.ask q).1 = q.answer s.front fun name => (s.shortName name).1 := by
  cases q with
  | short name => rfl
  | output name =>
    change (s.shorten name).1 = _
    unfold shorten
    simp only [henabled, Bool.not_true, Bool.false_eq_true, if_false]
    rw [inDirectory_eq]
    unfold front
    rw [(keeps_shortName s name).directory]
    rfl

theorem keeps_askAll (s : ShortNames) (qs : List Question) : Keeps s (s.askAll qs).2 := by
  induction qs generalizing s with
  | nil => exact .refl s
  | cons q qs ih =>
    have hfirst : Keeps s (s.ask q).2 := by
      rw [ask_snd]
      exact keeps_shortName s q.name
    exact hfirst.trans (ih _)

/-- Questions leave the assignment settled, and each takes two words at most. -/
theorem Settled.askAll (h : s.Settled) (qs : List Question) :
    (s.askAll qs).2.Settled ∧ (s.askAll qs).2.counter ≤ s.counter + 2 * qs.length := by
  induction qs generalizing s with
  | nil => exact ⟨h, Nat.le_refl _⟩
  | cons q qs ih =>
    obtain ⟨hfirst, hcount⟩ := h.shortName q.name
    rw [← ask_snd] at hfirst hcount
    obtain ⟨hrest, hcounts⟩ := ih hfirst
    refine ⟨hrest, ?_⟩
    change ((s.ask q).2.askAll qs).2.counter ≤ _
    rw [List.length_cons]
    omega

/-- A name that was asked for has its short name in the end. -/
theorem get?_askAll (henabled : s.enabled = true) {qs : List Question} {q : Question} (hq : q ∈ qs) :
    (s.askAll qs).2.assigned.get? (lower q.name) = some ((s.askAll qs).2.known q.name) := by
  induction qs generalizing s with
  | nil => exact absurd hq List.not_mem_nil
  | cons p qs ih =>
    have hkeeps : Keeps s (s.ask p).2 := by
      rw [ask_snd]
      exact keeps_shortName s p.name
    rcases List.mem_cons.mp hq with rfl | hq
    · have hshort := get?_shortName henabled q.name
      rw [← ask_snd] at hshort
      have hlater := (keeps_askAll (s.ask q).2 qs).assigned _ _ hshort
      change ((s.ask q).2.askAll qs).2.assigned.get? _
        = some (((s.ask q).2.askAll qs).2.known q.name)
      unfold known
      rw [hlater]
      rfl
    · exact ih (hkeeps.enabled.trans henabled) hq

theorem askAll_append (s : ShortNames) (qs rs : List Question) :
    (s.askAll (qs ++ rs)).2 = ((s.askAll qs).2.askAll rs).2 := by
  induction qs generalizing s with
  | nil => rfl
  | cons q qs ih => exact ih (s.ask q).2

/-- What a name gets it has in the end. -/
theorem known_askAll (henabled : s.enabled = true) (q : Question) (qs : List Question) :
    ((s.ask q).2.askAll qs).2.known q.name = (s.shortName q.name).1 := by
  have hshort := get?_shortName henabled q.name
  rw [← ask_snd] at hshort
  unfold known
  rw [(keeps_askAll (s.ask q).2 qs).assigned _ _ hshort]
  rfl

/-- The answers to questions are those of the assignment in the end. -/
theorem askAll_fst (henabled : s.enabled = true) (qs : List Question) :
    (s.askAll qs).1 = qs.map (Question.answer s.front (s.askAll qs).2.known) := by
  induction qs generalizing s with
  | nil => rfl
  | cons q qs ih =>
    have hkeeps : Keeps s (s.ask q).2 := by
      rw [ask_snd]
      exact keeps_shortName s q.name
    have hfront : (s.ask q).2.front = s.front := by
      unfold front
      rw [hkeeps.directory]
    have hknown := known_askAll henabled q qs
    have hanswer : (s.ask q).1 = q.answer s.front ((s.ask q).2.askAll qs).2.known := by
      rw [ask_fst henabled]
      cases q with
      | short name => exact hknown.symm
      | output name => exact congrArg (s.front ++ ·) hknown.symm
    change (s.ask q).1 :: ((s.ask q).2.askAll qs).1 = _
    rw [ih (hkeeps.enabled.trans henabled), hanswer, hfront]
    rfl

/-- What questions have assigned to a name that had no short name is a word with the ending of the
spelling that was met first. -/
theorem Settled.spelled (h : s.Settled) {qs : List Question} {key short : String}
    (hnew : s.assigned.get? key = none) (hkey : (s.askAll qs).2.assigned.get? key = some short) :
    ∃ n first, (qs.map Question.name).find? (fun name => lower name = key) = some first ∧
      short = candidate n (ending first) := by
  induction qs generalizing s with
  | nil =>
    rw [show (s.askAll []).2 = s from rfl, hnew] at hkey
    cases hkey
  | cons q qs ih =>
    have hsettled := (h.shortName q.name).1
    rw [← ask_snd] at hsettled
    by_cases hname : lower q.name = key
    · subst hname
      obtain ⟨n, -, -, hshort⟩ := h.shortName_of_new hnew
      have hgot := @get?_askAll _ h.enabled (q :: qs) q List.mem_cons_self
      have hknown := known_askAll h.enabled q qs
      rw [hshort] at hknown
      rw [hkey] at hgot
      exact ⟨n, q.name, by simp, (Option.some.inj hgot).trans hknown⟩
    · have hstill : (s.ask q).2.assigned.get? key = none := by
        rw [ask_snd]
        cases hassigned : s.assigned.get? (lower q.name) with
        | some other =>
          rw [shortName_of_assigned h.enabled hassigned]
          exact hnew
        | none =>
          obtain ⟨n, -, -, hshort⟩ := h.shortName_of_new hassigned
          rw [hshort]
          simp only [OrderedMap.get?_insert, hname, if_false]
          exact hnew
      obtain ⟨n, first, hfirst, hshort⟩ := ih hsettled hstill hkey
      exact ⟨n, first, by simpa [hname] using hfirst, hshort⟩

/-! ## The law of short names -/

/-- `short` is the assignment of short names from which all questions to a merged bundle are answered. -/
structure Shortens (c : Config) (qs : List Question) (short : String → String) : Prop where
  answers : ((ofConfig c).askAll qs).1 = qs.map (Question.answer (ofConfig c).front short)
  eq_iff : ∀ p ∈ qs, ∀ q ∈ qs, short p.name = short q.name ↔ lower p.name = lower q.name
  reserved : ∀ q ∈ qs, ∀ r ∈ reserved, lower q.name = lower r → short q.name = r
  unreserved : ∀ q ∈ qs, (∀ r ∈ ShortNames.reserved, lower q.name ≠ lower r) →
    short q.name ∉ ShortNames.reserved
  /-- The word of a short name, and the spelling that was met first. -/
  spelled : ∀ q ∈ qs, (∀ r ∈ ShortNames.reserved, lower q.name ≠ lower r) →
    ∃ w first, IsWord w ∧
      (qs.map Question.name).find? (fun name => lower name = lower q.name) = some first ∧
      short q.name = String.ofList w ++ lower (Path.extension first)
  /-- The search for a new name comes to an end. The numbers of its words stay small, so that no number
  of 64 bits runs over in a session that is not longer than `2 ^ 63` questions. -/
  ends : ∀ before q behind, qs = before ++ q :: behind →
    ∀ s, ((ofConfig c).askAll before).2 = s → s.assigned.get? (lower q.name) = none →
      ∃ n, Finds s.assigned.values (ending q.name) s.counter n ∧ n < 2 * qs.length ∧
        short q.name = candidate n (ending q.name) ∧ (s.ask q).2.counter = n + 1

private theorem lower_reserved : ∀ r ∈ reserved, lower r = r := by decide +kernel

/-- Where nothing is merged a name stands for itself. -/
private theorem askAll_of_not_merged {c : Config} (h : c.bundle ≠ .merged) (qs : List Question) :
    ((ofConfig c).askAll qs).1 = qs.map Question.name := by
  have hdisabled : (ofConfig c).enabled = false := by
    unfold ofConfig
    simpa using h
  have hself : ∀ q : Question, (ofConfig c).ask q = (q.name, ofConfig c) := by
    intro q
    cases q with
    | short name =>
      change (ofConfig c).shortName name = _
      unfold shortName
      rw [hdisabled]
      rfl
    | output name =>
      change (ofConfig c).shorten name = _
      unfold shorten
      rw [hdisabled]
      rfl
  induction qs with
  | nil => rfl
  | cons q qs ih =>
    change ((ofConfig c).ask q).1 :: (((ofConfig c).ask q).2.askAll qs).1 = _
    rw [hself q, ih]
    rfl

/-- In a merged bundle the answers to all questions come from one assignment of short names, whatever
the questions and their order are. In every other mode a name stands for itself. -/
theorem askAll_ofConfig (c : Config) (qs : List Question) :
    (c.bundle ≠ .merged → ((ofConfig c).askAll qs).1 = qs.map Question.name) ∧
      (c.bundle = .merged → ∃ short, Shortens c qs short) := by
  refine ⟨fun hmode => askAll_of_not_merged hmode qs, fun hmode => ?_⟩
  have hstart := settled_ofConfig hmode
  obtain ⟨hsettled, -⟩ := hstart.askAll qs
  have hget := fun {q} (hq : q ∈ qs) => get?_askAll hstart.enabled hq
  refine ⟨((ofConfig c).askAll qs).2.known, askAll_fst hstart.enabled qs, fun p hp q hq => ?_,
    fun q hq r hr hname => ?_, fun q hq hother hshort => ?_, fun q hq hother => ?_,
    fun before q behind hqs s hs hnew => ?_⟩
  · refine ⟨fun hsame => hsettled.distinct _ _ _ (hget hp) (hsame ▸ hget hq), fun hsame => ?_⟩
    have hknown := hget hp
    rw [hsame, hget hq] at hknown
    exact (Option.some.inj hknown).symm
  · have hknown := hget hq
    rw [hname, lower_reserved r hr, hsettled.reserved r hr] at hknown
    exact (Option.some.inj hknown).symm
  · refine hother _ hshort ?_
    rw [lower_reserved _ hshort]
    exact hsettled.distinct _ _ _ (hget hq) (hsettled.reserved _ hshort)
  · have hnew : (ofConfig c).assigned.get? (lower q.name) = none := by
      refine Option.eq_none_iff_forall_not_mem.mpr fun short hshort => ?_
      obtain ⟨hself, hmem⟩ := mem_assigned_ofConfig hmode (OrderedMap.mem_of_get? hshort)
      exact hother short hmem (hself.trans (lower_reserved short hmem).symm)
    obtain ⟨n, first, hfirst, hshort⟩ := hstart.spelled hnew (hget hq)
    exact ⟨word n, first, isWord_word n, hfirst, hshort⟩
  · subst hqs
    obtain ⟨hbefore, hcount⟩ := hstart.askAll before
    rw [hs] at hbefore hcount
    obtain ⟨n, hfinds, hn, hshort⟩ := hbefore.shortName_of_new hnew
    refine ⟨n, hfinds, ?_, ?_, ?_⟩
    · have hzero : (ofConfig c).counter = 0 := rfl
      rw [List.length_append, List.length_cons]
      omega
    · rw [askAll_append, hs]
      exact (known_askAll hbefore.enabled q behind).trans (congrArg Prod.fst hshort)
    · rw [ask_snd, hshort]

/-- Five questions about four names, one of them reserved. -/
theorem askAll_five_questions :
    let c := { Config.default with bundle := .merged, outputSubDir := some "out/" }
    let qs : List Question := [.short "src/Logo.PNG", .output "SRC/logo.png", .output "BUNDLE.js",
      .output "a.css", .short "a.PNG"]
    (∃ short, Shortens c qs short) ∧
      ((ofConfig c).askAll qs).1 = ["a.png", "out/a.png", "out/bundle.js", "out/b.css", "c.png"] ∧
      ((ofConfig Config.default).askAll qs).1 = qs.map Question.name := by
  intro c qs
  exact ⟨(askAll_ofConfig c qs).2 rfl, by decide +kernel,
    (askAll_ofConfig Config.default qs).1 (by decide)⟩

end ShortNames

end Bundler

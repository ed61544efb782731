/-
How many files a program can have.

Loading goes down the imports of a file, and of theirs, with a number of steps that it was given.
This file says that the number is enough. Every file that is met is an entry file or is named by
an import that some entry has recorded, and an entry can come to no more imports than what was cached
of it leads to (`Session.importsOf`) and what is on the disk under its name. The entries have
different keys, so they stand for different files on the disk, and the imports of all of them
together are bounded by the whole of the disk (`Session.importsOn`).

The argument is in three steps: a text of some length has few imports; the chain of changes that
loading makes of an entry keeps it within its budget; and the budgets of all entries sum up to the
bound that loading is given.
-/
import Mathlib.Algebra.BigOperators.Group.Finset.Basic
import Mathlib.Algebra.Order.BigOperators.Group.Finset
import Bundler.Proofs.Nodes
import Bundler.Proofs.Search

set_option autoImplicit false

namespace Bundler

open Workspace Step

/-! ## Imports of a text -/

namespace Script

private theorem length_behindBreaks (cs : List Char) : (behindBreaks cs).length ≤ cs.length := by
  induction cs with
  | nil => exact Nat.le_refl 0
  | cons c cs ih =>
    unfold behindBreaks
    split
    · simp only [List.length_cons]
      omega
    · simp only [List.length_cons]
      omega

private theorem length_lineMatches {α : Type} (pattern : List Char → Option (α × List Char))
    (total : Nat) : ∀ (done : Nat) (lines : List (List Char)),
      (lineMatches pattern total done lines).length ≤ lines.length := by
  intro done lines
  induction lines generalizing done with
  | nil => exact Nat.le_refl 0
  | cons line lines ih =>
    unfold lineMatches
    simp only
    split
    · exact Nat.le_succ_of_le (ih done)
    · split
      · exact Nat.succ_le_succ (ih _)
      · exact Nat.le_succ_of_le (ih done)

private theorem length_statements {α : Type} (text : List Char) (ls : Literals)
    (pattern : List Char → Option (α × List Char)) :
    (statements text ls pattern).length ≤ text.length + 1 := by
  unfold statements
  refine Nat.le_trans (List.length_filter_le _ _) ?_
  refine Nat.le_trans (length_lineMatches pattern _ _ _) ?_
  unfold lineStarts
  rw [List.length_cons]
  exact Nat.succ_le_succ (length_behindBreaks text)

private theorem length_mapM {α β ε : Type} {f : α → Except ε β} :
    ∀ {as : List α} {bs : List β}, as.mapM f = .ok bs → bs.length = as.length
  | [], bs, h => by
    rw [List.mapM_nil] at h
    cases h
    rfl
  | a :: as, bs, h => by
    rw [List.mapM_cons] at h
    cases hf : f a with
    | error e =>
      rw [hf] at h
      exact absurd h (by simp [bind, Except.bind])
    | ok b =>
      cases hrest : as.mapM f with
      | error e =>
        rw [hf, hrest] at h
        exact absurd h (by simp [bind, Except.bind])
      | ok rest =>
        rw [hf, hrest] at h
        cases h
        rw [List.length_cons, List.length_cons, length_mapM hrest]

/-- A script has few imports for its length. -/
theorem length_imports_read {file source : String} {script : Script} {ds : List Diagnostic}
    (h : read file source = .ok (script, ds)) :
    script.imports.length ≤ Session.importBound source.length := by
  have hread : ∀ {imports : List Import},
      readImports source.toList (Literals.scan source.toList) = .ok imports →
      imports.length ≤ Session.importBound source.length := by
    intro imports himports
    unfold readImports at himports
    cases hnamed : (statements source.toList (Literals.scan source.toList)
        Pattern.importFrom?).mapM (importOf source.toList) with
    | error f =>
      rw [hnamed] at himports
      exact absurd himports (by simp [bind, Except.bind])
    | ok named =>
      cases hbare : (statements source.toList (Literals.scan source.toList)
          Pattern.importBare?).mapM (importOf source.toList) with
      | error f =>
        rw [hnamed, hbare] at himports
        exact absurd himports (by simp [bind, Except.bind])
      | ok bare =>
        rw [hnamed, hbare] at himports
        cases himports
        have h₁ := length_statements source.toList (Literals.scan source.toList)
          Pattern.importFrom?
        have h₂ := length_statements source.toList (Literals.scan source.toList)
          Pattern.importBare?
        rw [String.length_toList] at h₁ h₂
        rw [(Span.perm_inOrder _ _).length_eq, List.length_append, length_mapM hnamed, length_mapM hbare]
        unfold Session.importBound
        omega
  unfold read at h
  simp only [bind, Except.bind] at h
  cases himports : readImports source.toList (Literals.scan source.toList) with
  | error f =>
    rw [himports] at h
    exact absurd h (by simp)
  | ok imports =>
    rw [himports] at h
    simp only at h
    split at h
    · exact absurd h (by simp)
    · split at h
      · exact absurd h (by simp)
      · split at h
        · exact absurd h (by simp)
        · cases h
          exact hread himports

end Script

/-- The text of bytes is not longer than they are. -/
theorem Text.length_ofBytes (bytes : Bytes) : (Text.ofBytes bytes).length ≤ bytes.length := by
  have hitems : ∀ (bs : Bytes) (skip : Nat), (Text.items skip bs).length ≤ bs.length := by
    intro bs
    induction bs with
    | nil =>
      intro skip
      simp [Text.items]
    | cons b bs ih =>
      intro skip
      cases skip with
      | succ skip =>
        unfold Text.items
        exact Nat.le_succ_of_le (ih skip)
      | zero =>
        have hpiece : ∀ (k n : Nat) (c : Char), (if k = n then some c :: Text.items n bs
            else none :: Text.items k bs).length ≤ (b :: bs).length := by
          intro k n c
          split <;> exact Nat.succ_le_succ (ih _)
        unfold Text.items
        simp only
        split
        · exact Nat.succ_le_succ (ih 0)
        · exact hpiece _ _ _
  unfold Text.ofBytes Text.decodeLossy
  rw [String.length_ofList, List.length_map]
  exact hitems bytes 0

/-! ## The budget of an entry -/

/-- The number of imports that the file of a path can have. -/
def Disk.importsAt (disk : Disk) (path : String) : Nat :=
  match disk.content? path with
  | some content => Session.importBound content.length
  | none => 0

/-- How many imports an entry has recorded. -/
def Entry.importCount (e : Entry) : Nat :=
  (e.references.map fun r => r.sourceDeps.length).getD 0

/-- References, script and text of an entry lead to few imports. -/
structure Entry.Within (budget : Nat) (e : Entry) : Prop where
  references : e.importCount ≤ budget
  script : ∀ script, e.script = some script → script.imports.length ≤ budget
  text : ∀ text, e.text = some text → Session.importBound text.length ≤ budget

theorem Entry.within_importsOf (e : Entry) (more : Nat) :
    e.Within (Session.importsOf e + more) := by
  refine ⟨?_, fun script h => ?_, fun text h => ?_⟩
  · unfold Session.importsOf importCount
    omega
  · unfold Session.importsOf
    rw [h, Option.map_some, Option.getD_some]
    omega
  · unfold Session.importsOf
    rw [h, Option.map_some (a := text), Option.getD_some]
    omega

theorem Session.importBound_mono {m n : Nat} (h : m ≤ n) : importBound m ≤ importBound n := by
  unfold importBound
  omega

/-- Loading keeps an entry within a budget that allows for what is on the disk. -/
theorem Entry.Loading.within {N : String → Prop} {s : Surroundings} {e e' : Entry} {budget : Nat}
    (h : Entry.Loading N s e e') (hdisk : s.disk.importsAt e.fullName ≤ budget)
    (hw : e.Within budget) : e'.Within budget := by
  cases h with
  | reading h =>
    cases h with
    | look =>
      unfold Entry.looked
      split
      · exact hw
      · exact ⟨hw.references, hw.script, hw.text⟩
    | text =>
      unfold Entry.withText
      split
      · exact ⟨hw.references, hw.script, hw.text⟩
      · split
        · exact hw
        · split
          · rename_i bytes hread
            refine ⟨hw.references, hw.script, fun text htext => ?_⟩
            have hcontent := Disk.content?_of_read? hread
            unfold Disk.importsAt at hdisk
            rw [hcontent] at hdisk
            rw [← Option.some.inj htext]
            exact Nat.le_trans (Session.importBound_mono (Text.length_ofBytes bytes)) hdisk
          · exact ⟨hw.references, hw.script, hw.text⟩
    | buffer =>
      unfold Entry.withBuffer
      split
      · exact ⟨hw.references, hw.script, hw.text⟩
      · split
        · exact hw
        · split
          · exact ⟨hw.references, hw.script, hw.text⟩
          · exact ⟨hw.references, hw.script, hw.text⟩
  | @script file sc ds h =>
    refine ⟨hw.references, fun script hscript => ?_, hw.text⟩
    rw [← Option.some.inj hscript]
    have hlen := Script.length_imports_read h.read
    obtain ⟨-, -, text, hsome⟩ := Entry.isTextCurrent_iff.mp h.text
    rw [hsome, Option.getD_some] at hlen
    exact Nat.le_trans hlen (hw.text text hsome)
  | @references file sc deps refs h =>
    refine ⟨?_, hw.script, hw.text⟩
    obtain ⟨p, -, -, hgather⟩ := h.gathered
    change ((some refs).map fun r : References => r.sourceDeps.length).getD 0 ≤ budget
    rw [Option.map_some, Option.getD_some, References.sourceDeps_gather hgather]
    exact Nat.le_trans h.few (hw.script sc h.hasScript)

/-! ## Names of entries -/

/-- The entries of a cache have the names by which files are met. -/
def Cache.Named (dir : String) (c : Cache) : Prop :=
  ∀ i, i < c.entries.length → ∃ name, (c.entry i).fullName = Cache.canonicalName dir name ∧
    (c.entry i).key = Cache.keyOf dir name

theorem Cache.Advances.named {dir : String} {P : Entry → Entry → Prop} {c c' : Cache}
    (h : Cache.Advances dir P c c')
    (hP : ∀ e e', P e e' → e'.fullName = e.fullName ∧ e'.key = e.key)
    (hc : c.Named dir) : c'.Named dir := by
  intro i hi
  by_cases hold : i < c.entries.length
  · obtain ⟨hname, hkey⟩ := hP _ _ (h.old i hold)
    rw [hname, hkey]
    exact hc i hold
  · obtain ⟨name, hnew⟩ := h.new i (by omega) hi
    obtain ⟨hname, hkey⟩ := hP _ _ hnew
    exact ⟨name, hname, hkey⟩

/-- Different entries stand for different files on the disk. -/
theorem Cache.Named.ofString_injective {dir : String} {c : Cache} (hc : c.Named dir)
    (hkeys : c.KeysDistinct) {i j : Nat} (hi : i < c.entries.length) (hj : j < c.entries.length)
    (h : DiskPath.ofString (c.entry i).fullName = DiskPath.ofString (c.entry j).fullName) :
    i = j := by
  obtain ⟨name, hname, hkey⟩ := hc i hi
  obtain ⟨name', hname', hkey'⟩ := hc j hj
  have hnormal : ∀ name, ∃ path, Cache.canonicalName dir name = Path.normalize path := by
    intro name
    unfold Cache.canonicalName Path.join
    split
    · exact ⟨name, rfl⟩
    · split
      · exact ⟨name, rfl⟩
      · exact ⟨_, rfl⟩
  obtain ⟨path, hpath⟩ := hnormal name
  obtain ⟨path', hpath'⟩ := hnormal name'
  rw [hname, hname', hpath, hpath'] at h
  have heq := Path.ofString_normalize_injective h
  rw [← hpath, ← hpath'] at heq
  apply hkeys i j hi hj
  rw [hkey, hkey']
  unfold Cache.keyOf
  rw [heq]

/-! ## All budgets together -/

/-- Different places hold no more than the whole disk. -/
private theorem sum_importsAt_le {n : Nat} (path : Nat → DiskPath)
    (hinj : ∀ i, i < n → ∀ j, j < n → path i = path j → i = j) (size : DiskFile → Nat)
    (es : List (DiskPath × DiskFile)) :
    ∑ i ∈ Finset.range n, (((⟨es⟩ : OrderedMap DiskPath DiskFile).get? (path i)).map size).getD 0
      ≤ Session.total size (es.map (·.2)) := by
  induction es with
  | nil =>
    refine Nat.le_of_eq (Finset.sum_eq_zero fun i _ => ?_)
    rfl
  | cons e es ih =>
    have hterm : ∀ i ∈ Finset.range n,
        (((⟨e :: es⟩ : OrderedMap DiskPath DiskFile).get? (path i)).map size).getD 0
          ≤ (if e.1 = path i then size e.2 else 0)
            + (((⟨es⟩ : OrderedMap DiskPath DiskFile).get? (path i)).map size).getD 0 := by
      intro i _
      rw [OrderedMap.get?_cons]
      by_cases h : e.1 = path i
      · rw [if_pos h, if_pos h, Option.map_some, Option.getD_some]
        omega
      · rw [if_neg h, if_neg h]
        omega
    have hone : ∑ i ∈ Finset.range n, (if e.1 = path i then size e.2 else 0) ≤ size e.2 := by
      rw [← Finset.sum_filter, Finset.sum_const_nat fun _ _ => rfl]
      have hcard : ((Finset.range n).filter fun i => e.1 = path i).card ≤ 1 := by
        rw [Finset.card_le_one]
        intro i hi j hj
        rw [Finset.mem_filter, Finset.mem_range] at hi hj
        exact hinj i hi.1 j hj.1 (hi.2.symm.trans hj.2)
      calc ((Finset.range n).filter fun i => e.1 = path i).card * size e.2
          ≤ 1 * size e.2 := Nat.mul_le_mul_right _ hcard
        _ = size e.2 := Nat.one_mul _
    calc ∑ i ∈ Finset.range n,
          (((⟨e :: es⟩ : OrderedMap DiskPath DiskFile).get? (path i)).map size).getD 0
        ≤ ∑ i ∈ Finset.range n, ((if e.1 = path i then size e.2 else 0)
            + (((⟨es⟩ : OrderedMap DiskPath DiskFile).get? (path i)).map size).getD 0) :=
          Finset.sum_le_sum hterm
      _ = ∑ i ∈ Finset.range n, (if e.1 = path i then size e.2 else 0)
            + ∑ i ∈ Finset.range n,
              (((⟨es⟩ : OrderedMap DiskPath DiskFile).get? (path i)).map size).getD 0 :=
          Finset.sum_add_distrib
      _ ≤ size e.2 + Session.total size (es.map (·.2)) := Nat.add_le_add hone ih
      _ = Session.total size ((e :: es).map (·.2)) := rfl

private theorem sum_entries (c : Cache) (f : Entry → Nat) {n : Nat}
    (hn : c.entries.length ≤ n) (hblank : f (.blank "" "") = 0) :
    ∑ i ∈ Finset.range n, f (c.entry i) = Session.total f c.entries := by
  have hshort : ∑ i ∈ Finset.range c.entries.length, f (c.entry i) = Session.total f c.entries := by
    clear hn
    obtain ⟨es, reads⟩ := c
    simp only
    induction es with
    | nil => rfl
    | cons e es ih =>
      rw [List.length_cons, Finset.sum_range_succ', Nat.add_comm]
      exact congrArg (f e + ·) ih
  rw [← hshort]
  symm
  apply Finset.sum_subset
  · intro i hi
    rw [Finset.mem_range] at hi ⊢
    omega
  · intro i _ hi
    rw [Finset.mem_range, Nat.not_lt] at hi
    unfold Cache.entry
    rw [List.getElem?_eq_none hi]
    exact hblank

/-- However far loading has come, the imports that are recorded are no more than what was cached
when it began and what is on the disk lead to. -/
theorem importCount_le {N : String → Prop} {w w' : Workspace}
    (h : (Frame.loads N).Moves w w') (hnamed : w.cache.Named w.project.dir)
    (hkeys : w.cache.KeysDistinct) :
    ∑ i ∈ Finset.range w'.cache.entries.length, (w'.cache.entry i).importCount
      ≤ Session.total Session.importsOf w.cache.entries + Session.importsOn w.disk := by
  have hnamed' : w'.cache.Named w.project.dir :=
    h.cache.named (fun e e' hP => by
      have hloads := Entry.loads_of_chain hP
      exact ⟨hloads.fullName, hloads.key⟩) hnamed
  have hkeys' : w'.cache.KeysDistinct := h.cache.distinct hkeys
  -- an entry starts from what was cached of it, or from nothing
  have hstart : ∀ i, i < w'.cache.entries.length → (w'.cache.entry i).importCount
      ≤ Session.importsOf (w.cache.entry i) + w.disk.importsAt (w'.cache.entry i).fullName := by
    have hchain : ∀ {e e' : Entry}, Relation.ReflTransGen (Entry.Loading N w.surroundings) e e' →
        e'.importCount ≤ Session.importsOf e + w.disk.importsAt e'.fullName := by
      intro e e' hP
      have hboth : e'.fullName = e.fullName ∧
          e'.Within (Session.importsOf e + w.disk.importsAt e.fullName) := by
        refine Entry.chain_keeps (P := fun e' => e'.fullName = e.fullName ∧
          e'.Within (Session.importsOf e + w.disk.importsAt e.fullName)) ?_ hP
          ⟨rfl, e.within_importsOf _⟩
        rintro e₁ e₂ hstep ⟨hname, hwithin⟩
        refine ⟨hstep.loads.fullName.trans hname, hstep.within ?_ hwithin⟩
        rw [hname]
        exact Nat.le_add_left _ _
      rw [hboth.1]
      exact hboth.2.references
    intro i hi
    by_cases hold : i < w.cache.entries.length
    · exact hchain (h.cache.old i hold)
    · obtain ⟨name, hnew⟩ := h.cache.new i (by omega) hi
      have hzero := hchain hnew
      have hblank : ∀ fullName key, Session.importsOf (.blank fullName key) = 0 := fun _ _ => rfl
      rw [hblank] at hzero
      omega
  have hdisk : ∑ i ∈ Finset.range w'.cache.entries.length,
      w.disk.importsAt (w'.cache.entry i).fullName ≤ Session.importsOn w.disk := by
    have hsum := sum_importsAt_le (n := w'.cache.entries.length)
      (fun i => DiskPath.ofString (w'.cache.entry i).fullName)
      (fun i hi j hj => hnamed'.ofString_injective hkeys' hi hj)
      (fun f => Session.importBound f.content.length) w.disk.files.toList
    refine Nat.le_trans (Nat.le_of_eq (Finset.sum_congr rfl fun i _ => ?_)) (Nat.le_trans hsum ?_)
    · unfold Disk.importsAt Disk.content?
      cases w.disk.files.get? (DiskPath.ofString (w'.cache.entry i).fullName) with
      | none => rfl
      | some f => rfl
    · exact Nat.le_refl _
  calc ∑ i ∈ Finset.range w'.cache.entries.length, (w'.cache.entry i).importCount
      ≤ ∑ i ∈ Finset.range w'.cache.entries.length, (Session.importsOf (w.cache.entry i)
          + w.disk.importsAt (w'.cache.entry i).fullName) :=
        Finset.sum_le_sum fun i hi => hstart i (Finset.mem_range.mp hi)
    _ = ∑ i ∈ Finset.range w'.cache.entries.length, Session.importsOf (w.cache.entry i)
          + ∑ i ∈ Finset.range w'.cache.entries.length,
            w.disk.importsAt (w'.cache.entry i).fullName := Finset.sum_add_distrib
    _ ≤ Session.total Session.importsOf w.cache.entries + Session.importsOn w.disk := by
        rw [sum_entries w.cache Session.importsOf h.cache.longer rfl]
        exact Nat.add_le_add_left hdisk _

end Bundler

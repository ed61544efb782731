/-
Counts that keep up with their messages.

The messages of a build come with the numbers of errors and warnings among them, and the list is never
counted again: a message that is added raises one of the numbers, and messages that are dropped lower
both by as many as leave. A build writes nothing while the number of errors is above zero, so if it drifted
away from the list, a build would be held back without an error or let through in spite of one.

It does not drift. A count that is right stays right with every act (`Messages.InStep.act`), whatever is
added and whichever files are dropped, and so no count is ever lowered by more than it is. To say the
latter, the messages are dropped a second time in the way of a loop: one pass that keeps or counts each
message as it comes, and then a subtraction that is a fault below zero (`Messages.retainStrictly`). Acts that
are carried out in this way never meet the fault (`Messages.runStrictly_ok`).

What is left in the end is told by the acts alone: each message that was added and whose file is kept by
every act that came later, in the order in which they were added (`Messages.toList_run`).
-/
import Bundler.Diagnostic

set_option autoImplicit false

namespace Bundler.Messages

variable {m : Messages} {severity : Severity}

/-! ## Acts -/

/-- What is done with the messages of a build: one is added, those of a file are dropped, or those of all
files that a predicate does not accept. -/
inductive Act where
  | add (d : Diagnostic)
  | clearFile (file : String)
  | retainFiles (keep : String → Bool)

/-- Whether an act leaves the messages of a file where they are. -/
def Act.keeps : Act → String → Bool
  | .add _, _ => true
  | .clearFile file, name => name != file
  | .retainFiles keep, name => keep name

/-- What an act adds. -/
def Act.added : Act → List Diagnostic
  | .add d => [d]
  | _ => []

/-- The messages after an act. -/
def act (m : Messages) : Act → Messages
  | .add d => m.add d
  | .clearFile file => m.clearFile file
  | .retainFiles keep => m.retainFiles keep

/-- The messages after some acts. -/
def run (m : Messages) (acts : List Act) : Messages := acts.foldl act m

/-- What some acts add and no later one of them drops. -/
def survivors : List Act → List Diagnostic
  | [] => []
  | a :: later => a.added.filter (fun d => later.all fun b => b.keeps d.file) ++ survivors later

/-! ## Counts in step -/

/-- The count of a severity. -/
def counter (m : Messages) : Severity → Nat
  | .error => m.errors
  | .warning => m.warnings

/-- The count of a severity is the number of the messages that have it. -/
def InStep (severity : Severity) (m : Messages) : Prop := m.counter severity = countOf severity m.toList

theorem toList_add (m : Messages) (d : Diagnostic) : (m.add d).toList = m.toList ++ [d] := by
  unfold add
  cases d.severity with
  | error => rfl
  | warning => rfl

theorem counter_add (m : Messages) (d : Diagnostic) (severity : Severity) :
    (m.add d).counter severity = m.counter severity + countOf severity [d] := by
  unfold add countOf
  cases hd : d.severity with
  | error => cases severity <;> simp [counter, hd]
  | warning => cases severity <;> simp [counter, hd]

theorem counter_retainFiles (m : Messages) (keep : String → Bool) (severity : Severity) :
    (m.retainFiles keep).counter severity
      = m.counter severity - countOf severity (m.toList.filter fun d => !keep d.file) := by
  cases severity with
  | error => rfl
  | warning => rfl

/-- A message is kept or it is dropped. -/
theorem countOf_eq_add (severity : Severity) (keep : String → Bool) (ds : List Diagnostic) :
    countOf severity ds = countOf severity (ds.filter fun d => keep d.file)
      + countOf severity (ds.filter fun d => !keep d.file) :=
  List.countP_eq_countP_filter_add ds _ _

theorem InStep.add (h : m.InStep severity) (d : Diagnostic) : (m.add d).InStep severity := by
  unfold InStep at h ⊢
  rw [counter_add, toList_add, h]
  exact List.countP_append.symm

theorem InStep.retainFiles (h : m.InStep severity) (keep : String → Bool) :
    (m.retainFiles keep).InStep severity := by
  have hsplit := countOf_eq_add severity keep m.toList
  have hkept : (m.retainFiles keep).toList = m.toList.filter fun d => keep d.file := rfl
  unfold InStep at h ⊢
  rw [counter_retainFiles, hkept, h]
  omega

/-- A count that is right stays right. -/
theorem InStep.act (h : m.InStep severity) (a : Act) : (m.act a).InStep severity := by
  cases a with
  | add d => exact h.add d
  | clearFile file => exact h.retainFiles _
  | retainFiles keep => exact h.retainFiles keep

theorem InStep.run (h : m.InStep severity) (acts : List Act) : (m.run acts).InStep severity := by
  induction acts generalizing m with
  | nil => exact h
  | cons a acts ih => exact ih (h.act a)

theorem inStep_empty (severity : Severity) : empty.InStep severity := by
  cases severity with
  | error => rfl
  | warning => rfl

/-! ## Dropping in one pass -/

/-- A pass over messages: what it has kept, and how many errors and warnings it has not. -/
structure Sweep where
  kept : List Diagnostic
  errors : Nat
  warnings : Nat

/-- A pass comes to a message. -/
def Sweep.step (keep : String → Bool) (w : Sweep) (d : Diagnostic) : Sweep :=
  if keep d.file then { w with kept := w.kept ++ [d] }
  else
    match d.severity with
    | .error => { w with errors := w.errors + 1 }
    | .warning => { w with warnings := w.warnings + 1 }

/-- A count after a loss. There is none below zero. -/
def lower (count loss : Nat) : Except Fault Nat :=
  if loss ≤ count then .ok (count - loss) else .error .overflow

/-- Keeps the messages of the files that `keep` accepts, in one pass, and lowers the counts by those that it
has met and not kept. -/
def retainStrictly (m : Messages) (keep : String → Bool) : Except Fault Messages := do
  let w := m.toList.foldl (Sweep.step keep) ⟨[], 0, 0⟩
  let errors ← lower m.errors w.errors
  let warnings ← lower m.warnings w.warnings
  return ⟨errors, warnings, w.kept⟩

/-- The messages after an act, where no count may be lowered below zero. -/
def actStrictly (m : Messages) : Act → Except Fault Messages
  | .add d => .ok (m.add d)
  | .clearFile file => m.retainStrictly fun name => name != file
  | .retainFiles keep => m.retainStrictly keep

/-- The messages after some acts, where no count may be lowered below zero. -/
def runStrictly (m : Messages) (acts : List Act) : Except Fault Messages := acts.foldlM actStrictly m

/-- A pass keeps what a filter keeps, and counts what the filter drops. -/
theorem foldl_sweep (keep : String → Bool) (w : Sweep) (ds : List Diagnostic) :
    ds.foldl (Sweep.step keep) w
      = ⟨w.kept ++ ds.filter (fun d => keep d.file),
          w.errors + countOf .error (ds.filter fun d => !keep d.file),
          w.warnings + countOf .warning (ds.filter fun d => !keep d.file)⟩ := by
  induction ds generalizing w with
  | nil => simp [countOf]
  | cons d ds ih =>
    rw [List.foldl_cons, ih]
    unfold Sweep.step
    by_cases hkeep : keep d.file = true
    · simp [hkeep]
    · cases hd : d.severity with
      | error => simp [hkeep, hd, countOf, Nat.add_assoc, Nat.add_comm 1]
      | warning => simp [hkeep, hd, countOf, Nat.add_assoc, Nat.add_comm 1]

theorem InStep.lower_ok (h : m.InStep severity) (keep : String → Bool) :
    lower (m.counter severity) (countOf severity (m.toList.filter fun d => !keep d.file))
      = .ok ((m.retainFiles keep).counter severity) := by
  have hsplit := countOf_eq_add severity keep m.toList
  unfold InStep at h
  unfold lower
  rw [if_pos (by omega), counter_retainFiles]

/-- Where the counts are right, as many messages leave as the counts can lose. -/
theorem retainStrictly_ok (h : ∀ severity, m.InStep severity) (keep : String → Bool) :
    m.retainStrictly keep = .ok (m.retainFiles keep) := by
  have herrors := (h .error).lower_ok keep
  have hwarnings := (h .warning).lower_ok keep
  unfold retainStrictly
  simp only [foldl_sweep, List.nil_append, Nat.zero_add]
  change lower m.errors _ = _ at herrors
  change lower m.warnings _ = _ at hwarnings
  rw [herrors, hwarnings]
  rfl

theorem actStrictly_ok (h : ∀ severity, m.InStep severity) (a : Act) :
    m.actStrictly a = .ok (m.act a) := by
  cases a with
  | add d => rfl
  | clearFile file => exact retainStrictly_ok h _
  | retainFiles keep => exact retainStrictly_ok h keep

/-- No count is lowered below zero. -/
theorem runStrictly_ok (h : ∀ severity, m.InStep severity) (acts : List Act) :
    m.runStrictly acts = .ok (m.run acts) := by
  induction acts generalizing m with
  | nil => rfl
  | cons a acts ih =>
    have hrest := ih fun severity => (h severity).act a
    unfold runStrictly at hrest ⊢
    rw [List.foldlM_cons, actStrictly_ok h a]
    exact hrest

/-- Counts that are wrong can meet the fault: an error that was not counted cannot leave. -/
example : (⟨0, 0, [⟨.error, "a.ts", .none, "KS2", "x"⟩]⟩ : Messages).retainStrictly (fun _ => false)
    = .error .overflow := rfl

/-! ## What is left -/

theorem toList_act (m : Messages) (a : Act) :
    (m.act a).toList = m.toList.filter (fun d => a.keeps d.file) ++ a.added := by
  cases a with
  | add d =>
    have hall : m.toList.filter (fun d' => (Act.add d).keeps d'.file) = m.toList :=
      List.filter_eq_self.mpr fun _ _ => rfl
    rw [hall]
    exact toList_add m d
  | clearFile file => exact (List.append_nil _).symm
  | retainFiles keep => exact (List.append_nil _).symm

/-- What is left after some acts: of what was there what every act keeps, and what survives of that which
the acts add. -/
theorem toList_run (m : Messages) (acts : List Act) :
    (m.run acts).toList
      = m.toList.filter (fun d => acts.all fun a => a.keeps d.file) ++ survivors acts := by
  induction acts generalizing m with
  | nil =>
    have hall : m.toList.filter (fun _ => true) = m.toList := List.filter_eq_self.mpr fun _ _ => rfl
    exact (hall.symm.trans (List.append_nil _).symm)
  | cons a acts ih =>
    have hrest := ih (m.act a)
    rw [toList_act, List.filter_append, List.filter_filter, List.append_assoc] at hrest
    have hall : ∀ d : Diagnostic, ((a :: acts).all fun b => b.keeps d.file)
        = ((acts.all fun b => b.keeps d.file) && a.keeps d.file) := by
      intro d
      rw [List.all_cons, Bool.and_comm]
    simp only [hall]
    exact hrest

/-- **Counts never drift.** Whatever is added, cleared and retained, in whatever order: no count is lowered
below zero, the counts are the numbers of errors and warnings that are held, and the messages that are held
are those that were added and whose file every later act keeps, in the order in which they were added. -/
theorem run_inStep (acts : List Act) :
    empty.runStrictly acts = .ok (empty.run acts) ∧
      ((empty.run acts).errors = countOf .error (empty.run acts).toList ∧
        (empty.run acts).warnings = countOf .warning (empty.run acts).toList) ∧
      (empty.run acts).toList = survivors acts := by
  refine ⟨runStrictly_ok inStep_empty acts, ⟨?_, ?_⟩, ?_⟩
  · exact (inStep_empty .error).run acts
  · exact (inStep_empty .warning).run acts
  · exact toList_run empty acts

end Bundler.Messages

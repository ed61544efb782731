/-
How to reason about steps.

A step starts in a state and ends in a state, with an answer or early. Two kinds of facts are
proved about it, and each kind has its own rules here.

The first kind is a law: something that holds between the first state and the last of every step,
however the step ends, because each of its parts obeys it and the law can be put together. What a
law says about an early end may depend on the state in which the step started, so that a law can
say, for instance, that a build without a bundle ends early by a fault only. The rules follow the
way in which steps are written: one after the other, over a list, or on a part of the state.

The second kind is what a step does when it ends with an answer. There the step is taken apart:
an answer of `x >>= f` comes from an answer of `x` and one of `f`, and so on down to the changes
that the step is made of.
-/
import Mathlib.Data.List.Basic
import Bundler.Workspace

set_option autoImplicit false

namespace Bundler.Step

variable {σ τ α β : Type}

/-! ## Laws -/

/-- A law of steps: what holds between the states of a step, and how it may end early. -/
structure Law (σ : Type) where
  moves : σ → σ → Prop
  fails : σ → Failure → Prop
  refl : ∀ s, moves s s
  trans : ∀ {s t u}, moves s t → moves t u → moves s u
  /-- An early end that is allowed later on was allowed from the start. -/
  back : ∀ {s t e}, moves s t → fails t e → fails s e
  /-- A fault can always happen. -/
  fault : ∀ s f, fails s (.fault f)

/-- Whether the end of a step obeys a law, given where the step started. -/
def Law.Allows (L : Law σ) (s : σ) : EStateM.Result Failure σ α → Prop
  | .ok _ t => L.moves s t
  | .error e t => L.moves s t ∧ L.fails s e

/-- The state in which a step ends, with an answer or early. -/
def final : EStateM.Result Failure σ α → σ
  | .ok _ t => t
  | .error _ t => t

/-- The answer of a step that does not end early. -/
def answer? : EStateM.Result Failure σ α → Option α
  | .ok a _ => some a
  | .error _ _ => none

theorem ok_of_answer? {r : EStateM.Result Failure σ α} {a : α} (h : answer? r = some a) :
    r = .ok a (final r) := by
  cases r with
  | ok b t =>
    cases h
    rfl
  | error e t => cases h

theorem Law.Allows.final {L : Law σ} {s : σ} {r : EStateM.Result Failure σ α} (h : L.Allows s r) :
    L.moves s (final r) := by
  cases r with
  | ok a t => exact h
  | error e t => exact h.1

/-- A step obeys a law in every state. -/
def Obeys (L : Law σ) (step : Step σ α) : Prop := ∀ s, L.Allows s (step s)

/-- The law under which a step may do anything that keeps an invariant. -/
def Law.keeping (I : σ → Prop) : Law σ where
  moves s t := I s → I t
  fails _ _ := True
  refl _ h := h
  trans h₁ h₂ h := h₂ (h₁ h)
  back _ _ := trivial
  fault _ _ := trivial

/-- The law that allows every early end. -/
def Law.free (L : Law σ) : Law σ where
  moves := L.moves
  fails _ _ := True
  refl := L.refl
  trans := L.trans
  back _ _ := trivial
  fault _ _ := trivial

/-- Two laws at once. -/
def Law.and (L L' : Law σ) : Law σ where
  moves s t := L.moves s t ∧ L'.moves s t
  fails s e := L.fails s e ∧ L'.fails s e
  refl s := ⟨L.refl s, L'.refl s⟩
  trans h h' := ⟨L.trans h.1 h'.1, L'.trans h.2 h'.2⟩
  back h h' := ⟨L.back h.1 h'.1, L'.back h.2 h'.2⟩
  fault s f := ⟨L.fault s f, L'.fault s f⟩

variable {L : Law σ}

theorem Law.Allows.and {L' : Law σ} {s : σ} {r : EStateM.Result Failure σ α}
    (h : L.Allows s r) (h' : L'.Allows s r) : (L.and L').Allows s r := by
  cases r with
  | ok a t => exact ⟨h, h'⟩
  | error e t => exact ⟨⟨h.1, h'.1⟩, h.2, h'.2⟩

/-- Where a law allows every early end, only the states matter. -/
theorem Law.Allows.of_free {s : σ} {r : EStateM.Result Failure σ α} (hfails : ∀ e, L.fails s e)
    (h : L.free.Allows s r) : L.Allows s r := by
  cases r with
  | ok a t => exact h
  | error e t => exact ⟨h.1, hfails e⟩

/-- The state in which a step ends is one that the law leads to. -/
theorem Obeys.ok {step : Step σ α} (h : Obeys L step) {s t : σ} {a : α}
    (hs : step s = .ok a t) : L.moves s t := by
  have hall := h s
  rw [hs] at hall
  exact hall

theorem Obeys.early {step : Step σ α} (h : Obeys L step) {s t : σ} {e : Failure}
    (hs : step s = .error e t) : L.moves s t ∧ L.fails s e := by
  have hall := h s
  rw [hs] at hall
  exact hall

/-- What a law allows every law allows that follows from it. -/
theorem Law.Allows.weaken {L' : Law σ} {s : σ} {r : EStateM.Result Failure σ α} (h : L.Allows s r)
    (hmoves : ∀ {t}, L.moves s t → L'.moves s t) (hfails : ∀ e, L.fails s e → L'.fails s e) :
    L'.Allows s r := by
  cases r with
  | ok a t => exact hmoves h
  | error e t => exact ⟨hmoves h.1, hfails e h.2⟩

theorem Obeys.weaken {L' : Law σ} {step : Step σ α} (h : Obeys L step)
    (hmoves : ∀ {s t}, L.moves s t → L'.moves s t) (hfails : ∀ s e, L.fails s e → L'.fails s e) :
    Obeys L' step := fun s => (h s).weaken hmoves (hfails s)

theorem obeys_pure (a : α) : Obeys L (pure a : Step σ α) := fun s => L.refl s

theorem obeys_get : Obeys L (get : Step σ σ) := fun s => L.refl s

theorem obeys_modify {f : σ → σ} (h : ∀ s, L.moves s (f s)) :
    Obeys L (modify f : Step σ PUnit) := fun s => h s

theorem obeys_modifyGet {f : σ → α × σ} (h : ∀ s, L.moves s (f s).2) :
    Obeys L (modifyGet f : Step σ α) := fun s => h s

theorem obeys_throw {e : Failure} (h : ∀ s, L.fails s e) :
    Obeys L (throw e : Step σ α) := fun s => ⟨L.refl s, h s⟩

/-- A step that may only fault obeys every law. -/
theorem obeys_lift (x : Except Fault α) : Obeys L (monadLift x : Step σ α) := by
  intro s
  cases x with
  | ok a => exact L.refl s
  | error f => exact ⟨L.refl s, L.fault s f⟩

/-- What a law allows later on it allows from the start. -/
theorem Law.Allows.after {s t : σ} {r : EStateM.Result Failure σ α} (hm : L.moves s t)
    (h : L.Allows t r) : L.Allows s r := by
  cases r with
  | ok a u => exact L.trans hm h
  | error e u => exact ⟨L.trans hm h.1, L.back hm h.2⟩

/-- Two steps are followed from an earlier state. -/
theorem Law.Allows.bind_from {x : Step σ α} {f : α → Step σ β} {r s : σ} (hx : L.Allows r (x s))
    (hf : ∀ a t, x s = .ok a t → L.moves r t → L.Allows r (f a t)) : L.Allows r ((x >>= f) s) := by
  change L.Allows r (EStateM.bind x f s)
  unfold EStateM.bind
  cases hxs : x s with
  | error e t =>
    rw [hxs] at hx
    exact hx
  | ok a t =>
    rw [hxs] at hx
    exact hf a t hxs hx

/-- The law goes on from where the first step ends. -/
theorem Law.Allows.bind {x : Step σ α} {f : α → Step σ β} {s : σ} (hx : L.Allows s (x s))
    (hf : ∀ a t, x s = .ok a t → L.Allows t (f a t)) : L.Allows s ((x >>= f) s) :=
  hx.bind_from fun a t ht hm => (hf a t ht).after hm

theorem Obeys.bind {x : Step σ α} {f : α → Step σ β} (hx : Obeys L x)
    (hf : ∀ a, Obeys L (f a)) : Obeys L (x >>= f) :=
  fun s => (hx s).bind fun a t _ => hf a t

theorem Obeys.map {x : Step σ α} (hx : Obeys L x) (f : α → β) : Obeys L (f <$> x) := by
  intro s
  have hs := hx s
  change L.Allows s (EStateM.map f x s)
  unfold EStateM.map
  cases hxs : x s with
  | ok a t =>
    rw [hxs] at hs
    exact hs
  | error e t =>
    rw [hxs] at hs
    exact hs

/-! ## Laws where something is known -/

/-- A step obeys a law in every state of which something is known. -/
def ObeysWhere (L : Law σ) (I : σ → Prop) (step : Step σ α) : Prop := ∀ s, I s → L.Allows s (step s)

theorem ObeysWhere.of_obeys {I : σ → Prop} {step : Step σ α} (h : Obeys L step) :
    ObeysWhere L I step := fun s _ => h s

/-- What is known goes on to be known if the law keeps it. -/
theorem ObeysWhere.bind {I : σ → Prop} (hkeep : ∀ {s t}, L.moves s t → I s → I t) {x : Step σ α}
    {f : α → Step σ β} (hx : ObeysWhere L I x) (hf : ∀ a, ObeysWhere L I (f a)) :
    ObeysWhere L I (x >>= f) := by
  intro s hs
  have hfirst := hx s hs
  refine hfirst.bind fun a t ht => hf a t ?_
  rw [ht] at hfirst
  exact hkeep hfirst hs

/-! ## Laws over lists -/

theorem obeys_forM {f : α → Step σ PUnit} (h : ∀ a, Obeys L (f a)) :
    ∀ as : List α, Obeys L (as.forM f)
  | [] => obeys_pure _
  | a :: as => (h a).bind fun _ => obeys_forM h as

/-- The same where something is known of each member that the law keeps. -/
theorem allows_forM {I : σ → α → Prop} {f : α → Step σ PUnit}
    (hkeep : ∀ {s t a}, L.moves s t → I s a → I t a) (h : ∀ a s, I s a → L.Allows s (f a s))
    (as : List α) (s : σ) (hs : ∀ a ∈ as, I s a) : L.Allows s (as.forM f s) := by
  induction as generalizing s with
  | nil => exact L.refl s
  | cons a as ih =>
    have hone := h a s (hs a List.mem_cons_self)
    refine hone.bind fun u t ht => ih t fun b hb => ?_
    rw [ht] at hone
    exact hkeep hone (hs b (List.mem_cons_of_mem a hb))

theorem obeys_foldlM {f : β → α → Step σ β} (h : ∀ b a, Obeys L (f b a)) :
    ∀ (as : List α) (b : β), Obeys L (as.foldlM f b)
  | [], b => obeys_pure b
  | a :: as, b => (h b a).bind fun b => obeys_foldlM h as b

theorem obeys_mapM {f : α → Step σ β} (h : ∀ a, Obeys L (f a)) (as : List α) :
    Obeys L (as.mapM f) := by
  induction as with
  | nil => exact obeys_pure []
  | cons a as ih =>
    rw [List.mapM_cons]
    exact (h a).bind fun b => ih.bind fun bs => obeys_pure (b :: bs)

theorem obeys_filterAuxM {f : α → Step σ Bool} (h : ∀ a, Obeys L (f a)) :
    ∀ (as acc : List α), Obeys L (as.filterAuxM f acc)
  | [], bs => obeys_pure bs
  | a :: as, _ => (h a).bind fun _ => obeys_filterAuxM h as _

theorem obeys_filterM {f : α → Step σ Bool} (h : ∀ a, Obeys L (f a)) (as : List α) :
    Obeys L (as.filterM f) :=
  (obeys_filterAuxM h as []).bind fun bs => obeys_pure bs.reverse

/-! ## Laws on a part of the state -/

/-- A step on a part obeys a law of the whole if it obeys a law of the part that the law of the
whole follows from. -/
theorem obeys_on {L' : Law τ} {part : τ → σ} {put : τ → σ → τ} {step : Step σ α}
    (hmoves : ∀ t s, L.moves (part t) s → L'.moves t (put t s))
    (hfails : ∀ t e, L.fails (part t) e → L'.fails t e) (h : Obeys L step) :
    Obeys L' (step.on part put) := by
  intro t
  have hs := h (part t)
  unfold Step.on
  cases hp : step (part t) with
  | ok a s =>
    rw [hp] at hs
    exact hmoves t s hs
  | error e s =>
    rw [hp] at hs
    exact ⟨hmoves t s hs.1, hfails t e hs.2⟩

/-! ## Answers -/

@[simp] theorem pure_ok_iff (a b : α) (s t : σ) :
    (pure a : Step σ α) s = .ok b t ↔ a = b ∧ s = t := by
  change EStateM.Result.ok a s = .ok b t ↔ _
  simp only [EStateM.Result.ok.injEq]

@[simp] theorem bind_ok_iff (x : Step σ α) (f : α → Step σ β) (b : β) (s u : σ) :
    (x >>= f) s = .ok b u ↔ ∃ a t, x s = .ok a t ∧ f a t = .ok b u := by
  change EStateM.bind x f s = .ok b u ↔ _
  unfold EStateM.bind
  cases x s with
  | ok a t =>
    constructor
    · intro h
      exact ⟨a, t, rfl, h⟩
    · rintro ⟨a', t', hx, hf⟩
      cases hx
      exact hf
  | error e t => simp

/-- A step goes on from the answer of the one before it. -/
theorem bind_of_ok {x : Step σ α} {f : α → Step σ β} {s t : σ} {a : α} (h : x s = .ok a t) :
    (x >>= f) s = f a t := by
  change EStateM.bind x f s = f a t
  unfold EStateM.bind
  rw [h]

/-- Where a step ends early nothing follows it. -/
theorem bind_of_error {x : Step σ α} {f : α → Step σ β} {s t : σ} {e : Failure}
    (h : x s = .error e t) : (x >>= f) s = .error e t := by
  change EStateM.bind x f s = .error e t
  unfold EStateM.bind
  rw [h]

/-- Steps one after the other do the same from a state if each of them does. -/
theorem bind_congr_at {x x' : Step σ α} {f f' : α → Step σ β} {s : σ} (hx : x s = x' s)
    (hf : ∀ a t, x s = .ok a t → f a t = f' a t) : (x >>= f) s = (x' >>= f') s := by
  change EStateM.bind x f s = EStateM.bind x' f' s
  unfold EStateM.bind
  rw [← hx]
  cases h : x s with
  | ok a t => exact hf a t h
  | error e t => rfl

@[simp] theorem get_ok_iff (a s t : σ) : (get : Step σ σ) s = .ok a t ↔ s = a ∧ s = t := by
  change EStateM.Result.ok s s = .ok a t ↔ _
  simp only [EStateM.Result.ok.injEq]

@[simp] theorem modify_ok_iff (f : σ → σ) (a : PUnit) (s t : σ) :
    (modify f : Step σ PUnit) s = .ok a t ↔ f s = t := by
  change EStateM.Result.ok PUnit.unit (f s) = .ok a t ↔ _
  simp

@[simp] theorem modifyGet_ok_iff (f : σ → α × σ) (a : α) (s t : σ) :
    (modifyGet f : Step σ α) s = .ok a t ↔ (f s).1 = a ∧ (f s).2 = t := by
  change EStateM.Result.ok (f s).1 (f s).2 = .ok a t ↔ _
  simp only [EStateM.Result.ok.injEq]

@[simp] theorem lift_ok_iff (x : Except Fault α) (a : α) (s t : σ) :
    (monadLift x : Step σ α) s = .ok a t ↔ x = .ok a ∧ s = t := by
  cases x with
  | ok b =>
    change EStateM.Result.ok b s = .ok a t ↔ _
    simp
  | error f =>
    change (EStateM.Result.error (Failure.fault f) s : EStateM.Result Failure σ α) = .ok a t ↔ _
    simp

/-- The same for what has no state. -/
theorem except_bind_ok_iff {ε : Type} (x : Except ε α) (f : α → Except ε β) (b : β) :
    (x >>= f) = .ok b ↔ ∃ a, x = .ok a ∧ f a = .ok b := by
  cases x with
  | ok a => simp [bind, Except.bind]
  | error f => simp [bind, Except.bind]

theorem on_ok_iff (part : τ → σ) (put : τ → σ → τ) (step : Step σ α) (a : α) (t u : τ) :
    step.on part put t = .ok a u ↔ ∃ s, step (part t) = .ok a s ∧ put t s = u := by
  unfold Step.on
  cases step (part t) with
  | ok b s => simp
  | error e s => simp

end Bundler.Step

/-
Two runs side by side.

That two runs of a program do the same is proved along the program: each of its steps keeps a
relation between the states of the two runs, and answers that belong together lead on to steps of
which the same holds. What is kept is a coupling (`Coupling`), and a pair of steps that keeps it is in
lockstep (`Lockstep`), from a condition on the states before to one on the states and answers after.

There is a twist. Some couplings last only if the second run stays within bounds that can be seen
when it is over, for instance that it never comes upon a file under a second name. So a coupling has
such a condition on the second run (`fine`). The states of a run obey a law under which it goes
backwards: what is fine in the end was fine before. Steps in lockstep obey the law, too, and it is
what makes conditions on the states last (`Coupling.Stable`).
-/
import Bundler.Proofs.Step

set_option autoImplicit false

namespace Bundler.Step

variable {σ τ α β γ : Type}

/-- What two runs keep: how their states belong together, a law of both, and a condition on the
second of them that held all along if it holds in the end. -/
structure Coupling (σ : Type) where
  rel : σ → σ → Prop
  law : Law σ
  early : ∀ s e, law.fails s e
  fine : σ → Prop
  back : ∀ {s t}, law.moves s t → fine t → fine s

namespace Coupling

/-- The ends of two runs that belong together: both answer, or both end early in the same way. -/
inductive Ends (C : Coupling σ) (post : σ → σ → α → α → Prop) :
    EStateM.Result Failure σ α → EStateM.Result Failure σ α → Prop where
  | ok {a a' : α} {t t' : σ} (h : C.rel t t') (hpost : post t t' a a') :
      Ends C post (.ok a t) (.ok a' t')
  | error {e : Failure} {t t' : σ} (h : C.rel t t') : Ends C post (.error e t) (.error e t')

/-- A condition on states that lasts. -/
def Stable (C : Coupling σ) (p : σ → σ → Prop) : Prop :=
  ∀ s s' t t', C.rel s s' → C.law.moves s t → C.law.moves s' t' → C.rel t t' → p s s' → p t t'

/-- No condition. -/
def free : σ → σ → Prop := fun _ _ => True

/-- The answers are the same. -/
def same : σ → σ → α → α → Prop := fun _ _ a a' => a = a'

variable {C : Coupling σ} {p q : σ → σ → Prop}

theorem stable_free : C.Stable free := fun _ _ _ _ _ _ _ _ _ => trivial

theorem Stable.and (hp : C.Stable p) (hq : C.Stable q) : C.Stable fun s s' => p s s' ∧ q s s' :=
  fun s s' t t' hs h h' ht hpq =>
    ⟨hp s s' t t' hs h h' ht hpq.1, hq s s' t t' hs h h' ht hpq.2⟩

theorem stable_const (P : Prop) : C.Stable fun _ _ => P := fun _ _ _ _ _ _ _ _ h => h

theorem Ends.mono {post post' : σ → σ → α → α → Prop} {r r' : EStateM.Result Failure σ α}
    (h : C.Ends post r r')
    (hpost : ∀ t t' a a', C.rel t t' → post t t' a a' → post' t t' a a') : C.Ends post' r r' := by
  cases h with
  | ok h hp => exact .ok h (hpost _ _ _ _ h hp)
  | error h => exact .error h

end Coupling

open Coupling

/-- Two steps keep a coupling, from a condition on the states before to one on what comes out. -/
structure Lockstep (C : Coupling σ) (pre : σ → σ → Prop) (x x' : Step σ α)
    (post : σ → σ → α → α → Prop) : Prop where
  left : Obeys C.law x
  right : Obeys C.law x'
  run : ∀ s s', C.rel s s' → pre s s' → C.fine (final (x' s')) → C.Ends post (x s) (x' s')

namespace Lockstep

variable {C : Coupling σ} {pre pre' keep : σ → σ → Prop} {x x' : Step σ α}
  {post post' : σ → σ → α → α → Prop} {goal : σ → σ → β → β → Prop}

/-- Answers, given that the second run is fine where it answers. -/
theorem of_pure_fine (a a' : α)
    (h : ∀ s s', C.rel s s' → pre s s' → C.fine s' → post s s' a a') :
    Lockstep C pre (pure a) (pure a') post where
  left := obeys_pure a
  right := obeys_pure a'
  run s s' hs hpre hfine := .ok hs (h s s' hs hpre hfine)

theorem of_pure (a a' : α) (h : ∀ s s', C.rel s s' → pre s s' → post s s' a a') :
    Lockstep C pre (pure a) (pure a') post := of_pure_fine a a' fun s s' hs hp _ => h s s' hs hp

theorem conseq (h : Lockstep C pre x x' post)
    (hpre : ∀ s s', C.rel s s' → pre' s s' → pre s s')
    (hpost : ∀ t t' a a', C.rel t t' → post t t' a a' → post' t t' a a') :
    Lockstep C pre' x x' post' where
  left := h.left
  right := h.right
  run s s' hs hp hf := (h.run s s' hs (hpre s s' hs hp) hf).mono hpost

theorem of_pre (h : Lockstep C pre x x' post)
    (hpre : ∀ s s', C.rel s s' → pre' s s' → pre s s') : Lockstep C pre' x x' post :=
  h.conseq hpre fun _ _ _ _ _ hp => hp

/-- A condition that lasts still holds. -/
theorem frame (hk : C.Stable keep) (h : Lockstep C pre x x' post) :
    Lockstep C (fun s s' => pre s s' ∧ keep s s') x x'
      fun t t' a a' => post t t' a a' ∧ keep t t' where
  left := h.left
  right := h.right
  run s s' hs hp hf := by
    have hl := (h.left s).final
    have hr := (h.right s').final
    have hends := h.run s s' hs hp.1 hf
    cases hx : x s with
    | ok a t =>
      cases hx' : x' s' with
      | ok a' t' =>
        rw [hx, hx'] at hends
        rw [hx] at hl
        rw [hx'] at hr
        cases hends with
        | ok ht hpost => exact .ok ht ⟨hpost, hk s s' t t' hs hl hr ht hp.2⟩
      | error e t' =>
        rw [hx, hx'] at hends
        cases hends
    | error e t =>
      rw [hx] at hends
      cases hx' : x' s' with
      | ok a' t' =>
        rw [hx'] at hends
        cases hends
      | error e' t' =>
        rw [hx'] at hends
        cases hends with
        | error ht => exact .error ht

/-- One step after the other. -/
theorem bind {f f' : α → Step σ β} (hx : Lockstep C pre x x' post)
    (hf : ∀ a a', Lockstep C (fun t t' => post t t' a a') (f a) (f' a') goal) :
    Lockstep C pre (x >>= f) (x' >>= f') goal where
  left := hx.left.bind fun a => (hf a a).left
  right := hx.right.bind fun a => (hf a a).right
  run s s' hs hpre hfine := by
    have hends := hx.run s s' hs hpre
    change C.Ends goal (EStateM.bind x f s) (EStateM.bind x' f' s')
    change C.fine (final (EStateM.bind x' f' s')) at hfine
    unfold EStateM.bind at hfine ⊢
    cases hx' : x' s' with
    | ok a' t' =>
      rw [hx'] at hends hfine
      have hback : C.fine t' := C.back ((hf a' a').right t').final hfine
      cases hxs : x s with
      | ok a t =>
        rw [hxs] at hends
        cases hends hback with
        | ok ht hpost => exact (hf a a').run t t' ht hpost hfine
      | error e t =>
        rw [hxs] at hends
        cases hends hback
    | error e t' =>
      rw [hx'] at hends hfine
      cases hxs : x s with
      | ok a t =>
        rw [hxs] at hends
        cases hends hfine
      | error e' t =>
        rw [hxs] at hends
        cases hends hfine with
        | error ht => exact .error ht

/-- The same, where the answers are the same. -/
theorem bind_same {f f' : α → Step σ β} {mid : σ → σ → α → Prop}
    (hx : Lockstep C pre x x' fun t t' a a' => a = a' ∧ mid t t' a)
    (hf : ∀ a, Lockstep C (fun t t' => mid t t' a) (f a) (f' a) goal) :
    Lockstep C pre (x >>= f) (x' >>= f') goal :=
  hx.bind fun a a' =>
    { left := (hf a).left
      right := (hf a').right
      run := by
        rintro s s' hs ⟨rfl, hmid⟩ hfine
        exact (hf a).run s s' hs hmid hfine }

/-- The same, where the first step asks for nothing and the condition lasts. -/
theorem andThen {f f' : α → Step σ β} (hx : Lockstep C Coupling.free x x' same) (hk : C.Stable pre)
    (hf : ∀ a, Lockstep C pre (f a) (f' a) goal) : Lockstep C pre (x >>= f) (x' >>= f') goal :=
  ((hx.frame hk).of_pre fun _ _ _ hp => ⟨trivial, hp⟩).bind_same hf

theorem of_modifyGet {f f' : σ → α × σ} (hl : ∀ s, C.law.moves s (f s).2)
    (hr : ∀ s, C.law.moves s (f' s).2)
    (h : ∀ s s', C.rel s s' → pre s s' → C.fine (f' s').2 →
      C.rel (f s).2 (f' s').2 ∧ post (f s).2 (f' s').2 (f s).1 (f' s').1) :
    Lockstep C pre (modifyGet f) (modifyGet f') post where
  left := obeys_modifyGet hl
  right := obeys_modifyGet hr
  run s s' hs hpre hfine := by
    obtain ⟨hrel, hpost⟩ := h s s' hs hpre hfine
    exact .ok hrel hpost

theorem of_modify {f f' : σ → σ} {post : σ → σ → PUnit → PUnit → Prop}
    (hl : ∀ s, C.law.moves s (f s)) (hr : ∀ s, C.law.moves s (f' s))
    (h : ∀ s s', C.rel s s' → pre s s' → C.fine (f' s') →
      C.rel (f s) (f' s') ∧ post (f s) (f' s') ⟨⟩ ⟨⟩) :
    Lockstep C pre (modify f) (modify f') post where
  left := obeys_modify hl
  right := obeys_modify hr
  run s s' hs hpre hfine := by
    obtain ⟨hrel, hpost⟩ := h s s' hs hpre hfine
    exact .ok hrel hpost

/-- A step that may only fault does not look at the state. -/
theorem of_lift (y : Except Fault α) : Lockstep C Coupling.free (monadLift y) (monadLift y) same where
  left := obeys_lift y
  right := obeys_lift y
  run s s' hs _ _ := by
    cases y with
    | ok a => exact .ok hs rfl
    | error f => exact .error hs

theorem of_throw (e : Failure) : Lockstep C pre (throw e : Step σ α) (throw e) post where
  left := obeys_throw fun s => C.early s e
  right := obeys_throw fun s => C.early s e
  run _ _ hs _ _ := .error hs

/-- From states that belong together, steps may do the same as two others that are in lockstep, from a
condition that holds there. -/
theorem of_eq (hl : Obeys C.law x) (hr : Obeys C.law x')
    (h : ∀ s s', C.rel s s' → pre s s' → ∃ (only : σ → σ → Prop) (y y' : Step σ α),
      only s s' ∧ x s = y s ∧ x' s' = y' s' ∧ Lockstep C only y y' post) :
    Lockstep C pre x x' post where
  left := hl
  right := hr
  run s s' hs hpre hfine := by
    obtain ⟨only, y, y', honly, hy, hy', hlock⟩ := h s s' hs hpre
    rw [hy'] at hfine ⊢
    rw [hy]
    exact hlock.run s s' hs honly hfine

/-- What is known of the two runs by themselves. -/
theorem also {P : σ → σ → Prop} {Q : σ → σ → α → α → Prop} (h : Lockstep C pre x x' post)
    (hPQ : ∀ s s' t t' a a', P s s' → x s = .ok a t → x' s' = .ok a' t' → Q t t' a a') :
    Lockstep C (fun s s' => pre s s' ∧ P s s') x x'
      fun t t' a a' => post t t' a a' ∧ Q t t' a a' where
  left := h.left
  right := h.right
  run s s' hs hp hf := by
    have hends := h.run s s' hs hp.1 hf
    cases hx : x s with
    | ok a t =>
      cases hx' : x' s' with
      | ok a' t' =>
        rw [hx, hx'] at hends
        cases hends with
        | ok ht hpost => exact .ok ht ⟨hpost, hPQ s s' t t' a a' hp.2 hx hx'⟩
      | error e t' =>
        rw [hx, hx'] at hends
        cases hends
    | error e t =>
      rw [hx] at hends
      cases hx' : x' s' with
      | ok a' t' =>
        rw [hx'] at hends
        cases hends
      | error e' t' =>
        rw [hx'] at hends
        cases hends with
        | error ht => exact .error ht

/-- What may only fault is the same for both, and they go on with its answer. -/
theorem lift_bind {y : Except Fault γ} {f f' : γ → Step σ α}
    (hf : ∀ c, y = .ok c → Lockstep C pre (f c) (f' c) post) :
    Lockstep C pre (monadLift y >>= f) (monadLift y >>= f') post := by
  cases y with
  | ok c => exact hf c rfl
  | error e =>
    have hthrow : ∀ k : γ → Step σ α,
        ((monadLift (Except.error e : Except Fault γ) : Step σ γ) >>= k) = throw (.fault e) :=
      fun _ => rfl
    rw [hthrow, hthrow]
    exact of_throw _

/-- The two runs look at their states, and go on with what is the same on both sides. -/
theorem observe {x x' : Step σ α} {v v' : σ → α} {f f' : γ → Step σ β} (o : α → γ)
    (hx : ∀ s, x s = .ok (v s) s) (hx' : ∀ s, x' s = .ok (v' s) s)
    (ho : ∀ s s', C.rel s s' → pre s s' → o (v' s') = o (v s))
    (hf : ∀ c, Lockstep C (fun s s' => pre s s' ∧ o (v s) = c ∧ o (v' s') = c) (f c) (f' c) goal) :
    Lockstep C pre (x >>= fun a => f (o a)) (x' >>= fun a => f' (o a)) goal where
  left := fun s => by
    rw [bind_of_ok (hx s)]
    exact (hf _).left s
  right := fun s => by
    rw [bind_of_ok (hx' s)]
    exact (hf _).right s
  run s s' hs hpre hfine := by
    rw [bind_of_ok (hx' s'), ho s s' hs hpre] at hfine
    rw [bind_of_ok (hx s), bind_of_ok (hx' s'), ho s s' hs hpre]
    exact (hf _).run s s' hs ⟨hpre, rfl, ho s s' hs hpre⟩ hfine

/-- A part of the state that is the same on both sides is read. -/
theorem of_get {f f' : γ → Step σ β} (o : σ → γ)
    (ho : ∀ s s', C.rel s s' → pre s s' → o s = o s')
    (hf : ∀ c, Lockstep C (fun s s' => pre s s' ∧ o s = c ∧ o s' = c) (f c) (f' c) goal) :
    Lockstep C pre (get >>= fun s => f (o s)) (get >>= fun s => f' (o s))
      goal :=
  observe (v := id) o (fun _ => rfl) (fun _ => rfl)
    (fun s s' hs hp => (ho s s' hs hp).symm) hf

/-! ## Lists -/

theorem forM {f f' : α → Step σ PUnit} (hk : C.Stable pre) :
    ∀ {as : List α}, (∀ a ∈ as, Lockstep C pre (f a) (f' a) same) →
      Lockstep C pre (as.forM f) (as.forM f') same
  | [], _ => of_pure _ _ fun _ _ _ _ => rfl
  | a :: as, h => by
    have hone : Lockstep C pre (f a) (f' a) fun t t' u u' => u = u' ∧ pre t t' :=
      ((h a List.mem_cons_self).frame hk).of_pre fun _ _ _ hp => ⟨hp, hp⟩
    exact hone.bind_same fun _ => forM hk fun b hb => h b (List.mem_cons_of_mem _ hb)

theorem foldlM {f f' : β → α → Step σ β} (hk : C.Stable pre) :
    ∀ {as : List α}, (∀ b, ∀ a ∈ as, Lockstep C pre (f b a) (f' b a) same) →
      ∀ b, Lockstep C pre (as.foldlM f b) (as.foldlM f' b) same
  | [], _, b => of_pure b b fun _ _ _ _ => rfl
  | a :: as, h, b => by
    have hone : Lockstep C pre (f b a) (f' b a) fun t t' c c' => c = c' ∧ pre t t' :=
      ((h b a List.mem_cons_self).frame hk).of_pre fun _ _ _ hp => ⟨hp, hp⟩
    exact hone.bind_same fun c => foldlM hk (fun b d hd => h b d (List.mem_cons_of_mem _ hd)) c

theorem mapM {f f' : α → Step σ β} (hk : C.Stable pre) {as : List α}
    (h : ∀ a ∈ as, Lockstep C pre (f a) (f' a) same) :
    Lockstep C pre (as.mapM f) (as.mapM f') same := by
  induction as with
  | nil => exact of_pure [] [] fun _ _ _ _ => rfl
  | cons a as ih =>
    rw [List.mapM_cons, List.mapM_cons]
    have hone : Lockstep C pre (f a) (f' a) fun t t' b b' => b = b' ∧ pre t t' :=
      ((h a List.mem_cons_self).frame hk).of_pre fun _ _ _ hp => ⟨hp, hp⟩
    refine hone.bind_same fun b => ?_
    have hrest : Lockstep C pre (as.mapM f) (as.mapM f') fun t t' bs bs' => bs = bs' ∧ pre t t' :=
      ((ih fun c hc => h c (List.mem_cons_of_mem _ hc)).frame hk).of_pre fun _ _ _ hp => ⟨hp, hp⟩
    exact hrest.bind_same fun bs => of_pure _ _ fun _ _ _ _ => rfl

/-! ## Steps on a part of the state -/

/-- Steps on a part are in lockstep if the coupling of the whole is one of the part and of a rest
that they do not touch. -/
theorem on {D : Coupling τ} {part : τ → σ} {put : τ → σ → τ} (hpart : ∀ t s, part (put t s) = s)
    (hrel : ∀ t t', D.rel t t' → C.rel (part t) (part t'))
    (hput : ∀ t t' s s', D.rel t t' → C.rel s s' → D.rel (put t s) (put t' s'))
    (hlaw : ∀ t s, C.law.moves (part t) s → D.law.moves t (put t s))
    (hfine : ∀ t, D.fine t → C.fine (part t)) (h : Lockstep C pre x x' post) :
    Lockstep D (fun t t' => pre (part t) (part t')) (x.on part put) (x'.on part put)
      fun t t' a a' => post (part t) (part t') a a' where
  left := obeys_on hlaw (fun t e _ => D.early t e) h.left
  right := obeys_on hlaw (fun t e _ => D.early t e) h.right
  run t t' ht hpre hf := by
    have hends := h.run (part t) (part t') (hrel t t' ht) hpre
    unfold Step.on at hf ⊢
    cases hx' : x' (part t') with
    | ok a' s' =>
      rw [hx'] at hends hf
      have hfs : C.fine s' := by
        have hpf := hfine _ hf
        rwa [show part (final (.ok a' (put t' s') : EStateM.Result Failure τ α)) = s'
          from hpart t' s'] at hpf
      cases hx : x (part t) with
      | ok a s =>
        rw [hx] at hends
        cases hends hfs with
        | ok hs hpost =>
          refine .ok (hput t t' s s' ht hs) ?_
          rw [hpart, hpart]
          exact hpost
      | error e s =>
        rw [hx] at hends
        cases hends hfs
    | error e s' =>
      rw [hx'] at hends hf
      have hfs : C.fine s' := by
        have hpf := hfine _ hf
        rwa [show part (final (.error e (put t' s') : EStateM.Result Failure τ α)) = s'
          from hpart t' s'] at hpf
      cases hx : x (part t) with
      | ok a s =>
        rw [hx] at hends
        cases hends hfs
      | error e' s =>
        rw [hx] at hends
        cases hends hfs with
        | error hs => exact .error (hput t t' s s' ht hs)

end Lockstep

/-! ## Steps that do the same -/

/-- A step that does the same in both runs. -/
def Steady (C : Coupling σ) (x : Step σ α) : Prop := Lockstep C free x x same

namespace Steady

variable {C : Coupling σ} {x : Step σ α}

theorem of_pure (a : α) : Steady C (pure a) := Lockstep.of_pure a a fun _ _ _ _ => rfl

theorem of_lift (y : Except Fault α) : Steady C (monadLift y : Step σ α) := Lockstep.of_lift y

theorem of_throw (e : Failure) : Steady C (throw e : Step σ α) := Lockstep.of_throw e

theorem bind {f : α → Step σ β} (hx : Steady C x) (hf : ∀ a, Steady C (f a)) :
    Steady C (x >>= f) := Lockstep.andThen hx stable_free hf

theorem map (hx : Steady C x) (f : α → β) : Steady C (do return f (← x)) :=
  hx.bind fun _ => of_pure _

theorem of_modify {f : σ → σ} (hlaw : ∀ s, C.law.moves s (f s))
    (h : ∀ s s', C.rel s s' → C.fine (f s') → C.rel (f s) (f s')) :
    Steady C (modify f : Step σ PUnit) :=
  Lockstep.of_modify hlaw hlaw fun s s' hs _ hf => ⟨h s s' hs hf, rfl⟩

theorem of_modifyGet {f : σ → α × σ} (hlaw : ∀ s, C.law.moves s (f s).2)
    (h : ∀ s s', C.rel s s' → C.fine (f s').2 → C.rel (f s).2 (f s').2 ∧ (f s).1 = (f s').1) :
    Steady C (modifyGet f : Step σ α) :=
  Lockstep.of_modifyGet hlaw hlaw fun s s' hs _ hf => h s s' hs hf

theorem of_get {f : γ → Step σ β} (o : σ → γ) (ho : ∀ s s', C.rel s s' → o s = o s')
    (hf : ∀ c, Steady C (f c)) : Steady C (get >>= fun s => f (o s)) :=
  Lockstep.of_get o (fun s s' hs _ => ho s s' hs) fun c => (hf c).of_pre fun _ _ _ _ => trivial

theorem forM {f : α → Step σ PUnit} {as : List α} (h : ∀ a ∈ as, Steady C (f a)) :
    Steady C (as.forM f) := Lockstep.forM stable_free h

theorem foldlM {f : β → α → Step σ β} {as : List α} (h : ∀ b, ∀ a ∈ as, Steady C (f b a)) (b : β) :
    Steady C (as.foldlM f b) := Lockstep.foldlM stable_free h b

theorem mapM {f : α → Step σ β} {as : List α} (h : ∀ a ∈ as, Steady C (f a)) :
    Steady C (as.mapM f) := Lockstep.mapM stable_free h

/-- A step that does the same leaves a condition that lasts. -/
theorem keeping {keep : σ → σ → Prop} (hx : Steady C x) (hk : C.Stable keep) :
    Lockstep C keep x x fun t t' a a' => a = a' ∧ keep t t' :=
  (Lockstep.frame hk hx).of_pre fun _ _ _ hp => ⟨trivial, hp⟩

end Steady

end Bundler.Step

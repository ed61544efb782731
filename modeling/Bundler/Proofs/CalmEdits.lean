/-
Edits make no line breaks.

A build moves the arguments of calls around: it puts some of them into a function, a text before one of them,
numbers in front of one that is kept. In between, an argument can stand in a call twice. But taken together,
what is set at one call leaves it with no more line breaks than before (`Editing.Sets`), and so does all that
the second pass sets (`Resources.carries_calmer`).
-/
import Bundler.Proofs.LineBreaks

set_option autoImplicit false

namespace Bundler

open Text Step

/-! ## Calls under edit -/

namespace Call

variable {c c' : Call}

theorem breaks_le (hcallee : c'.callee = c.callee) (hargs : Expr.allBreaks c'.args ≤ Expr.allBreaks c.args) :
    c'.breaks ≤ c.breaks := by
  rw [breaks_eq, breaks_eq, hcallee]
  omega

theorem lineBreaks_callee_le (hobject : c'.object = c.object) (hmethod : lineBreaks c'.method.toList = 0) :
    lineBreaks c'.callee.toList ≤ lineBreaks c.callee.toList := by
  unfold callee
  rw [hobject]
  cases c.object with
  | none =>
    simp only
    omega
  | some object =>
    simp only [String.toList_append, lineBreaks_append]
    omega

end Call

namespace Editing

open Expr

variable {e e' e'' : Editing} {id : Nat} {c c' c'' : Call}

theorem allBreaks_resize (args : List Expr) (n : Nat) :
    allBreaks (resize args n) = allBreaks (args.take n) := by
  unfold resize
  rw [allBreaks_append, allBreaks_replicate_null]
  rfl

theorem length_resize (args : List Expr) (n : Nat) : (resize args n).length = n := by
  unfold resize
  rw [List.length_append, List.length_take, List.length_replicate]
  omega

theorem resize_succ {args : List Expr} {n : Nat} (h : args.length ≤ n) :
    resize args (n + 1) = resize args n ++ [.null] := by
  have hfill : n + 1 - args.length = (n - args.length) + 1 := by omega
  unfold resize
  rw [List.take_of_length_le h, List.take_of_length_le (Nat.le_succ_of_le h), hfill,
    List.replicate_succ', List.append_assoc]

/-- An argument is set between those before it, which are filled up, and those behind it. -/
theorem set_resize (args : List Expr) (i : Nat) (value : Expr) :
    (if args.length ≤ i then resize args (i + 1) else args).set i value
      = resize args i ++ value :: args.drop (i + 1) := by
  by_cases hlong : args.length ≤ i
  · have hlength := length_resize args i
    rw [if_pos hlong, resize_succ hlong, List.set_append_right _ _ (Nat.le_of_eq hlength), hlength,
      Nat.sub_self, List.drop_of_length_le (by omega)]
    rfl
  · have hfill : i - args.length = 0 := by omega
    unfold resize
    rw [if_neg hlong, List.set_eq_take_append_cons_drop, if_pos (by omega), hfill, List.replicate_zero,
      List.append_nil]

/-- One call is set anew, and nothing else. -/
structure Sets (id : Nat) (c c' : Call) (e e' : Editing) : Prop where
  before : e.call id = .ok c
  after : e'.call id = .ok c'
  script : e'.script = putCall e.script id c'

theorem Sets.refl (h : e.call id = .ok c) : Sets id c c e e := by
  obtain ⟨hlt, hc⟩ := List.getElem?_eq_some_iff.mp (getElem?_of_call h)
  refine ⟨h, h, ?_⟩
  unfold putCall
  rw [← hc, List.set_getElem_self]

theorem Sets.eq_before {c₀ : Call} (h : Sets id c c' e e') (hc : e.call id = .ok c₀) : c₀ = c :=
  Except.ok.inj (hc.symm.trans h.before)

theorem Sets.trans (h : Sets id c c' e e') (h' : Sets id c' c'' e' e'') : Sets id c c'' e e'' := by
  refine ⟨h.before, h'.after, ?_⟩
  rw [h'.script, h.script]
  unfold putCall
  simp only [List.set_set]

theorem sets_editCall {change : Call → Call} (h : e.editCall id change = .ok e') :
    ∃ c, Sets id c { change c with edited := true } e e' := by
  obtain ⟨c, hc, hc', hscript⟩ := exists_of_editCall h
  exact ⟨c, hc, hc', hscript⟩

theorem sets_setMethod {name : String} (h : e.setMethod id name = .ok e') : ∃ c c', Sets id c c' e e' ∧
    c'.object = c.object ∧ c'.method = name ∧ c'.args = c.args := by
  obtain ⟨c, hc⟩ := sets_editCall h
  exact ⟨c, _, hc, rfl, rfl, rfl⟩

theorem sets_setArgument {i : Nat} {value : Expr} (h : e.setArgument id i value = .ok e') :
    ∃ c c', Sets id c c' e e' ∧ c'.callee = c.callee ∧
      c'.args = resize c.args i ++ value :: c.args.drop (i + 1) := by
  obtain ⟨c, hc⟩ := sets_editCall h
  exact ⟨c, _, hc, rfl, set_resize c.args i value⟩

theorem sets_setArgumentCount {count : Nat} (h : e.setArgumentCount id count = .ok e') :
    ∃ c c', Sets id c c' e e' ∧ c'.callee = c.callee ∧ c'.args = resize c.args count := by
  obtain ⟨c, hc⟩ := sets_editCall h
  exact ⟨c, _, hc, rfl, rfl⟩

/-- Arguments set one behind the other. -/
theorem sets_setArguments : ∀ {vs : List Expr} {i : Nat} {e e' : Editing} {c : Call},
    Resources.setArguments id i vs e = .ok e' → e.call id = .ok c → i ≤ c.args.length →
      ∃ c', Sets id c c' e e' ∧ c'.callee = c.callee ∧
        c'.args = c.args.take i ++ vs ++ c.args.drop (i + vs.length)
  | [], i, e, e', c, h, hc, _ => by
    cases h
    refine ⟨c, .refl hc, rfl, ?_⟩
    rw [List.append_nil, List.length_nil, Nat.add_zero, List.take_append_drop]
  | v :: vs, i, e, e', c, h, hc, hi => by
    unfold Resources.setArguments at h
    obtain ⟨e₁, h₁, h⟩ := (except_bind_ok_iff _ _ _).mp h
    obtain ⟨c₀, c₁, hsets, hcallee, hargs⟩ := sets_setArgument h₁
    obtain rfl := hsets.eq_before hc
    have htake : resize c.args i = c.args.take i := by
      unfold resize
      rw [Nat.sub_eq_zero_of_le hi, List.replicate_zero, List.append_nil]
    have hlength : (c.args.take i).length = i := List.length_take_of_le hi
    rw [htake] at hargs
    obtain ⟨c', hsets', hcallee', hargs'⟩ := sets_setArguments h hsets.after (by
      rw [hargs, List.length_append, hlength, List.length_cons]
      omega)
    refine ⟨c', hsets.trans hsets', hcallee'.trans hcallee, ?_⟩
    have hfront : (c.args.take i ++ [v]).length = i + 1 := by
      rw [List.length_append, hlength]
      rfl
    rw [List.append_cons] at hargs
    rw [hargs', hargs, List.take_left' hfront, ← List.drop_drop, List.drop_left' hfront, List.drop_drop,
      List.append_assoc (c.args.take i) [v], List.length_cons, Nat.add_assoc i 1, Nat.add_comm 1]
    rfl

/-- A script under edit after edits that have made no line breaks: each call has as many as before at most,
and constants are edited to values on one line. -/
structure Calmer (e e' : Editing) : Prop where
  calls : ∀ (id : Nat) (c' : Call), e'.script.calls[id]? = some c' →
    ∃ c, e.script.calls[id]? = some c ∧ c'.breaks ≤ c.breaks
  constants : (∀ c ∈ e.script.constants, c.edited = true → c.init.breaks = 0) →
    ∀ c ∈ e'.script.constants, c.edited = true → c.init.breaks = 0

theorem Calmer.refl (e : Editing) : Calmer e e := ⟨fun _ c h => ⟨c, h, Nat.le_refl _⟩, id⟩

theorem Calmer.trans (h : Calmer e e') (h' : Calmer e' e'') : Calmer e e'' := by
  refine ⟨?_, fun hconstants => h'.constants (h.constants hconstants)⟩
  intro id c hc
  obtain ⟨c', hc', hle'⟩ := h'.calls id c hc
  obtain ⟨c₀, hc₀, hle⟩ := h.calls id c' hc'
  exact ⟨c₀, hc₀, Nat.le_trans hle' hle⟩

theorem Sets.calmer (h : Sets id c c' e e') (hle : c'.breaks ≤ c.breaks) : Calmer e e' := by
  have hc := getElem?_of_call h.before
  refine ⟨?_, fun hconstants => by rw [h.script]; exact hconstants⟩
  intro j d hd
  rw [h.script] at hd
  unfold putCall at hd
  by_cases hj : id = j
  · subst hj
    simp only [List.getElem?_set_self (List.getElem?_eq_some_iff.mp hc).1] at hd
    obtain rfl := Option.some.inj hd
    exact ⟨c, hc, hle⟩
  · simp only [List.getElem?_set_ne hj] at hd
    exact ⟨d, hd, Nat.le_refl _⟩

theorem calmer_setArgument {i : Nat} {value : Expr} (h : e.setArgument id i value = .ok e')
    (hvalue : value.breaks = 0) : Calmer e e' := by
  obtain ⟨c, c', hsets, hcallee, hargs⟩ := sets_setArgument h
  apply hsets.calmer (Call.breaks_le hcallee _)
  have htake := allBreaks_le_of_sublist (List.take_sublist i c.args)
  have hparts := allBreaks_append (c.args.take i) (c.args.drop i)
  rw [List.take_append_drop] at hparts
  have hdrop := allBreaks_le_of_sublist (List.drop_sublist_drop_left c.args (Nat.le_add_right i 1))
  rw [hargs, allBreaks_append, allBreaks_cons, allBreaks_resize, hvalue]
  omega

theorem calmer_setArgumentCount {count : Nat} (h : e.setArgumentCount id count = .ok e') : Calmer e e' := by
  obtain ⟨c, c', hsets, hcallee, hargs⟩ := sets_setArgumentCount h
  apply hsets.calmer (Call.breaks_le hcallee _)
  rw [hargs, allBreaks_resize]
  exact allBreaks_le_of_sublist (List.take_sublist count c.args)

/-- A constant that is set to a value on one line. -/
theorem calmer_setInit {value : Expr} (h : e.setInit id value = .ok e') (hvalue : value.breaks = 0) :
    Calmer e e' := by
  unfold setInit at h
  split at h
  · cases h
  · cases h
    refine ⟨fun _ c hc => ⟨c, hc, Nat.le_refl _⟩, ?_⟩
    intro hconstants c hc hedited
    obtain ⟨j, hj⟩ := List.mem_iff_getElem?.mp hc
    unfold putInit at hj
    rw [List.getElem?_modify] at hj
    obtain ⟨c₀, hc₀, heq⟩ := Option.map_eq_some_iff.mp hj
    by_cases hid : id = j
    · rw [if_pos hid] at heq
      rw [← heq]
      exact hvalue
    · rw [if_neg hid] at heq
      obtain rfl : c₀ = c := heq
      exact hconstants c₀ (List.mem_of_getElem? hc₀) hedited

end Editing

namespace Resources

open Editing Expr

variable {e e' : Editing} {call : Nat}

/-- A call that gets another name, and arguments on as many lines as some of its own. -/
theorem calmer_setAll {name : String} {vs : List Expr} {e₁ e₂ : Editing} {c : Call}
    (hname : lineBreaks name.toList = 0) (hc : e.call call = .ok c) (hle : allBreaks vs ≤ allBreaks c.args)
    (h₁ : e.setMethod call name = .ok e₁) (h₂ : setArguments call 0 vs e₁ = .ok e₂)
    (h₃ : e₂.setArgumentCount call vs.length = .ok e') : Calmer e e' := by
  obtain ⟨c₀, c₁, hsets₁, hobject, hmethod, hargs₁⟩ := sets_setMethod h₁
  obtain rfl := hsets₁.eq_before hc
  obtain ⟨c₂, hsets₂, hcallee₂, hargs₂⟩ := sets_setArguments h₂ hsets₁.after (Nat.zero_le _)
  obtain ⟨c₂', c₃, hsets₃, hcallee₃, hargs₃⟩ := sets_setArgumentCount h₃
  obtain rfl := hsets₃.eq_before hsets₂.after
  have hcallee := Call.lineBreaks_callee_le hobject (by rw [hmethod]; exact hname)
  rw [List.take_zero, List.nil_append] at hargs₂
  apply ((hsets₁.trans hsets₂).trans hsets₃).calmer
  rw [Call.breaks_eq, Call.breaks_eq, hcallee₃, hcallee₂, hargs₃, allBreaks_resize, hargs₂,
    List.take_left]
  omega

/-- The color of a sprite keeps its text, and the numbers behind it are on one line. -/
theorem calmer_placeSprite {s : SpriteUse} {area : Placement} (h : placeSprite call s area e = .ok e') :
    Calmer e e' := by
  have hnumbers : allBreaks ([area.width, area.height, area.x, area.y].map Expr.ofNat) = 0 := by
    simp [Expr.ofNat]
  unfold placeSprite at h
  obtain ⟨c, hc, h⟩ := (except_bind_ok_iff _ _ _).mp h
  simp only at h
  split at h
  · rename_i color rest hdrop _
    obtain ⟨e₁, h₁, h⟩ := (except_bind_ok_iff _ _ _).mp h
    obtain ⟨e₂, h₂, h⟩ := (except_bind_ok_iff _ _ _).mp h
    -- the color is one of the arguments that the call had
    have hcolor : color.breaks ≤ allBreaks c.args := by
      have hsublist := allBreaks_le_of_sublist (List.drop_sublist 1 c.args)
      rw [hdrop, allBreaks_cons] at hsublist
      omega
    apply calmer_setAll (by decide) hc _ h₁ h₂ h
    rw [allBreaks_cons, hnumbers]
    exact hcolor
  · obtain ⟨e₁, h₁, h⟩ := (except_bind_ok_iff _ _ _).mp h
    obtain ⟨e₂, h₂, h⟩ := (except_bind_ok_iff _ _ _).mp h
    apply calmer_setAll (by decide) hc _ h₁ h₂ h
    rw [hnumbers]
    exact Nat.zero_le _

theorem calmer_setName {name : String} {s : StyleUse} (h : StylePolicy.setName name call s e = .ok e') :
    Calmer e e' := by
  unfold StylePolicy.setName at h
  obtain ⟨e₁, h₁, h⟩ := (except_bind_ok_iff _ _ _).mp h
  exact (calmer_setArgumentCount h₁).trans (calmer_setArgument h (breaks_str _))

/-- A text that is put before an argument leaves it on its lines. -/
theorem calmer_addPrefix {before : String} {s : StyleUse}
    (h : StylePolicy.addPrefix before call s e = .ok e') : Calmer e e' := by
  unfold StylePolicy.addPrefix at h
  simp only at h
  split at h
  · exact calmer_setArgument h (breaks_str _)
  · obtain ⟨c, hc, h⟩ := (except_bind_ok_iff _ _ _).mp h
    split at h
    · rename_i arg harg
      obtain ⟨c₀, c', hsets, hcallee, hargs⟩ := sets_setArgument h
      obtain rfl := hsets.eq_before hc
      apply hsets.calmer (Call.breaks_le hcallee _)
      rw [hargs, allBreaks_append, allBreaks_cons, allBreaks_resize, breaks_concat, breaks_str,
        allBreaks_of_getElem? harg]
      omega
    · cases h
      exact .refl _

/-- Two arguments that move into a function. After the first edit the second one stands in the call twice,
in the function and at its own place, so only both edits together make no line breaks. -/
theorem calmer_wrap {skip : Nat} {e₁ : Editing} {c : Call} (hc : e.call call = .ok c)
    (h₁ : e.setArgument call skip (.lambda ((c.args.drop skip).take 2)) = .ok e₁)
    (h₂ : e₁.setArgument call (skip + 1) .null = .ok e') : Calmer e e' := by
  obtain ⟨c₀, c₁, hsets₁, hcallee₁, hargs₁⟩ := sets_setArgument h₁
  obtain rfl := hsets₁.eq_before hc
  obtain ⟨c₁', c₂, hsets₂, hcallee₂, hargs₂⟩ := sets_setArgument h₂
  obtain rfl := hsets₂.eq_before hsets₁.after
  have hfront : (resize c.args skip ++ [Expr.lambda ((c.args.drop skip).take 2)]).length = skip + 1 := by
    rw [List.length_append, length_resize]
    rfl
  -- the arguments before the two, the two, and those behind them
  have hparts := allBreaks_append (c.args.take skip) (c.args.drop skip)
  have hbehind := allBreaks_append ((c.args.drop skip).take 2) ((c.args.drop skip).drop 2)
  rw [List.take_append_drop] at hparts hbehind
  rw [List.drop_drop] at hbehind
  rw [List.append_cons] at hargs₁
  apply (hsets₁.trans hsets₂).calmer (Call.breaks_le (hcallee₂.trans hcallee₁) _)
  rw [hargs₂, hargs₁, allBreaks_append, allBreaks_cons, allBreaks_resize, List.take_left' hfront,
    ← List.drop_drop, List.drop_left' hfront, allBreaks_append, allBreaks_cons, allBreaks_resize,
    breaks_lambda, breaks_null, List.drop_drop, allBreaks_nil, show skip + 1 + 1 = skip + 2 from rfl]
  omega

/-- Whatever is done with styles makes no line breaks. -/
theorem calmer_style {policy : StylePolicy} {s : StyleUse} (h : policy.apply call s e = .ok e') :
    Calmer e e' := by
  unfold StylePolicy.apply at h
  obtain ⟨c, hc, h⟩ := (except_bind_ok_iff _ _ _).mp h
  cases policy with
  | keep =>
    cases h
    exact .refl _
  | liveReload =>
    obtain ⟨e₁, h₁, h⟩ := (except_bind_ok_iff _ _ _).mp h
    exact calmer_wrap hc h₁ h
  | debug before =>
    cases before with
    | some before =>
      simp only at h
      split at h
      · exact calmer_setName h
      · exact calmer_addPrefix h
    | none =>
      simp only at h
      split at h
      · split at h
        · cases h
          exact .refl _
        · exact calmer_setName h
      · cases h
        exact .refl _
  | release =>
    simp only at h
    generalize (if s.hasParent = true then 1 else 0) + 2 = count at h
    split at h
    · exact calmer_setArgumentCount h
    · cases h
      exact .refl _
  | prefixed before => exact calmer_addPrefix h

theorem carries_calmer : Carries Calmer where
  refl := .refl
  trans := .trans
  text h := calmer_setArgument h (breaks_str _)
  number h := calmer_setArgument h (breaks_num _)
  count := calmer_setArgumentCount
  sprite := calmer_placeSprite
  style := calmer_style

theorem Carries.and {R R' : Editing → Editing → Prop} (h : Carries R) (h' : Carries R') :
    Carries fun e e' => R e e' ∧ R' e e' where
  refl e := ⟨h.refl e, h'.refl e⟩
  trans h₁ h₂ := ⟨h.trans h₁.1 h₂.1, h'.trans h₁.2 h₂.2⟩
  text hset := ⟨h.text hset, h'.text hset⟩
  number hset := ⟨h.number hset, h'.number hset⟩
  count hset := ⟨h.count hset, h'.count hset⟩
  sprite hset := ⟨h.sprite hset, h'.sprite hset⟩
  style hset := ⟨h.style hset, h'.style hset⟩

end Resources

end Bundler

/-
What a policy makes of a style call.

A policy edits a style call in one or two steps, which fill up, cut and replace arguments. What comes
of them is a list of arguments, or nothing where the policy leaves the call alone
(`StylePolicy.arguments?`), and the steps do just this (`StylePolicy.apply_gives`). So what is said of a
policy is said of lists.

The style stands behind the parent style, if there is one, and the name two places behind the style.
Every list that a policy makes agrees with the old one in front of the style, and, live reload apart,
in front of the name too (`Editing.KeepsBefore`): a step that needs more arguments than there are fills
up with `null`, but none that is there is lost. From the name on each policy does its own. All this
together is `StylePolicy.Edits`, and a policy edits every style call in this way (`apply_edits`). The
second pass does it to all style calls of a script (`Resources.apply_styles`).
-/
import Bundler.Proofs.Sites

set_option autoImplicit false

namespace Bundler

open References

/-! ## Lists of arguments -/

namespace Editing

variable {args args' args'' : List Expr} {n m index : Nat}

theorem getElem?_resize (args : List Expr) (n k : Nat) :
    (resize args n)[k]? = if k < n then some (args[k]?.getD .null) else none := by
  unfold resize
  by_cases hshort : k < (args.take n).length
  · rw [List.getElem?_append_left hshort]
    rw [List.length_take, Nat.lt_min] at hshort
    rw [if_pos hshort.1, List.getElem?_take_of_lt hshort.1, List.getElem?_eq_getElem hshort.2]
    rfl
  · rw [List.getElem?_append_right (Nat.le_of_not_lt hshort), List.getElem?_replicate]
    rw [List.length_take] at hshort ⊢
    by_cases hk : k < n
    · rw [if_pos hk, if_pos (by omega), List.getElem?_eq_none (by omega)]
      rfl
    · rw [if_neg hk, if_neg (by omega)]

theorem getElem?_put (args : List Expr) (index : Nat) (v : Expr) (k : Nat) :
    (put args index v)[k]? = if k = index then some v
      else if k < index then some (args[k]?.getD .null) else args[k]? := by
  unfold put
  by_cases hk : k = index
  · subst hk
    rw [if_pos rfl, List.getElem?_set_self]
    split
    · have hlast := getElem?_resize args (k + 1) k
      rw [if_pos (Nat.lt_succ_self k)] at hlast
      exact (List.getElem?_eq_some_iff.mp hlast).1
    · omega
  · rw [if_neg hk, List.getElem?_set_ne (Ne.symm hk)]
    by_cases hshort : args.length ≤ index
    · rw [if_pos hshort, getElem?_resize]
      by_cases hbefore : k < index
      · rw [if_pos hbefore, if_pos (by omega)]
      · rw [if_neg hbefore, if_neg (by omega), List.getElem?_eq_none (by omega)]
    · rw [if_neg hshort]
      by_cases hbefore : k < index
      · rw [if_pos hbefore, List.getElem?_eq_getElem (by omega)]
        rfl
      · rw [if_neg hbefore]

/-- Where there is an argument, a value takes its place. -/
theorem put_eq_set (h : index < args.length) (v : Expr) : put args index v = args.set index v := by
  unfold put
  rw [if_neg (Nat.not_le_of_lt h)]

theorem resize_eq_take (h : n ≤ args.length) : resize args n = args.take n := by
  unfold resize
  rw [Nat.sub_eq_zero_of_le h, List.replicate_zero, List.append_nil]

/-- The arguments in front of a place stay as they are; one that is missing stays so or becomes
`null`. -/
def KeepsBefore (n : Nat) (args args' : List Expr) : Prop :=
  ∀ k < n, args'[k]? = args[k]? ∨ args[k]? = none ∧ args'[k]? = some .null

theorem KeepsBefore.refl (n : Nat) (args : List Expr) : KeepsBefore n args args :=
  fun _ _ => .inl rfl

theorem KeepsBefore.mono (h : KeepsBefore n args args') (hm : m ≤ n) : KeepsBefore m args args' :=
  fun k hk => h k (Nat.lt_of_lt_of_le hk hm)

theorem KeepsBefore.trans (h : KeepsBefore n args args') (h' : KeepsBefore n args' args'') :
    KeepsBefore n args args'' := by
  intro k hk
  rcases h k hk, h' k hk with ⟨hsame | ⟨hnone, hnull⟩, hsame' | ⟨hnone', hnull'⟩⟩
  · exact .inl (hsame'.trans hsame)
  · exact .inr ⟨hsame.symm.trans hnone', hnull'⟩
  · exact .inr ⟨hnone, hsame'.trans hnull⟩
  · rw [hnull] at hnone'
    cases hnone'

/-- An argument that is filled in if it is missing. -/
private theorem filled_or_same (args : List Expr) (k : Nat) :
    some (args[k]?.getD .null) = args[k]? ∨ args[k]? = none ∧ some (args[k]?.getD .null) = some .null := by
  cases args[k]? with
  | none => exact .inr ⟨rfl, rfl⟩
  | some a => exact .inl rfl

theorem keepsBefore_put (h : n ≤ index) (args : List Expr) (v : Expr) :
    KeepsBefore n args (put args index v) := by
  intro k hk
  rw [getElem?_put, if_neg (by omega), if_pos (by omega)]
  exact filled_or_same args k

theorem keepsBefore_resize (h : n ≤ m) (args : List Expr) : KeepsBefore n args (resize args m) := by
  intro k hk
  rw [getElem?_resize, if_pos (by omega)]
  exact filled_or_same args k

/-! ## Edits of one call -/

/-- An edit is carried out and sets one call. -/
def Puts (e : Editing) (id : Nat) (c : Call) (x : Except Fault Editing) : Prop :=
  ∃ e', x = .ok e' ∧ e'.script = putCall e.script id c

variable {e : Editing} {id : Nat} {c c₁ c₂ : Call}

theorem puts_editCall (hc : e.script.calls[id]? = some c) (change : Call → Call) :
    e.Puts id { change c with edited := true } (e.editCall id change) :=
  ⟨_, editCall_eq hc change, rfl⟩

/-- Of two edits of a call, the later one stays. -/
theorem Puts.bind {x : Except Fault Editing} {f : Editing → Except Fault Editing}
    (hid : id < e.script.calls.length) (hx : e.Puts id c₁ x)
    (hf : ∀ e' : Editing, e'.script.calls[id]? = some c₁ → e'.Puts id c₂ (f e')) :
    e.Puts id c₂ (x >>= f) := by
  obtain ⟨e₁, rfl, hscript⟩ := hx
  obtain ⟨e₂, h₂, hscript₂⟩ := hf e₁ (by rw [hscript]; exact List.getElem?_set_self hid)
  refine ⟨e₂, h₂, ?_⟩
  rw [hscript₂, hscript]
  unfold putCall
  rw [List.set_set]

/-- An edit is carried out: it gives arguments to one call, or changes nothing at all. -/
def Gives (e : Editing) (id : Nat) (c : Call) (args? : Option (List Expr))
    (x : Except Fault Editing) : Prop :=
  match args? with
  | some args => e.Puts id { c with args, edited := true } x
  | none => x = .ok e

/-- A call that is set to itself leaves the script as it is. -/
theorem putCall_self {s : Script} (hc : s.calls[id]? = some c) : putCall s id c = s := by
  obtain ⟨hid, rfl⟩ := List.getElem?_eq_some_iff.mp hc
  unfold putCall
  rw [List.set_getElem_self]

end Editing

/-! ## Style calls -/

/-- A call that defines a style, with or without a parent style in front. -/
structure Call.DefinesStyle (c : Call) (hasParent : Bool) : Prop where
  object : c.object = some "b"
  method : c.method = if hasParent then "styleDefEx" else "styleDef"

namespace StylePolicy

open Editing

/-- The place of the style among the arguments of a style call. -/
def stylePlace (hasParent : Bool) : Nat := if hasParent then 1 else 0

theorem styleNameIndex_eq (hasParent : Bool) :
    styleNameIndex hasParent = stylePlace hasParent + 2 := by
  cases hasParent <;> rfl

/-- The text that a policy puts before the name, if it is one that does. -/
def before? : StylePolicy → Option String
  | .debug before => before
  | .prefixed before => some before
  | _ => none

variable {policy : StylePolicy} {s : StyleUse} {args args' : List Expr} {before name : String}

/-! ## The lists that policies make -/

/-- A text before the name, as far as there is a name. -/
def prefixed? (before : String) (s : StyleUse) (args : List Expr) : Option (List Expr) :=
  let place := styleNameIndex s.hasParent
  match s.name with
  | some name => some (put args place (.str (before ++ name)))
  | none => args[place]?.map fun arg => put args place (.concat (.str before) arg)

/-- The name as the last argument. -/
def endedBy (name : String) (s : StyleUse) (args : List Expr) : List Expr :=
  let place := styleNameIndex s.hasParent
  put (resize args (place + 1)) place (.str name)

/-- The arguments that a policy gives a style call; none where it leaves the call alone. -/
def arguments? (policy : StylePolicy) (s : StyleUse) (args : List Expr) : Option (List Expr) :=
  let place := stylePlace s.hasParent
  match policy with
  | .keep => none
  | .liveReload =>
    some (put (put args place (.lambda ((args.drop place).take 2))) (place + 1) .null)
  | .debug (some before) =>
    match s.name with
    | some name => some (endedBy (before ++ name) s args)
    | none => prefixed? before s args
  | .debug none => if s.named then none else s.name.map fun name => endedBy name s args
  | .release => if place + 2 < args.length then some (args.take (place + 2)) else none
  | .prefixed before => prefixed? before s args

/-- What a policy makes of a style call. -/
def rewrite (policy : StylePolicy) (s : StyleUse) (c : Call) : Call :=
  match policy.arguments? s c.args with
  | some args => { c with args, edited := true }
  | none => c

theorem keepsBefore_prefixed? (h : prefixed? before s args = some args') :
    KeepsBefore (styleNameIndex s.hasParent) args args' := by
  unfold prefixed? at h
  cases hname : s.name with
  | some name =>
    rw [hname] at h
    cases h
    exact keepsBefore_put (Nat.le_refl _) args _
  | none =>
    rw [hname] at h
    obtain ⟨arg, -, rfl⟩ := Option.map_eq_some_iff.mp h
    exact keepsBefore_put (Nat.le_refl _) args _

theorem keepsBefore_endedBy (name : String) (s : StyleUse) (args : List Expr) :
    KeepsBefore (styleNameIndex s.hasParent) args (endedBy name s args) :=
  (keepsBefore_resize (Nat.le_succ _) args).trans (keepsBefore_put (Nat.le_refl _) _ _)

theorem getElem?_endedBy (name : String) (s : StyleUse) (args : List Expr) :
    (endedBy name s args)[styleNameIndex s.hasParent]? = some (.str name) := by
  unfold endedBy
  rw [getElem?_put, if_pos rfl]

/-- All policies but live reload keep what stands in front of the name. -/
theorem keepsBefore_name (h : policy.arguments? s args = some args') (hlive : policy ≠ .liveReload) :
    KeepsBefore (styleNameIndex s.hasParent) args args' := by
  unfold arguments? at h
  cases policy with
  | keep => cases h
  | liveReload => exact absurd rfl hlive
  | debug before =>
    cases before with
    | some before =>
      simp only at h
      split at h
      · cases h
        exact keepsBefore_endedBy _ s args
      · exact keepsBefore_prefixed? h
    | none =>
      simp only at h
      split at h
      · cases h
      · obtain ⟨name, -, rfl⟩ := Option.map_eq_some_iff.mp h
        exact keepsBefore_endedBy name s args
  | release =>
    simp only at h
    split at h
    · rename_i hlong
      cases h
      rw [styleNameIndex_eq, ← resize_eq_take (Nat.le_of_lt hlong)]
      exact keepsBefore_resize (Nat.le_refl _) args
    · cases h
  | prefixed before => exact keepsBefore_prefixed? h

/-- All policies keep what stands in front of the style. -/
theorem keepsBefore_style (h : policy.arguments? s args = some args') :
    KeepsBefore (stylePlace s.hasParent) args args' := by
  by_cases hlive : policy = .liveReload
  · subst hlive
    cases h
    exact (keepsBefore_put (Nat.le_refl _) args _).trans (keepsBefore_put (Nat.le_succ _) _ _)
  · refine (keepsBefore_name h hlive).mono ?_
    rw [styleNameIndex_eq]
    exact Nat.le_add_right _ 2

/-- Before a known name the prefix is part of the text. -/
theorem getElem?_of_known (args : List Expr) (h : policy.before? = some before)
    (hname : s.name = some name) :
    ∃ args', policy.arguments? s args = some args' ∧
      args'[styleNameIndex s.hasParent]? = some (.str (before ++ name)) := by
  have hput : ∃ args', prefixed? before s args = some args' ∧
      args'[styleNameIndex s.hasParent]? = some (.str (before ++ name)) := by
    unfold prefixed?
    rw [hname]
    exact ⟨_, rfl, by rw [getElem?_put, if_pos rfl]⟩
  cases policy with
  | keep => cases h
  | liveReload => cases h
  | debug before' =>
    cases h
    unfold arguments?
    simp only [hname]
    exact ⟨_, rfl, getElem?_endedBy _ s args⟩
  | release => cases h
  | prefixed before' =>
    cases h
    exact hput

/-- Before a name that is not known the prefix is added to what stands there, if something does. -/
theorem arguments?_of_unknown (h : policy.before? = some before) (hname : s.name = none) :
    policy.arguments? s args = args[styleNameIndex s.hasParent]?.map fun arg =>
      args.set (styleNameIndex s.hasParent) (.concat (.str before) arg) := by
  have hsum : prefixed? before s args = args[styleNameIndex s.hasParent]?.map fun arg =>
      args.set (styleNameIndex s.hasParent) (.concat (.str before) arg) := by
    unfold prefixed?
    simp only [hname]
    refine Option.map_congr fun arg harg => ?_
    rw [put_eq_set (List.getElem?_eq_some_iff.mp harg).1]
  cases policy with
  | keep => cases h
  | liveReload => cases h
  | debug before' =>
    cases h
    unfold arguments?
    simp only [hname]
    exact hsum
  | release => cases h
  | prefixed before' =>
    cases h
    exact hsum

/-- Live reload puts what it wraps in the place of the style, and nothing behind it. -/
theorem getElem?_of_liveReload (h : arguments? .liveReload s args = some args') :
    args'[stylePlace s.hasParent]? = some (.lambda ((args.drop (stylePlace s.hasParent)).take 2)) ∧
      args'[stylePlace s.hasParent + 1]? = some .null ∧
      ∀ k, stylePlace s.hasParent + 2 ≤ k → args'[k]? = args[k]? := by
  cases h
  refine ⟨?_, ?_, fun k hk => ?_⟩
  · rw [getElem?_put, if_neg (by omega), if_pos (Nat.lt_succ_self _), getElem?_put, if_pos rfl]
    rfl
  · rw [getElem?_put, if_pos rfl]
  · rw [getElem?_put, if_neg (by omega), if_neg (by omega), getElem?_put, if_neg (by omega),
      if_neg (by omega)]

/-! ## The edits of a policy -/

variable {e : Editing} {id : Nat} {c : Call}

private theorem addPrefix_gives (before : String) (s : StyleUse)
    (hc : e.script.calls[id]? = some c) :
    e.Gives id c (prefixed? before s c.args) (addPrefix before id s e) := by
  have hcall : e.call id = .ok c := by
    unfold Editing.call
    rw [hc]
  unfold prefixed? addPrefix
  cases s.name with
  | some name => exact puts_editCall hc _
  | none =>
    simp only [hcall, bind, Except.bind]
    cases c.args[styleNameIndex s.hasParent]? with
    | none => rfl
    | some arg => exact puts_editCall hc _

private theorem setName_gives (name : String) (s : StyleUse) (hc : e.script.calls[id]? = some c) :
    e.Gives id c (some (endedBy name s c.args)) (setName name id s e) :=
  (puts_editCall hc _).bind (List.getElem?_eq_some_iff.mp hc).1 fun _ hc' => puts_editCall hc' _

/-- The steps of a policy give a call the arguments that the policy makes, and where it makes none they
change nothing. -/
theorem apply_gives (policy : StylePolicy) (s : StyleUse) (hc : e.script.calls[id]? = some c) :
    e.Gives id c (policy.arguments? s c.args) (policy.apply id s e) := by
  have hcall : e.call id = .ok c := by
    unfold Editing.call
    rw [hc]
  have hplace : (if s.hasParent = true then 1 else 0) = stylePlace s.hasParent := rfl
  unfold apply arguments?
  simp only [hcall, hplace, bind, Except.bind]
  cases policy with
  | keep => rfl
  | liveReload =>
    exact (puts_editCall hc _).bind (List.getElem?_eq_some_iff.mp hc).1 fun _ hc' =>
      puts_editCall hc' _
  | debug before =>
    cases before with
    | some before =>
      simp only
      cases s.name with
      | some name => exact setName_gives _ s hc
      | none => exact addPrefix_gives before s hc
    | none =>
      simp only
      cases s.name with
      | some name =>
        by_cases hnamed : s.named = true
        · simp only [if_pos hnamed]
          rfl
        · simp only [if_neg hnamed]
          exact setName_gives name s hc
      | none =>
        simp only [Option.map_none, ite_self]
        rfl
  | release =>
    simp only
    by_cases hlong : stylePlace s.hasParent + 2 < c.args.length
    · simp only [if_pos hlong]
      rw [← resize_eq_take (Nat.le_of_lt hlong)]
      exact puts_editCall hc _
    · simp only [if_neg hlong]
      rfl
  | prefixed before => exact addPrefix_gives before s hc

/-- What a policy may do to a style call: `c` in the script `e` becomes `c'` in the script `e'`. -/
structure Edits (policy : StylePolicy) (hasParent : Bool) (e : Editing) (id : Nat) (c : Call)
    (e' : Editing) (c' : Call) : Prop where
  /-- Nothing else in the script changes. -/
  alone : e'.script = putCall e.script id c'
  callee : c'.callee = c.callee
  /-- Of the call only the arguments change, and the mark that it was edited. -/
  rest : c' = { c with args := c'.args, edited := c'.edited }
  beforeStyle : KeepsBefore (stylePlace hasParent) c.args c'.args
  beforeName : policy ≠ .liveReload → KeepsBefore (styleNameIndex hasParent) c.args c'.args
  keep : policy = .keep → e' = e
  /-- A release has no argument at the name or behind it, and edits nothing if there was none. -/
  release : policy = .release → c'.args.length ≤ styleNameIndex hasParent ∧
    (c.args.length ≤ styleNameIndex hasParent → e' = e)
  /-- A prefix before a known name. -/
  known : ∀ before name, policy.before? = some before → (styleOf c hasParent).name = some name →
    c'.args[styleNameIndex hasParent]? = some (.str (before ++ name))
  /-- A prefix before a name that is not known is added to the argument, if there is one. -/
  unknown : ∀ before, policy.before? = some before → (styleOf c hasParent).name = none →
    (∀ arg, c.args[styleNameIndex hasParent]? = some arg →
      c'.args = c.args.set (styleNameIndex hasParent) (.concat (.str before) arg)) ∧
    (c.args[styleNameIndex hasParent]? = none → e' = e)
  /-- Without a prefix, debugging edits only calls whose name is that of the variable. -/
  debug : policy = .debug none → e' ≠ e → text? c.args (styleNameIndex hasParent) = none ∧
    ∃ name, c.binding = some name ∧ c'.args[styleNameIndex hasParent]? = some (.str name)
  /-- Live reload wraps the style and its hover form, as far as they are there. -/
  liveReload : policy = .liveReload →
    c'.args[stylePlace hasParent]? = some (.lambda ((c.args.drop (stylePlace hasParent)).take 2)) ∧
    c'.args[stylePlace hasParent + 1]? = some .null ∧
    ∀ k, stylePlace hasParent + 2 ≤ k → c'.args[k]? = c.args[k]?

/-- A policy that leaves a call alone edits it as it may. -/
private theorem edits_unchanged {hasParent : Bool} (hc : e.script.calls[id]? = some c)
    (h : policy.arguments? (styleOf c hasParent) c.args = none) :
    policy.Edits hasParent e id c e c where
  alone := (putCall_self hc).symm
  callee := rfl
  rest := rfl
  beforeStyle := .refl _ _
  beforeName _ := .refl _ _
  keep _ := rfl
  release hpolicy := by
    subst hpolicy
    refine ⟨?_, fun _ => rfl⟩
    unfold arguments? at h
    simp only at h
    split at h
    · cases h
    · rename_i hshort
      rw [styleNameIndex_eq]
      exact Nat.le_of_not_lt hshort
  known before name hbefore hname := by
    obtain ⟨args', hargs, -⟩ := getElem?_of_known c.args hbefore hname
    rw [hargs] at h
    cases h
  unknown before hbefore hname := by
    rw [arguments?_of_unknown hbefore hname] at h
    refine ⟨fun arg harg => ?_, fun _ => rfl⟩
    change c.args[styleNameIndex hasParent]?.map _ = none at h
    rw [harg] at h
    cases h
  debug _ hne := absurd rfl hne
  liveReload hpolicy := by
    subst hpolicy
    cases h

/-- What a policy makes of the arguments of a call edits it as it may. -/
private theorem edits_changed {hasParent : Bool} {e' : Editing}
    (h : policy.arguments? (styleOf c hasParent) c.args = some args)
    (hscript : e'.script = putCall e.script id { c with args, edited := true }) :
    policy.Edits hasParent e id c e' { c with args, edited := true } where
  alone := hscript
  callee := rfl
  rest := rfl
  beforeStyle := keepsBefore_style h
  beforeName hlive := keepsBefore_name h hlive
  keep hpolicy := by
    subst hpolicy
    cases h
  release hpolicy := by
    subst hpolicy
    unfold arguments? at h
    simp only at h
    rw [styleNameIndex_eq]
    split at h
    · rename_i hlong
      cases h
      exact ⟨List.length_take_le _ _, fun hshort => absurd hlong (Nat.not_lt_of_le hshort)⟩
    · cases h
  known before name hbefore hname := by
    obtain ⟨args', hargs, hget⟩ := getElem?_of_known c.args hbefore hname
    rw [h] at hargs
    cases hargs
    exact hget
  unknown before hbefore hname := by
    rw [arguments?_of_unknown hbefore hname] at h
    change c.args[styleNameIndex hasParent]?.map _ = some args at h
    refine ⟨fun arg harg => ?_, fun hnone => ?_⟩
    · rw [harg] at h
      exact (Option.some.inj h).symm
    · rw [hnone] at h
      cases h
  debug hpolicy _ := by
    subst hpolicy
    unfold arguments? at h
    simp only at h
    split at h
    · cases h
    · rename_i hnamed
      obtain ⟨name, hname, rfl⟩ := Option.map_eq_some_iff.mp h
      have htext : text? c.args (styleNameIndex hasParent) = none := by
        simpa [styleOf] using hnamed
      refine ⟨htext, name, ?_, getElem?_endedBy name (styleOf c hasParent) c.args⟩
      unfold styleOf at hname
      simpa [htext] using hname
  liveReload hpolicy := by
    subst hpolicy
    exact getElem?_of_liveReload h

/-- Every call that defines a style is gathered as one, and every policy edits it as it may. -/
theorem apply_edits (policy : StylePolicy) {hasParent : Bool} (hc : e.script.calls[id]? = some c)
    (hdefines : c.DefinesStyle hasParent) :
    (∀ resolve, useOf? resolve c = .ok (some (.style (styleOf c hasParent)))) ∧
      ∃ e' c', policy.apply id (styleOf c hasParent) e = .ok e' ∧
        policy.Edits hasParent e id c e' c' := by
  refine ⟨fun resolve => ?_, ?_⟩
  · unfold useOf?
    cases hasParent <;> simp [hdefines.object, hdefines.method]
  · have hgives := apply_gives policy (styleOf c hasParent) hc
    cases hargs : policy.arguments? (styleOf c hasParent) c.args with
    | none =>
      rw [hargs] at hgives
      exact ⟨e, c, hgives, edits_unchanged hc hargs⟩
    | some args =>
      rw [hargs] at hgives
      obtain ⟨e', he', hscript⟩ := hgives
      exact ⟨e', _, he', edits_changed hargs hscript⟩

/-- A call without the hover form and the name, whose result is assigned to a variable. -/
def boundCard : Call :=
  ⟨some "b", "styleDefEx", [.raw "base", .raw "s"], .none, some "card", false⟩

/-- A script with two style calls. -/
def twoStyles : Script :=
  ⟨"a.ts", "", [], [⟨some "b", "styleDef", [.raw "s"], .none, none, false⟩, boundCard], [], []⟩

theorem apply_edits_boundCard :
    (start twoStyles).script.calls[1]? = some boundCard ∧ boundCard.DefinesStyle true ∧
      (∀ resolve, useOf? resolve boundCard = .ok (some (.style (styleOf boundCard true)))) ∧
      ∃ e' c', (debug none).apply 1 (styleOf boundCard true) (start twoStyles) = .ok e' ∧
        (debug none).Edits true (start twoStyles) 1 boundCard e' c' ∧
        c'.args = [.raw "base", .raw "s", .null, .str "card"] := by
  have hdefines : boundCard.DefinesStyle true := ⟨rfl, rfl⟩
  have hcard : (start twoStyles).script.calls[1]? = some boundCard := rfl
  obtain ⟨hgathered, e', c', happly, hedits⟩ := apply_edits (debug none) hcard hdefines
  refine ⟨hcard, hdefines, hgathered, e', c', happly, hedits, ?_⟩
  -- the edit that is carried out here has one outcome, and the call of that is the one that is meant
  have hcall : e'.script.calls[1]? = some c' := by
    rw [hedits.alone]
    rfl
  cases happly
  cases hcall
  rfl

end StylePolicy

/-! ## The second pass -/

namespace References

variable {refs : References}

/-- A style that is asked for is that of its call. -/
theorem GatheredFrom.style_eq {calls : List Call} (h : refs.GatheredFrom calls) {call : Nat}
    {s : StyleUse} (hmem : (call, s) ∈ refs.styles) :
    ∃ c, calls[call]? = some c ∧ c.DefinesStyle s.hasParent ∧ s = styleOf c s.hasParent := by
  obtain ⟨c, hc, resolve, huse⟩ := h.asked _ (mem_styles hmem)
  refine ⟨c, hc, ?_⟩
  cases asks_of_useOf? huse with
  | style hasParent hobject hmethod => exact ⟨⟨hobject, hmethod⟩, rfl⟩

end References

namespace Resources

open Editing Step

variable {e : Editing} {refs : References} {p : Project}

private theorem applyStyle_ok (policy : StylePolicy) {c : Call} (site : Nat × StyleUse)
    (hc : e.script.calls[site.1]? = some c) :
    ∃ e', policy.apply site.1 site.2 e = .ok e' ∧ e.Leaves (· = site.1) e' ∧
      e'.script.calls[site.1]? = some (policy.rewrite site.2 c) := by
  have hgives := StylePolicy.apply_gives policy site.2 hc
  unfold StylePolicy.rewrite
  cases hargs : policy.arguments? site.2 c.args with
  | none =>
    rw [hargs] at hgives
    exact ⟨e, hgives, .refl e, hc⟩
  | some args =>
    rw [hargs] at hgives
    obtain ⟨e', he', hscript⟩ := hgives
    refine ⟨e', he', ⟨?_, fun i hi => ?_⟩, ?_⟩
    · rw [hscript]
      exact List.length_set
    · rw [hscript]
      exact List.getElem?_set_ne fun heq => hi heq.symm
    · rw [hscript]
      exact List.getElem?_set_self (List.getElem?_eq_some_iff.mp hc).1

/-- The last stage of the second pass follows the policy of the project. -/
private theorem Staged.styles {file : String} {e₁ e₂ e₃ e₄ : Editing} {p₁ p₃ : Project}
    (h : Staged file refs e p e₁ p₁ e₂ e₃ p₃ e₄) :
    refs.styles.foldlM (fun e site => p.config.stylePolicy.apply site.1 site.2 e) e₃ = .ok e₄ := by
  have hconfig : p₁.config = p.config :=
    ((obeys_foldlM (fun e site => obeys_applySprite e site) _ _).ok h.sprites).config
  have hwhole := h.whole
  unfold apply at hwhole
  obtain ⟨e₁', p₁', hsprites, hwhole⟩ := (bind_ok_iff _ _ _ _ _).mp hwhole
  obtain ⟨rfl, rfl⟩ := EStateM.Result.ok.inj (hsprites.symm.trans h.sprites)
  obtain ⟨q, q', hget, hwhole⟩ := (bind_ok_iff _ _ _ _ _).mp hwhole
  obtain ⟨rfl, rfl⟩ := (get_ok_iff _ _ _).mp hget
  obtain ⟨e₂', q₂, hlifted, hwhole⟩ := (bind_ok_iff _ _ _ _ _).mp hwhole
  obtain ⟨hassets, rfl⟩ := (lift_ok_iff _ _ _ _).mp hlifted
  obtain rfl := Except.ok.inj (hassets.symm.trans h.assets)
  obtain ⟨e₃', q₃, hmessages, hwhole⟩ := (bind_ok_iff _ _ _ _ _).mp hwhole
  obtain ⟨rfl, rfl⟩ := EStateM.Result.ok.inj (hmessages.symm.trans h.messages)
  obtain ⟨hstyles, -⟩ := (lift_ok_iff _ _ _ _).mp hwhole
  rw [← hconfig]
  exact hstyles

/-- The second pass over a script: it comes to an end for every project, and a style call is behind it
what the policy of the project makes of it. -/
theorem apply_styles (file : String) (p : Project) (hrefs : refs.GatheredFrom e.script.calls) :
    ∃ e' p', apply file refs e p = .ok e' p' ∧
      ∀ call s, (call, s) ∈ refs.styles → ∃ c, e.script.calls[call]? = some c ∧
        c.DefinesStyle s.hasParent ∧ s = styleOf c s.hasParent ∧
        e'.script.calls[call]? = some (p.config.stylePolicy.rewrite s c) := by
  obtain ⟨e₁, p₁, e₂, e₃, p₃, e₄, h⟩ := apply_staged file p hrefs
  refine ⟨e₄, p₃, h.whole, fun call s hmem => ?_⟩
  -- the stages before leave the calls alone at which a style is asked for
  have hapart : ∀ site ∈ refs.styles, ∀ K : Use → Prop, (∀ s, ¬K (.style s)) → ¬refs.At K site.1 := by
    intro site hsite K hK hat
    obtain ⟨use, ⟨s, rfl⟩, huse⟩ := hrefs.at_both (References.at_style hsite) hat
    exact hK s huse
  have hkept : ∀ site ∈ refs.styles, e₃.script.calls[site.1]? = e.script.calls[site.1]? := by
    intro site hsite
    rw [h.messageCalls.same _ (hapart site hsite _ fun _ ⟨_, h⟩ => by cases h),
      h.assetCalls.same _ (hapart site hsite _ fun _ ⟨_, h⟩ => by cases h),
      h.spriteCalls.same _ (hapart site hsite _ fun _ ⟨_, h⟩ => by cases h)]
  obtain ⟨c, hc, hdefines, hs⟩ := hrefs.style_eq hmem
  refine ⟨c, hc, hdefines, hs, ?_⟩
  obtain ⟨e₄', hfold, -, hset⟩ := @foldlM_sets _ Prod.fst _ (fun _ _ => True) _
    (fun e site c hc _ => applyStyle_ok p.config.stylePolicy site hc) _ _ hrefs.nodup_styles
    fun site hsite => by
      obtain ⟨d, hd, -⟩ := hrefs.style_eq hsite
      exact ⟨d, (hkept site hsite).trans hd, trivial⟩
  obtain rfl := Except.ok.inj (hfold.symm.trans h.styles)
  exact hset (call, s) hmem c ((hkept _ hmem).trans hc)

end Resources

end Bundler

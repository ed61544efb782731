/-
Edits are taken back.

A script that was just read has no edited node (`Script.unedited_of_read`). Before it is written, a
build sets constants and calls in it, by edits of four kinds with values made of what the calls have
(`Editing.Edit`). Whatever is set, how often and in which order, each edit puts on record what it is
about to change, so that the records lead back to the script that the edits began with
(`Editing.Leads.edits`). It follows for all that a build does to a script before it writes it: what is
written is the script with edits (`Session.render_ok`), and without them it is the script again.
-/
import Mathlib.Logic.Relation
import Bundler.Proofs.Nodes
import Bundler.Session

set_option autoImplicit false

namespace Bundler

open Step

/-! ## Scripts as they are read -/

namespace Script

/-- No node of a script was edited. -/
structure Unedited (s : Script) : Prop where
  calls : ∀ c ∈ s.calls, c.edited = false
  constants : ∀ c ∈ s.constants, c.edited = false

private theorem unedited_constants {text : List Char} {ls : Literals} :
    ∀ {ms : List (Match (List Char × String))} {found : List (Option ExportedConstant)},
      ms.mapM (constantOf? text ls) = .ok found → ∀ c, some c ∈ found → c.edited = false
  | [], found, h, c, hc => by
    cases h
    exact absurd hc List.not_mem_nil
  | m :: ms, found, h, c, hc => by
    rw [List.mapM_cons] at h
    obtain ⟨first, hfirst, h⟩ := (except_bind_ok_iff _ _ _).mp h
    obtain ⟨rest, hrest, h⟩ := (except_bind_ok_iff _ _ _).mp h
    cases h
    rcases List.mem_cons.mp hc with rfl | hmem
    · unfold constantOf? at hfirst
      obtain ⟨behind, -, hfirst⟩ := (except_bind_ok_iff _ _ _).mp hfirst
      simp only at hfirst
      split at hfirst
      · cases hfirst
      · obtain ⟨keyword, -, hfirst⟩ := (except_bind_ok_iff _ _ _).mp hfirst
        obtain ⟨span, -, hfirst⟩ := (except_bind_ok_iff _ _ _).mp hfirst
        cases hfirst
        rfl
    · exact unedited_constants hrest c hmem

/-- A script that was read bears the name of its file, and no node of it is edited. -/
theorem unedited_of_read {file source : String} {s : Script} {ds : List Diagnostic}
    (h : read file source = .ok (s, ds)) : s.file = file ∧ s.Unedited := by
  have hcalls : ∀ c ∈ s.calls, c.edited = false := fun c hc => by
    obtain ⟨here, -, hread⟩ := exists_of_mem_calls h hc
    exact hread.unedited
  unfold read at h
  obtain ⟨imports, -, h⟩ := (except_bind_ok_iff _ _ _).mp h
  obtain ⟨constants, hconstants, h⟩ := (except_bind_ok_iff _ _ _).mp h
  obtain ⟨functions, -, h⟩ := (except_bind_ok_iff _ _ _).mp h
  obtain ⟨⟨calls, ds'⟩, -, h⟩ := (except_bind_ok_iff _ _ _).mp h
  cases h
  refine ⟨rfl, hcalls, fun c hc => ?_⟩
  unfold readConstants at hconstants
  obtain ⟨found, hfound, hconstants⟩ := (except_bind_ok_iff _ _ _).mp hconstants
  cases hconstants
  obtain ⟨c', hc', rfl⟩ := List.mem_filterMap.mp hc
  exact unedited_constants hfound c hc'

end Script

/-! ## Single edits -/

private theorem set_back {α : Type} {l : List α} {i : Nat} {a b : α} (h : l[i]? = some a) :
    (l.set i b).set i a = l := by
  rw [List.set_set]
  refine List.ext_getElem? fun j => ?_
  rw [List.getElem?_set]
  split
  · rename_i hij
    subst hij
    obtain ⟨hlt, -⟩ := List.getElem?_eq_some_iff.mp h
    rw [if_pos hlt, h]
  · rfl

private theorem modify_back {α : Type} {l : List α} {i : Nat} {a : α} {f g : α → α}
    (h : l[i]? = some a) (hback : g (f a) = a) : (l.modify i f).modify i g = l := by
  refine List.ext_getElem? fun j => ?_
  rw [List.getElem?_modify, List.getElem?_modify]
  by_cases hij : i = j
  · subst hij
    rw [h]
    simp [hback]
  · simp [hij]

namespace Editing

variable {e e' : Editing} {id : Nat}

theorem getElem?_of_call {c : Call} (h : e.call id = .ok c) : e.script.calls[id]? = some c := by
  unfold call at h
  split at h
  · cases h
    assumption
  · cases h

/-- An edit of a call puts another in its place. -/
theorem exists_of_editCall {change : Call → Call} (h : e.editCall id change = .ok e') :
    ∃ c, e.call id = .ok c ∧ e'.call id = .ok { change c with edited := true } ∧
      e'.script = putCall e.script id { change c with edited := true } := by
  unfold editCall at h
  obtain ⟨c, hc, h⟩ := (except_bind_ok_iff _ _ _).mp h
  cases h
  refine ⟨c, hc, ?_, rfl⟩
  obtain ⟨hlt, -⟩ := List.getElem?_eq_some_iff.mp (getElem?_of_call hc)
  unfold call putCall
  simp only [List.getElem?_set_self hlt]

/-- A script under edit that is one edit further: it has one record more, which leads back. -/
def Extends (e e' : Editing) : Prop :=
  ∃ r, e'.records = r :: e.records ∧ undo e'.script r = e.script

/-- An edit of a call leads back to the script before it. -/
theorem extends_editCall {change : Call → Call} (h : e.editCall id change = .ok e') :
    e.Extends e' := by
  unfold editCall call at h
  cases hcall : e.script.calls[id]? with
  | none =>
    rw [hcall] at h
    cases h
  | some before =>
    rw [hcall] at h
    cases h
    refine ⟨.call id before, rfl, ?_⟩
    unfold undo putCall
    simp only [set_back hcall]

/-- So does an edit of a constant. -/
theorem extends_setInit {value : Expr} (h : e.setInit id value = .ok e') : e.Extends e' := by
  unfold setInit at h
  cases hconstant : e.script.constants[id]? with
  | none =>
    rw [hconstant] at h
    cases h
  | some c =>
    rw [hconstant] at h
    cases h
    refine ⟨.constant id c.init c.edited, rfl, ?_⟩
    unfold undo putInit
    simp only [modify_back hconstant]

theorem Extends.restored_eq (h : e.Extends e') : e'.restored = e.restored := by
  obtain ⟨r, hrecords, hback⟩ := h
  unfold restored
  rw [hrecords, List.foldl_cons, hback]

theorem restored_editCall {change : Call → Call} (h : e.editCall id change = .ok e') :
    e'.restored = e.restored := (extends_editCall h).restored_eq

theorem restored_setInit {value : Expr} (h : e.setInit id value = .ok e') :
    e'.restored = e.restored := (extends_setInit h).restored_eq

/-- A script under edit that leads back to a script. -/
def Edits (script : Script) (e : Editing) : Prop := e.restored = script

end Editing

/-- What a build makes of the arguments of a call: one of them, a literal, a function that returns some,
or a sum. -/
inductive Expr.MadeOf (args : List Expr) : Expr → Prop
  | argument {e : Expr} (h : e ∈ args) : MadeOf args e
  | str (s : String) : MadeOf args (.str s)
  | num (x : Double) : MadeOf args (.num x)
  | null : MadeOf args .null
  | lambda {items : List Expr} (h : ∀ e ∈ items, MadeOf args e) : MadeOf args (.lambda items)
  | concat {left right : Expr} (hleft : MadeOf args left) (hright : MadeOf args right) :
      MadeOf args (.concat left right)

namespace Editing

variable {script : Script} {e e' : Editing}

/-- One edit of those that a build makes. -/
inductive Edit (e e' : Editing) : Prop where
  | method {id : Nat} {name : String} (hname : ∀ c ∈ name.toList, Script.Pattern.isNamePart c = true)
      (h : e.setMethod id name = .ok e')
  | argument {id index : Nat} {value : Expr} {c : Call} (hcall : e.call id = .ok c)
      (hvalue : value.MadeOf c.args) (h : e.setArgument id index value = .ok e')
  | argumentCount {id count : Nat} (h : e.setArgumentCount id count = .ok e')
  | init {id : Nat} {value : Expr} (h : e.setInit id value = .ok e')

/-- A value that owes nothing to the arguments can be set in any call. -/
theorem Edit.constant {id index : Nat} {value : Expr} (hvalue : ∀ args, value.MadeOf args)
    (h : e.setArgument id index value = .ok e') : Edit e e' := by
  obtain ⟨c, hc, -⟩ := exists_of_editCall h
  exact .argument hc (hvalue c.args) h

/-- A script under edit that edits have led to from another one. -/
def Leads : Editing → Editing → Prop := Relation.ReflTransGen Edit

theorem Leads.refl (e : Editing) : Leads e e := Relation.ReflTransGen.refl

theorem Leads.trans {e₁ e₂ e₃ : Editing} (h : Leads e₁ e₂) (h' : Leads e₂ e₃) : Leads e₁ e₃ :=
  Relation.ReflTransGen.trans h h'

theorem Edit.leads (h : Edit e e') : Leads e e' := Relation.ReflTransGen.single h

/-- Whatever is set, the records lead back to the script that the edits began with. -/
theorem Leads.edits (h : Leads (start script) e) : e.Edits script := by
  induction h with
  | refl => rfl
  | tail _ hedit ih =>
    cases hedit with
    | method _ h => exact (restored_editCall h).trans ih
    | argument _ _ h => exact (restored_editCall h).trans ih
    | argumentCount h => exact (restored_editCall h).trans ih
    | init h => exact (restored_setInit h).trans ih

end Editing

/-! ## What a build sets -/

open Editing

namespace StylePolicy

variable {e e' : Editing} {call : Nat} {s : StyleUse}

private theorem leads_addPrefix {before : String} (h : addPrefix before call s e = .ok e') :
    e.Leads e' := by
  unfold addPrefix at h
  simp only at h
  split at h
  · exact (Edit.constant (fun _ => .str _) h).leads
  · obtain ⟨c, hc, h⟩ := (except_bind_ok_iff _ _ _).mp h
    split at h
    · rename_i arg harg
      exact (Edit.argument hc (.concat (.str _) (.argument (List.mem_of_getElem? harg))) h).leads
    · cases h
      exact .refl _

private theorem leads_setName {name : String} (h : setName name call s e = .ok e') : e.Leads e' := by
  unfold setName at h
  obtain ⟨e₁, h₁, h⟩ := (except_bind_ok_iff _ _ _).mp h
  exact (Edit.argumentCount h₁).leads.trans (Edit.constant (fun _ => .str _) h).leads

theorem leads_apply (policy : StylePolicy) (h : policy.apply call s e = .ok e') : e.Leads e' := by
  unfold apply at h
  obtain ⟨c, hc, h⟩ := (except_bind_ok_iff _ _ _).mp h
  cases policy with
  | keep =>
    cases h
    exact .refl _
  | liveReload =>
    obtain ⟨e₁, h₁, h⟩ := (except_bind_ok_iff _ _ _).mp h
    have hvalue : ∀ n, (Expr.lambda ((c.args.drop n).take 2)).MadeOf c.args := fun n =>
      .lambda fun a ha => .argument (List.mem_of_mem_drop (List.mem_of_mem_take ha))
    exact (Edit.argument hc (hvalue _) h₁).leads.trans (Edit.constant (fun _ => .null) h).leads
  | debug before =>
    cases before with
    | some before =>
      simp only at h
      split at h
      · exact leads_setName h
      · exact leads_addPrefix h
    | none =>
      simp only at h
      split at h
      · split at h
        · cases h
          exact .refl _
        · exact leads_setName h
      · cases h
        exact .refl _
  | release =>
    simp only at h
    generalize (if s.hasParent = true then 1 else 0) + 2 = count at h
    split at h
    · exact (Edit.argumentCount h).leads
    · cases h
      exact .refl _
  | prefixed before => exact leads_addPrefix h

end StylePolicy

namespace Resources

variable {e e' : Editing} {p p' : Project}

private theorem leads_setArguments {call : Nat} :
    ∀ {vs : List Expr} {index : Nat} {e e' : Editing}, (∀ v ∈ vs, ∀ args, v.MadeOf args) →
      setArguments call index vs e = .ok e' → e.Leads e'
  | [], index, e, e', _, h => by
    cases h
    exact .refl _
  | v :: vs, index, e, e', hvs, h => by
    unfold setArguments at h
    obtain ⟨e₁, h₁, h⟩ := (except_bind_ok_iff _ _ _).mp h
    exact (Edit.constant (hvs v List.mem_cons_self) h₁).leads.trans
      (leads_setArguments (fun w hw => hvs w (List.mem_cons_of_mem _ hw)) h)

private theorem leads_placeSprite {call : Nat} {s : SpriteUse} {area : Placement}
    (h : placeSprite call s area e = .ok e') : e.Leads e' := by
  have hnumbers : ∀ v ∈ [area.width, area.height, area.x, area.y].map Expr.ofNat,
      ∀ args, v.MadeOf args := fun v hv args => by
    obtain ⟨n, -, rfl⟩ := List.mem_map.mp hv
    exact .num _
  unfold placeSprite at h
  obtain ⟨c, hc, h⟩ := (except_bind_ok_iff _ _ _).mp h
  simp only at h
  split at h
  · rename_i color rest hdrop hdynamic
    obtain ⟨e₁, h₁, h⟩ := (except_bind_ok_iff _ _ _).mp h
    obtain ⟨e₂, h₂, h⟩ := (except_bind_ok_iff _ _ _).mp h
    unfold setArguments at h₂
    obtain ⟨e₃, h₃, h₂⟩ := (except_bind_ok_iff _ _ _).mp h₂
    -- the name is set first, which leaves the color among the arguments
    obtain ⟨c', hc', hnamed, -⟩ := exists_of_editCall h₁
    cases hc.symm.trans hc'
    have hcolor : color ∈ c.args := List.mem_of_mem_drop (hdrop ▸ List.mem_cons_self)
    exact (Edit.method (List.all_eq_true.mp (by decide)) h₁).leads.trans ((Edit.argument hnamed (.argument hcolor) h₃).leads.trans
      ((leads_setArguments hnumbers h₂).trans (Edit.argumentCount h).leads))
  · obtain ⟨e₁, h₁, h⟩ := (except_bind_ok_iff _ _ _).mp h
    obtain ⟨e₂, h₂, h⟩ := (except_bind_ok_iff _ _ _).mp h
    exact (Edit.method (List.all_eq_true.mp (by decide)) h₁).leads.trans
      ((leads_setArguments hnumbers h₂).trans (Edit.argumentCount h).leads)

/-- A relation between a script under edit and a later one that holds across all that the second pass
sets. -/
structure Carries (R : Editing → Editing → Prop) : Prop where
  refl : ∀ e, R e e
  trans : ∀ {e₁ e₂ e₃}, R e₁ e₂ → R e₂ e₃ → R e₁ e₃
  text : ∀ {e e' : Editing} {id : Nat} {s : String}, e.setArgument id 0 (.str s) = .ok e' → R e e'
  number : ∀ {e e' : Editing} {id n : Nat}, e.setArgument id 0 (.ofNat n) = .ok e' → R e e'
  count : ∀ {e e' : Editing} {id count : Nat}, e.setArgumentCount id count = .ok e' → R e e'
  sprite : ∀ {e e' : Editing} {call : Nat} {s : SpriteUse} {area : Placement},
    placeSprite call s area e = .ok e' → R e e'
  style : ∀ {e e' : Editing} {policy : StylePolicy} {call : Nat} {s : StyleUse},
    policy.apply call s e = .ok e' → R e e'

namespace Carries

variable {R : Editing → Editing → Prop}

private theorem foldlM {α β : Type} (hR : Carries R) {f : β → α → Except Fault β} (part : β → Editing)
    (hf : ∀ b a b', f b a = .ok b' → R (part b) (part b')) :
    ∀ {as : List α} {b b' : β}, as.foldlM f b = .ok b' → R (part b) (part b')
  | [], b, b', h => by
    cases h
    exact hR.refl _
  | a :: as, b, b', h => by
    rw [List.foldlM_cons] at h
    obtain ⟨c, hc, h⟩ := (except_bind_ok_iff _ _ _).mp h
    exact hR.trans (hf b a c hc) (hR.foldlM part hf h)

private theorem applySprite (hR : Carries R) {site : Nat × SpriteUse}
    (h : Resources.applySprite e site p = .ok e' p') : R e e' := by
  obtain ⟨call, s⟩ := site
  unfold Resources.applySprite at h
  cases hname : s.name with
  | none =>
    simp only [hname] at h
    obtain ⟨rfl, -⟩ := (pure_ok_iff _ _ _ _).mp h
    exact hR.refl _
  | some name =>
    simp only [hname] at h
    obtain ⟨q, q', hget, h⟩ := (bind_ok_iff _ _ _ _ _).mp h
    split at h
    · cases harea : q.atlas.query (spriteKey s name) with
      | none =>
        rw [harea] at h
        obtain ⟨rfl, -⟩ := (pure_ok_iff _ _ _ _).mp h
        exact hR.refl _
      | some area =>
        rw [harea] at h
        obtain ⟨hplace, -⟩ := (lift_ok_iff _ _ _ _).mp h
        exact hR.sprite hplace
    · obtain ⟨output, q₁, -, h⟩ := (bind_ok_iff _ _ _ _ _).mp h
      obtain ⟨u, q₂, -, h⟩ := (bind_ok_iff _ _ _ _ _).mp h
      obtain ⟨hset, -⟩ := (lift_ok_iff _ _ _ _).mp h
      exact hR.text hset

private theorem applySprites (hR : Carries R) :
    ∀ {sites : List (Nat × SpriteUse)} {e e' : Editing} {p p' : Project},
      sites.foldlM Resources.applySprite e p = .ok e' p' → R e e'
  | [], e, e', p, p', h => by
    obtain ⟨rfl, -⟩ := (pure_ok_iff _ _ _ _).mp h
    exact hR.refl _
  | site :: sites, e, e', p, p', h => by
    rw [List.foldlM_cons] at h
    obtain ⟨e₁, p₁, h₁, h⟩ := (bind_ok_iff _ _ _ _ _).mp h
    exact hR.trans (hR.applySprite h₁) (hR.applySprites h)

private theorem applyMessage (hR : Carries R) {state state' : Catalogue × Editing} {site : Nat × MessageUse}
    (h : Resources.applyMessage state site = .ok state') : R state.2 state'.2 := by
  unfold Resources.applyMessage at h
  simp only at h
  split at h
  · cases h
    exact hR.refl _
  · split at h
    · cases h
      exact hR.refl _
    · obtain ⟨e₁, h₁, h⟩ := (except_bind_ok_iff _ _ _).mp h
      obtain ⟨c, -, h⟩ := (except_bind_ok_iff _ _ _).mp h
      have hfirst : R state.2 e₁ := hR.number h₁
      split at h
      · obtain ⟨e₂, h₂, h⟩ := (except_bind_ok_iff _ _ _).mp h
        cases h
        exact hR.trans hfirst (hR.count h₂)
      · cases h
        exact hfirst

private theorem applyMessages (hR : Carries R) {file : String} {refs : References}
    (h : Resources.applyMessages file refs e p = .ok e' p') : R e e' := by
  unfold Resources.applyMessages at h
  obtain ⟨q, q', hget, h⟩ := (bind_ok_iff _ _ _ _ _).mp h
  cases hcatalogue : q.catalogue with
  | none =>
    rw [hcatalogue] at h
    obtain ⟨rfl, -⟩ := (pure_ok_iff _ _ _ _).mp h
    exact hR.refl _
  | some catalogue =>
    rw [hcatalogue] at h
    simp only at h
    split at h
    · obtain ⟨rfl, -⟩ := (pure_ok_iff _ _ _ _).mp h
      exact hR.refl _
    · obtain ⟨state, q₁, hfold, h⟩ := (bind_ok_iff _ _ _ _ _).mp h
      obtain ⟨u, q₂, -, h⟩ := (bind_ok_iff _ _ _ _ _).mp h
      obtain ⟨rfl, -⟩ := (pure_ok_iff _ _ _ _).mp h
      obtain ⟨hmessages, -⟩ := (lift_ok_iff _ _ _ _).mp hfold
      exact hR.foldlM Prod.snd (fun _ _ _ => hR.applyMessage) hmessages

/-- What holds across all that is set at the sites holds across the second pass. -/
theorem apply (hR : Carries R) {file : String} {refs : References}
    (h : Resources.apply file refs e p = .ok e' p') : R e e' := by
  unfold Resources.apply at h
  obtain ⟨e₁, p₁, h₁, h⟩ := (bind_ok_iff _ _ _ _ _).mp h
  obtain ⟨q, p₂, -, h⟩ := (bind_ok_iff _ _ _ _ _).mp h
  obtain ⟨e₂, p₃, h₂, h⟩ := (bind_ok_iff _ _ _ _ _).mp h
  obtain ⟨e₃, p₄, h₃, h⟩ := (bind_ok_iff _ _ _ _ _).mp h
  obtain ⟨hassets, -⟩ := (lift_ok_iff _ _ _ _).mp h₂
  obtain ⟨hstyles, -⟩ := (lift_ok_iff _ _ _ _).mp h
  have hassets : R e₁ e₂ := by
    refine hR.foldlM id (fun e site e' hone => ?_) hassets
    unfold applyAsset at hone
    split at hone
    · exact hR.text hone
    · cases hone
      exact hR.refl _
  have hstyles : R e₃ e' := hR.foldlM id (fun _ _ _ => hR.style) hstyles
  exact hR.trans (hR.applySprites h₁) (hR.trans hassets (hR.trans (hR.applyMessages h₃) hstyles))

end Carries

/-- All that the second pass sets in a script is edits. -/
theorem carries_leads : Carries Leads where
  refl := .refl
  trans := .trans
  text h := (Edit.constant (fun _ => .str _) h).leads
  number h := (Edit.constant (fun _ => .num _) h).leads
  count h := (Edit.argumentCount h).leads
  sprite := leads_placeSprite
  style := StylePolicy.leads_apply _

end Resources

namespace Session

variable {R : Editing → Editing → Prop}

private theorem carries_applyOverrides (hR : Resources.Carries R) :
    ∀ {overrides : List Override} {e e' : Editing},
      (∀ o ∈ overrides, ∀ e e', e.setInit o.constant o.value = .ok e' → R e e') →
        applyOverrides e overrides = .ok e' → R e e'
  | [], e, e', _, h => by
    cases h
    exact hR.refl _
  | o :: overrides, e, e', hinit, h => by
    unfold applyOverrides at h
    obtain ⟨e₁, h₁, h⟩ := (except_bind_ok_iff _ _ _).mp h
    have hfirst := hinit o List.mem_cons_self e e₁ h₁
    have hlater := fun o' ho' => hinit o' (List.mem_cons_of_mem o ho')
    exact hR.trans hfirst (carries_applyOverrides hR hlater h)

variable {file : String} {script : Script} {refs : References} {overrides : List Override}
  {o : Script.WriteOptions} {written : Script.Written} {p p' : Project}

/-- What is written is a script that the constants were set in, and then all that the second pass sets. -/
theorem exists_of_render (hR : Resources.Carries R)
    (hinit : ∀ o ∈ overrides, ∀ e e', e.setInit o.constant o.value = .ok e' → R e e')
    (h : render file script refs overrides o p = .ok written p') :
    ∃ e : Editing, R (Editing.start script) e ∧ e.script.write o = .ok written := by
  unfold render at h
  obtain ⟨e₁, p₁, h₁, h⟩ := (bind_ok_iff _ _ _ _ _).mp h
  obtain ⟨e₂, p₂, h₂, h⟩ := (bind_ok_iff _ _ _ _ _).mp h
  obtain ⟨hoverrides, -⟩ := (lift_ok_iff _ _ _ _).mp h₁
  obtain ⟨hwrite, -⟩ := (lift_ok_iff _ _ _ _).mp h
  exact ⟨e₂, hR.trans (carries_applyOverrides hR hinit hoverrides) (hR.apply h₂), hwrite⟩

/-- What is written is the script with edits. -/
theorem render_ok (h : render file script refs overrides o p = .ok written p') :
    ∃ e : Editing, (Editing.start script).Leads e ∧ e.script.write o = .ok written :=
  exists_of_render Resources.carries_leads (fun _ _ _ _ h => (Edit.init h).leads) h

end Session

end Bundler

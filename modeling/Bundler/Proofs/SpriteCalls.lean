/-
What a sprite call becomes.

With an atlas, the second pass sets a sprite call to the area of its sprite (`Resources.apply_sprites`).
The area takes the place of all arguments. Of what is known at run time only, the color is kept in front
of the area, and nothing else is (`Call.mem_args_withArea`). So a call keeps all that it computes at run
time just if the color is all that it computes (`Call.keeps_iff`).

A width, a height or an offset that is no whole number is dropped with the rest. The sprite is then looked
up as if `null` stood in its place (`References.useOf?_cleared`), which asks for what the image has from
the offset on: the area that comes back is not the one that the call computes.
-/
import Bundler.Proofs.Packing
import Bundler.Proofs.Sites

set_option autoImplicit false

namespace Bundler

open Step References

/-! ## The call of an area -/

/-- An expression whose value is known at run time only. -/
def Expr.IsRuntime (a : Expr) : Prop := a.isConstant = false ∧ a ≠ .raw "undefined"

/-- The numbers of an area in a call. -/
def Placement.numbers (area : Placement) : List Expr :=
  [area.width, area.height, area.x, area.y].map Expr.ofNat

namespace Call

/-- A sprite call that is set to an area. -/
def withArea (c : Call) (area : Placement) : Call :=
  match c.args.drop 1, colorOf c.args with
  | color :: _, .dynamic =>
    { c with method := "spritebc", args := color :: area.numbers, edited := true }
  | _, _ => { c with method := "spriteb", args := area.numbers, edited := true }

variable {c : Call} {area : Placement} {a : Expr}

/-- A color of the run time is seen as one. -/
theorem colorOf_of_isRuntime (h : a.IsRuntime) {image : Expr} {rest : List Expr} :
    colorOf (image :: a :: rest) = .dynamic := by
  obtain ⟨hconstant, hundefined⟩ := h
  unfold colorOf
  cases a with
  | str s => cases hconstant
  | null => cases hconstant
  | raw text =>
    have htext : (text == "undefined") = false := beq_false_of_ne fun heq => hundefined (by rw [heq])
    simp [htext]
  | num x => rfl
  | bool b => rfl
  | lambda items => rfl
  | concat left right => rfl

/-- Of all that a call computes at run time, the color is kept and nothing else. -/
theorem mem_args_withArea (h : a.IsRuntime) : a ∈ (c.withArea area).args ↔ c.args[1]? = some a := by
  have hnumbers : a ∉ area.numbers := by
    intro hmem
    obtain ⟨n, -, rfl⟩ := List.mem_map.mp hmem
    exact Bool.noConfusion h.1
  unfold withArea
  cases hargs : c.args with
  | nil => simpa using hnumbers
  | cons image rest =>
    cases rest with
    | nil => simpa using hnumbers
    | cons color rest =>
      have hcolor : color = a → colorOf (image :: color :: rest) = .dynamic := fun heq =>
        heq ▸ colorOf_of_isRuntime h
      simp only [List.drop_succ_cons, List.drop_zero, List.getElem?_cons_succ, List.getElem?_cons_zero,
        Option.some.injEq]
      split
      · rename_i first _ hfirst _
        obtain ⟨rfl, -⟩ := List.cons.inj hfirst
        simp only [List.mem_cons, hnumbers, or_false]
        exact eq_comm
      · rename_i hplain
        simp only [hnumbers, false_iff]
        exact fun heq => hplain _ _ rfl (hcolor heq)

example :
    let c : Call := ⟨some "b", "sprite", [.str "a.png", .null, .raw "w", .ofNat 8], .none, none, false⟩
    (c.withArea ⟨0, 0, 32, 8⟩).args = [.ofNat 32, .ofNat 8, .ofNat 0, .ofNat 0] := rfl

/-- A call keeps what it computes at run time just if the color is all of that. -/
theorem keeps_iff : (∀ a ∈ c.args, a.IsRuntime → a ∈ (c.withArea area).args) ↔
    ∀ a ∈ c.args, a.IsRuntime → c.args[1]? = some a := by
  refine ⟨fun h a ha hrun => ?_, fun h a ha hrun => ?_⟩
  · exact (mem_args_withArea hrun).mp (h a ha hrun)
  · exact (mem_args_withArea hrun).mpr (h a ha hrun)

/-- A call whose width, height and offsets are `null` where they are no whole numbers. -/
def cleared (c : Call) : Call :=
  { c with args := c.args.mapIdx fun i a => if 2 ≤ i ∧ pixels? c.args i = none then .null else a }

theorem getElem?_cleared {i : Nat} (h : i < 2 ∨ pixels? c.args i ≠ none) :
    c.cleared.args[i]? = c.args[i]? := by
  have hkept : ¬(2 ≤ i ∧ pixels? c.args i = none) := fun ⟨hi, hnone⟩ =>
    h.elim (fun hlt => absurd hi (Nat.not_le_of_lt hlt)) fun hsome => hsome hnone
  unfold cleared
  simp only [List.getElem?_mapIdx, if_neg hkept, Option.map_id_fun', id_eq]

/-- A width, a height or an offset that is no whole number counts for nothing. -/
theorem pixels?_cleared (c : Call) (i : Nat) : pixels? c.cleared.args i = pixels? c.args i := by
  by_cases h : i < 2 ∨ pixels? c.args i ≠ none
  · unfold pixels?
    rw [getElem?_cleared h]
  · simp only [not_or, Nat.not_lt, not_not] at h
    rw [h.2]
    unfold pixels? cleared
    simp only [List.getElem?_mapIdx, if_pos h]
    cases c.args[i]? <;> rfl

end Call

namespace References

variable {resolve : String → Except Fault String} {refs : References} {c : Call} {s : SpriteUse}

/-- Only the color argument counts for the color. -/
private theorem colorOf_congr {as bs : List Expr} (h : as[1]? = bs[1]?) : colorOf as = colorOf bs := by
  have hhead : ∀ cs : List Expr, (cs.drop 1).head? = cs[1]? := fun cs => List.head?_drop
  have hheads : (as.drop 1).head? = (bs.drop 1).head? := by rw [hhead, hhead, h]
  unfold colorOf
  cases has : as.drop 1 with
  | nil =>
    cases hbs : bs.drop 1 with
    | nil => rfl
    | cons b _ =>
      rw [has, hbs] at hheads
      cases hheads
  | cons a _ =>
    cases hbs : bs.drop 1 with
    | nil =>
      rw [has, hbs] at hheads
      cases hheads
    | cons b _ =>
      rw [has, hbs] at hheads
      cases hheads
      cases a <;> rfl

/-- The call of a sprite asks for what its arguments say. -/
theorem useOf?_sprite (hobject : c.object = some "b") (hmethod : c.method = "sprite") :
    useOf? resolve c = do
      return some (.sprite {
        name := ← resource? resolve c.args
        color := colorOf c.args
        width := pixels? c.args 2
        height := pixels? c.args 3
        x := pixels? c.args 4
        y := pixels? c.args 5 }) := by
  unfold useOf?
  simp only [hobject, hmethod]
  rfl

/-- A sprite call is looked up as if `null` stood for each width, height or offset of it that is no whole
number. -/
theorem useOf?_cleared (hobject : c.object = some "b") (hmethod : c.method = "sprite") :
    useOf? resolve c.cleared = useOf? resolve c := by
  have hname : resource? resolve c.cleared.args = resource? resolve c.args := by
    unfold resource? text?
    rw [Call.getElem?_cleared (.inl (by decide))]
  have hcolor : colorOf c.cleared.args = colorOf c.args :=
    colorOf_congr (Call.getElem?_cleared (.inl (by decide)))
  rw [useOf?_sprite (c := c.cleared) hobject hmethod, useOf?_sprite hobject hmethod, hname, hcolor]
  simp only [Call.pixels?_cleared]

/-- What is known of a sprite comes from the arguments of its call. -/
structure OfCall (c : Call) (s : SpriteUse) : Prop where
  object : c.object = some "b"
  method : c.method = "sprite"
  color : s.color = colorOf c.args
  width : s.width = pixels? c.args 2
  height : s.height = pixels? c.args 3
  x : s.x = pixels? c.args 4
  y : s.y = pixels? c.args 5

theorem ofCall_of_useOf? (h : useOf? resolve c = .ok (some (.sprite s))) : OfCall c s := by
  cases asks_of_useOf? h with
  | sprite hobject hmethod => exact ⟨hobject, hmethod, rfl, rfl, rfl, rfl, rfl⟩

theorem GatheredFrom.ofCall {calls : List Call} (h : refs.GatheredFrom calls) {call : Nat}
    (hmem : (call, s) ∈ refs.sprites) : ∃ c, calls[call]? = some c ∧ OfCall c s := by
  obtain ⟨c, hc, resolve, huse⟩ := h.asked _ (mem_sprites hmem)
  exact ⟨c, hc, ofCall_of_useOf? huse⟩

end References

/-! ## The second pass -/

namespace Resources

open Editing

variable {e : Editing} {p : Project} {refs : References} {call : Nat} {c : Call}

private theorem take_put {args : List Expr} {index : Nat} (h : index ≤ args.length) (v : Expr) :
    index + 1 ≤ (put args index v).length ∧ (put args index v).take (index + 1) = args.take index ++ [v] := by
  obtain ⟨longer, hlonger, hlength, hfront⟩ : ∃ longer,
      (if args.length ≤ index then resize args (index + 1) else args) = longer ∧
      index + 1 ≤ longer.length ∧ longer.take index = args.take index := by
    refine ⟨_, rfl, ?_⟩
    split
    · rename_i hshort
      obtain rfl : args.length = index := Nat.le_antisymm hshort h
      have hresize : resize args (args.length + 1) = args ++ [.null] := by
        unfold resize
        rw [List.take_of_length_le (Nat.le_succ _), Nat.add_sub_cancel_left]
        rfl
      rw [hresize]
      exact ⟨by simp, by simp⟩
    · exact ⟨by omega, rfl⟩
  unfold put
  rw [hlonger]
  refine ⟨by rwa [List.length_set], ?_⟩
  rw [List.take_add_one, List.getElem?_set_self hlength, List.take_set_of_le (Nat.le_refl index), hfront]
  rfl

/-- Values that are set from a place on stand behind each other from there. -/
private theorem setArguments_ok :
    ∀ {vs : List Expr} {index : Nat} {e : Editing} {c : Call}, e.script.calls[call]? = some c →
      c.edited = true → index ≤ c.args.length →
      ∃ e' args, setArguments call index vs e = .ok e' ∧
        e'.script.calls = e.script.calls.set call { c with args } ∧
        args.take (index + vs.length) = c.args.take index ++ vs
  | [], index, e, c, hc, _, _ => by
    refine ⟨e, c.args, rfl, ?_, by simp⟩
    obtain ⟨hlt, rfl⟩ := List.getElem?_eq_some_iff.mp hc
    exact (List.set_getElem_self hlt).symm
  | v :: vs, index, e, c, hc, hedited, hindex => by
    have hlt := (List.getElem?_eq_some_iff.mp hc).1
    obtain ⟨e₁, h₁, hcalls⟩ := setArgument_ok hc index v
    obtain ⟨hlength, hfront⟩ := take_put hindex v
    have hc₁ : e₁.script.calls[call]? = some { c with args := put c.args index v, edited := true } := by
      rw [hcalls, List.getElem?_set_self hlt]
    obtain ⟨e₂, args, h₂, hcalls₂, hargs⟩ := @setArguments_ok vs _ _ _ hc₁ rfl hlength
    refine ⟨e₂, args, ?_, ?_, ?_⟩
    · unfold setArguments
      rw [h₁]
      exact h₂
    · rw [hcalls₂, hcalls, List.set_set, ← hedited]
    · rw [List.length_cons, show index + (vs.length + 1) = index + 1 + vs.length by omega, hargs]
      change (put c.args index v).take (index + 1) ++ vs = _
      rw [hfront, List.append_assoc]
      rfl

/-- A call with another method and other arguments. -/
private theorem recall_ok (hc : e.script.calls[call]? = some c) (method : String) (vs : List Expr) :
    ∃ e', (do
        let e ← e.setMethod call method
        let e ← setArguments call 0 vs e
        e.setArgumentCount call vs.length) = .ok e' ∧
      e'.script.calls = e.script.calls.set call { c with method, args := vs, edited := true } := by
  have hlt := (List.getElem?_eq_some_iff.mp hc).1
  obtain ⟨e₁, h₁, hcalls₁⟩ := editCall_ok hc fun c => { c with method }
  have hc₁ : e₁.script.calls[call]? = some { c with method, edited := true } := by
    rw [hcalls₁, List.getElem?_set_self hlt]
  obtain ⟨e₂, args, h₂, hcalls₂, hargs⟩ := @setArguments_ok call vs _ _ _ hc₁ rfl (Nat.zero_le _)
  have hc₂ : e₂.script.calls[call]? = some { c with method, args, edited := true } := by
    rw [hcalls₂, hcalls₁, List.set_set, List.getElem?_set_self hlt]
  obtain ⟨e₃, h₃, hcalls₃⟩ := editCall_ok hc₂ fun c => { c with args := resize c.args vs.length }
  have hcut : resize args vs.length = vs := by
    rw [Nat.zero_add, List.take_zero, List.nil_append] at hargs
    have hlength := congrArg List.length hargs
    rw [List.length_take] at hlength
    unfold resize
    rw [hargs, show vs.length - args.length = 0 by omega, List.replicate_zero, List.append_nil]
  refine ⟨e₃, ?_, ?_⟩
  · change (e.editCall call (fun c => { c with method }) >>= _) = _
    rw [h₁]
    change (setArguments call 0 vs e₁ >>= _) = _
    rw [h₂]
    exact h₃
  · rw [hcalls₃, hcalls₂, hcalls₁, List.set_set, List.set_set]
    simp only [hcut]

private theorem placeSprite_ok {s : SpriteUse} (hc : e.script.calls[call]? = some c)
    (hs : OfCall c s) (area : Placement) :
    ∃ e', placeSprite call s area e = .ok e' ∧
      e'.script.calls = e.script.calls.set call (c.withArea area) := by
  have hcall : e.call call = .ok c := by
    unfold Editing.call
    rw [hc]
  have hbind : ∀ f : Call → Except Fault Editing, ((Except.ok c : Except Fault Call) >>= f) = f c :=
    fun _ => rfl
  unfold placeSprite Call.withArea
  rw [hcall, hs.color, hbind]
  simp only
  cases c.args.drop 1 with
  | nil => exact recall_ok hc "spriteb" area.numbers
  | cons color rest =>
    cases colorOf c.args with
    | dynamic => exact recall_ok hc "spritebc" (color :: area.numbers)
    | plain => exact recall_ok hc "spriteb" area.numbers
    | constant _ => exact recall_ok hc "spriteb" area.numbers

/-- The area of a sprite, if it has a name that is known and a place in the atlas. -/
def areaOf (atlas : Atlas) (s : SpriteUse) : Option Placement :=
  s.name.bind fun name => atlas.query (spriteKey s name)

/-- The size of the area that a call is set to: what the call asks for in whole numbers, or else what the
image has from the offset on. -/
theorem size_areaOf {limit : Nat} {sizeOf : String → Option (Nat × Nat)} {a a' : Atlas} {image : AtlasImage}
    (hplaced : Atlas.Placed limit sizeOf a image a') {s : SpriteUse} (hs : OfCall c s) {area : Placement}
    (harea : areaOf a' s = some area) :
    ∃ name size, s.name = some name ∧ sizeOf name = some size ∧
      area.width = (pixels? c.args 2).getD (size.1 - (pixels? c.args 4).getD 0) ∧
      area.height = (pixels? c.args 3).getD (size.2 - (pixels? c.args 5).getD 0) := by
  obtain ⟨name, hname, hquery⟩ := Option.bind_eq_some_iff.mp harea
  obtain ⟨size, hsize, hwidth, hheight⟩ := hplaced.sized _ ((hplaced.query _ _).mp hquery)
  refine ⟨name, size, hname, hsize, ?_, ?_⟩
  · rw [← hs.width, ← hs.x]
    exact hwidth
  · rw [← hs.height, ← hs.y]
    exact hheight

/-- The edit of a sprite call with an atlas. -/
private def placeSite (atlas : Atlas) (e : Editing) (site : Nat × SpriteUse) : Except Fault Editing :=
  match areaOf atlas site.2 with
  | some area => placeSprite site.1 site.2 area e
  | none => .ok e

/-- With an atlas the sprites change nothing but their calls. -/
private theorem applySprites_merged (hmerge : p.config.spriteMerge = true) :
    ∀ (sites : List (Nat × SpriteUse)) (e e' : Editing),
      sites.foldlM (placeSite p.atlas) e = .ok e' → sites.foldlM applySprite e p = .ok e' p
  | [], e, e', h => by
    cases h
    rfl
  | (call, s) :: sites, e, e', h => by
    rw [List.foldlM_cons] at h
    obtain ⟨e₁, h₁, h⟩ := (except_bind_ok_iff _ _ _).mp h
    have hfirst : applySprite e (call, s) p = .ok e₁ p := by
      unfold placeSite areaOf at h₁
      unfold applySprite
      cases hname : s.name with
      | none =>
        simp only [hname, Option.bind_none] at h₁ ⊢
        cases h₁
        rfl
      | some name =>
        simp only [hname, Option.bind_some] at h₁ ⊢
        rw [get_bind, if_pos hmerge]
        cases hquery : p.atlas.query (spriteKey s name) with
        | none =>
          simp only [hquery] at h₁ ⊢
          cases h₁
          rfl
        | some area =>
          simp only [hquery] at h₁ ⊢
          rw [h₁]
          rfl
    rw [List.foldlM_cons, bind_of_ok hfirst]
    exact applySprites_merged hmerge sites e₁ e' h

/-- The second pass over a script with an atlas: it comes to an end for every project, and a sprite call is
behind it set to the area of its sprite, or is as it was if its image is not known or has no area. -/
theorem apply_sprites (file : String) (hrefs : refs.GatheredFrom e.script.calls)
    (hmerge : p.config.spriteMerge = true) :
    ∃ e' p', apply file refs e p = .ok e' p' ∧
      ∀ call s, (call, s) ∈ refs.sprites → ∃ c, e.script.calls[call]? = some c ∧ OfCall c s ∧
        e'.script.calls[call]? = some (((areaOf p.atlas s).map c.withArea).getD c) := by
  obtain ⟨e₁, p₁, e₂, e₃, p₃, e₄, h⟩ := apply_staged file p hrefs
  have hsite : ∀ (e : Editing) (site : Nat × SpriteUse) (c : Call),
      e.script.calls[site.1]? = some c → OfCall c site.2 →
      ∃ e', placeSite p.atlas e site = .ok e' ∧ e.Leaves (· = site.1) e' ∧
        e'.script.calls[site.1]? = some (((areaOf p.atlas site.2).map c.withArea).getD c) := by
    intro e site c hc hs
    unfold placeSite
    cases areaOf p.atlas site.2 with
    | none => exact ⟨e, rfl, .refl e, hc⟩
    | some area =>
      obtain ⟨e', he', hcalls⟩ := placeSprite_ok hc hs area
      refine ⟨e', he', ⟨by rw [hcalls, List.length_set], fun i hi => ?_⟩, ?_⟩
      · rw [hcalls, List.getElem?_set_ne fun heq => hi heq.symm]
      · rw [hcalls, List.getElem?_set_self (List.getElem?_eq_some_iff.mp hc).1]
        rfl
  obtain ⟨e₁', hplaced, -, hset⟩ := @foldlM_sets _ Prod.fst _ _ _ hsite _ _ hrefs.nodup_sprites
    fun site hmem => hrefs.ofCall hmem
  have hsprites := applySprites_merged hmerge refs.sprites e e₁' hplaced
  rw [h.sprites] at hsprites
  cases hsprites
  refine ⟨e₄, p₃, h.whole, fun call s hmem => ?_⟩
  obtain ⟨c, hc, hs⟩ := hrefs.ofCall hmem
  refine ⟨c, hc, hs, ?_⟩
  have hapart : ∀ K : Use → Prop, (∀ s, ¬K (.sprite s)) → ¬refs.At K call := by
    intro K hK hat
    obtain ⟨use, ⟨s, rfl⟩, huse⟩ := hrefs.at_both (References.at_sprite hmem) hat
    exact hK s huse
  rw [h.styleCalls.same call (hapart _ fun _ ⟨_, h⟩ => by cases h),
    h.messageCalls.same call (hapart _ fun _ ⟨_, h⟩ => by cases h),
    h.assetCalls.same call (hapart _ fun _ ⟨_, h⟩ => by cases h)]
  exact hset (call, s) hmem c hc

end Resources

end Bundler

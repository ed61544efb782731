/-
The calls that the second pass sets.

References are gathered from the calls of a script in order, one for each call that asks for something
(`References.GatheredFrom`). So no call is the place of two references, and the edits for one kind of
reference leave the calls of the other kinds alone. The second pass goes over the kinds one after the
other, and it ends with a result whatever the project is (`Resources.apply_staged`). What it does to the
calls of one kind can therefore be said for itself. Here that is done for the asset calls: each of them
gets the value that the project has for its asset as the first argument, and a call without such a value
stays as it was (`Resources.apply_assets`).
-/
import Mathlib.Data.List.Nodup
import Bundler.Proofs.Edits
import Bundler.Proofs.Search

set_option autoImplicit false

namespace Bundler

open Step

/-! ## References and calls -/

namespace References

variable {resolve : String → Except Fault String} {refs : References}

/-- What a call asks for, with what makes it ask for that. -/
inductive Asks (resolve : String → Except Fault String) (c : Call) : Use → Prop
  | asset {name : Option String} (hobject : c.object = some "b") (hmethod : c.method = "asset")
    (hname : resource? resolve c.args = .ok name) : Asks resolve c (.asset name)
  | sprite {name : Option String} (hobject : c.object = some "b") (hmethod : c.method = "sprite")
    (hname : resource? resolve c.args = .ok name) :
    Asks resolve c (.sprite
      { name
        color := colorOf c.args
        width := pixels? c.args 2
        height := pixels? c.args 3
        x := pixels? c.args 4
        y := pixels? c.args 5 })
  | style (hasParent : Bool) (hobject : c.object = some "b")
    (hmethod : c.method = if hasParent then "styleDefEx" else "styleDef") :
    Asks resolve c (.style (styleOf c hasParent))
  | message (formatOnly : Bool) (hobject : c.object = none)
    (hmethod : c.method = if formatOnly then "f" else "t") :
    Asks resolve c (.message (messageOf c formatOnly))

theorem asks_of_useOf? {c : Call} {use : Use} (h : useOf? resolve c = .ok (some use)) :
    Asks resolve c use := by
  unfold useOf? at h
  cases hobject : c.object with
  | none =>
    simp only [hobject] at h
    split at h
    · rename_i hmethod
      cases h
      exact .message false hobject (beq_iff_eq.mp hmethod)
    · split at h
      · rename_i hmethod
        cases h
        exact .message true hobject (beq_iff_eq.mp hmethod)
      · cases h
  | some object =>
    simp only [hobject] at h
    split at h
    · cases h
    · rename_i hb
      have hobject : c.object = some "b" := by simpa [hobject] using hb
      split at h
      · rename_i hmethod
        obtain ⟨name, hname, h⟩ := (except_bind_ok_iff _ _ _).mp h
        cases h
        exact .asset hobject (beq_iff_eq.mp hmethod) hname
      · split at h
        · rename_i hmethod
          obtain ⟨name, hname, h⟩ := (except_bind_ok_iff _ _ _).mp h
          cases h
          exact .sprite hobject (beq_iff_eq.mp hmethod) hname
        · split at h
          · rename_i hmethod
            cases h
            exact .style false hobject (beq_iff_eq.mp hmethod)
          · split at h
            · rename_i hmethod
              cases h
              exact .style true hobject (beq_iff_eq.mp hmethod)
            · cases h

/-- References that were gathered from calls: each is what its call asks for, and no call is the place
of two. -/
structure GatheredFrom (calls : List Call) (refs : References) : Prop where
  asked : ∀ r ∈ refs.sites, ∃ c, calls[r.call]? = some c ∧
    ∃ resolve, useOf? resolve c = .ok (some r.use)
  once : refs.sites.Pairwise fun r r' => r.call < r'.call

private theorem sitesFrom_ok : ∀ {cs : List Call} {id : Nat} {sites : List Reference},
    sitesFrom resolve id cs = .ok sites →
    (∀ r ∈ sites, id ≤ r.call ∧ ∃ c, cs[r.call - id]? = some c ∧
      useOf? resolve c = .ok (some r.use)) ∧ sites.Pairwise fun r r' => r.call < r'.call
  | [], id, sites, h => by
    cases h
    exact ⟨fun r hr => absurd hr List.not_mem_nil, .nil⟩
  | c :: cs, id, sites, h => by
    unfold sitesFrom at h
    obtain ⟨use, huse, h⟩ := (except_bind_ok_iff _ _ _).mp h
    obtain ⟨rest, hrest, h⟩ := (except_bind_ok_iff _ _ _).mp h
    obtain ⟨hasked, honce⟩ := sitesFrom_ok hrest
    have hbehind : ∀ r ∈ rest, id ≤ r.call ∧ ∃ d, (c :: cs)[r.call - id]? = some d ∧
        useOf? resolve d = .ok (some r.use) := by
      intro r hr
      obtain ⟨hle, d, hd, huse'⟩ := hasked r hr
      refine ⟨by omega, d, ?_, huse'⟩
      have hsucc : r.call - id = r.call - (id + 1) + 1 := by omega
      rw [hsucc, List.getElem?_cons_succ, hd]
    cases use with
    | none =>
      cases h
      exact ⟨hbehind, honce⟩
    | some use =>
      cases h
      refine ⟨fun r hr => ?_, List.pairwise_cons.mpr ⟨fun r hr => (hasked r hr).1, honce⟩⟩
      rcases List.mem_cons.mp hr with rfl | hr
      · exact ⟨Nat.le_refl id, c, by simp, huse⟩
      · exact hbehind r hr

/-- What is gathered from a script is gathered from its calls. -/
theorem gatheredFrom_of_gather {s : Script} {deps : List (String × String)}
    (h : gather s deps resolve = .ok refs) : refs.GatheredFrom s.calls := by
  unfold gather at h
  obtain ⟨sites, hsites, h⟩ := (except_bind_ok_iff _ _ _).mp h
  cases h
  obtain ⟨hasked, honce⟩ := sitesFrom_ok hsites
  exact ⟨fun r hr => ⟨_, (hasked r hr).2.choose_spec.1, resolve, (hasked r hr).2.choose_spec.2⟩, honce⟩

theorem mem_assets {call : Nat} {name : Option String} :
    (call, name) ∈ refs.assets ↔ (⟨call, .asset name⟩ : Reference) ∈ refs.sites := by
  unfold assets
  rw [List.mem_filterMap]
  constructor
  · rintro ⟨⟨call', use⟩, hr, h⟩
    cases use <;> simp at h
    obtain ⟨rfl, rfl⟩ := h
    exact hr
  · exact fun hr => ⟨_, hr, rfl⟩

theorem mem_sprites {call : Nat} {s : SpriteUse} (h : (call, s) ∈ refs.sprites) :
    (⟨call, .sprite s⟩ : Reference) ∈ refs.sites := by
  obtain ⟨⟨call', use⟩, hr, h⟩ := List.mem_filterMap.mp h
  cases use <;> simp at h
  obtain ⟨rfl, rfl⟩ := h
  exact hr

theorem mem_messages {call : Nat} {m : MessageUse} (h : (call, m) ∈ refs.messages) :
    (⟨call, .message m⟩ : Reference) ∈ refs.sites := by
  obtain ⟨⟨call', use⟩, hr, h⟩ := List.mem_filterMap.mp h
  cases use <;> simp at h
  obtain ⟨rfl, rfl⟩ := h
  exact hr

theorem mem_styles {call : Nat} {s : StyleUse} (h : (call, s) ∈ refs.styles) :
    (⟨call, .style s⟩ : Reference) ∈ refs.sites := by
  obtain ⟨⟨call', use⟩, hr, h⟩ := List.mem_filterMap.mp h
  cases use <;> simp at h
  obtain ⟨rfl, rfl⟩ := h
  exact hr

/-- A call that asks for something of a kind. -/
def At (refs : References) (K : Use → Prop) (i : Nat) : Prop := ∃ r ∈ refs.sites, r.call = i ∧ K r.use

theorem at_asset {call : Nat} {name : Option String} (h : (call, name) ∈ refs.assets) :
    refs.At (fun use => ∃ name, use = .asset name) call := ⟨_, mem_assets.mp h, rfl, name, rfl⟩

theorem at_sprite {call : Nat} {s : SpriteUse} (h : (call, s) ∈ refs.sprites) :
    refs.At (fun use => ∃ s, use = .sprite s) call := ⟨_, mem_sprites h, rfl, s, rfl⟩

theorem at_message {call : Nat} {m : MessageUse} (h : (call, m) ∈ refs.messages) :
    refs.At (fun use => ∃ m, use = .message m) call := ⟨_, mem_messages h, rfl, m, rfl⟩

theorem at_style {call : Nat} {s : StyleUse} (h : (call, s) ∈ refs.styles) :
    refs.At (fun use => ∃ s, use = .style s) call := ⟨_, mem_styles h, rfl, s, rfl⟩

namespace GatheredFrom

variable {calls : List Call} (h : refs.GatheredFrom calls)

include h

theorem lt_length {r : Reference} (hr : r ∈ refs.sites) : r.call < calls.length := by
  obtain ⟨c, hc, -⟩ := h.asked r hr
  exact (List.getElem?_eq_some_iff.mp hc).1

/-- One call is the place of one reference. -/
theorem use_eq {r r' : Reference} (hr : r ∈ refs.sites) (hr' : r' ∈ refs.sites)
    (hcall : r.call = r'.call) : r = r' :=
  List.inj_on_of_nodup_map (List.pairwise_map.mpr (h.once.imp Nat.ne_of_lt)) hr hr' hcall

/-- References of one kind stand at calls of their own. -/
private theorem nodup_filterMap {α : Type} {f : Reference → Option (Nat × α)}
    (hf : ∀ r a, f r = some a → a.1 = r.call) : ((refs.sites.filterMap f).map Prod.fst).Nodup := by
  refine List.pairwise_map.mpr (List.pairwise_filterMap.mpr (h.once.imp ?_))
  intro r r' hlt a ha a' ha'
  rw [hf r a ha, hf r' a' ha']
  exact Nat.ne_of_lt hlt

theorem nodup_assets : (refs.assets.map Prod.fst).Nodup := by
  refine h.nodup_filterMap fun r a ha => ?_
  obtain ⟨call, use⟩ := r
  cases use <;> simp at ha
  rw [← ha]

theorem nodup_sprites : (refs.sprites.map Prod.fst).Nodup := by
  refine h.nodup_filterMap fun r a ha => ?_
  obtain ⟨call, use⟩ := r
  cases use <;> simp at ha
  rw [← ha]

theorem nodup_messages : (refs.messages.map Prod.fst).Nodup := by
  refine h.nodup_filterMap fun r a ha => ?_
  obtain ⟨call, use⟩ := r
  cases use <;> simp at ha
  rw [← ha]

theorem nodup_styles : (refs.styles.map Prod.fst).Nodup := by
  refine h.nodup_filterMap fun r a ha => ?_
  obtain ⟨call, use⟩ := r
  cases use <;> simp at ha
  rw [← ha]

/-- No call asks for two things. -/
theorem at_both {K K' : Use → Prop} {i : Nat} (hi : refs.At K i) (hi' : refs.At K' i) :
    ∃ use, K use ∧ K' use := by
  obtain ⟨r, hr, rfl, hK⟩ := hi
  obtain ⟨r', hr', hcall, hK'⟩ := hi'
  have hsame := h.use_eq hr' hr hcall
  exact ⟨r.use, hK, hsame ▸ hK'⟩

/-- An asset call with a known name has that name as its first argument, as it was written. -/
theorem args_ne_nil {call : Nat} {name : String} {c : Call}
    (hmem : (call, some name) ∈ refs.assets) (hc : calls[call]? = some c) : c.args ≠ [] := by
  obtain ⟨d, hd, resolve, huse⟩ := h.asked _ (mem_assets.mp hmem)
  rw [hc] at hd
  cases hd
  cases asks_of_useOf? huse with
  | asset _ _ hname =>
    intro hnil
    rw [hnil] at hname
    cases hname

end GatheredFrom

end References

/-! ## Edits of some of the calls -/

namespace Editing

/-- The script has as many calls as before, and all but those in `T` are as they were. -/
structure Leaves (T : Nat → Prop) (e e' : Editing) : Prop where
  length : e'.script.calls.length = e.script.calls.length
  same : ∀ i, ¬T i → e'.script.calls[i]? = e.script.calls[i]?

/-- An edit is carried out and touches calls in `T` only. -/
def Touches (T : Nat → Prop) (e : Editing) (x : Except Fault Editing) : Prop :=
  ∃ e', x = .ok e' ∧ e.Leaves T e'

variable {T T' : Nat → Prop} {e e' e'' : Editing} {id : Nat}

theorem Leaves.refl (e : Editing) : e.Leaves T e := ⟨rfl, fun _ _ => rfl⟩

theorem Leaves.trans (h : e.Leaves T e') (h' : e'.Leaves T e'') : e.Leaves T e'' where
  length := h'.length.trans h.length
  same i hi := (h'.same i hi).trans (h.same i hi)

theorem Leaves.mono (h : e.Leaves T e') (hT : ∀ i, T i → T' i) : e.Leaves T' e' where
  length := h.length
  same i hi := h.same i fun ht => hi (hT i ht)

/-- The call of one place is edited, then those of others. -/
theorem Leaves.cons {α : Type} {f : α → Nat} {a : α} {as : List α} (h : e.Leaves (· = f a) e')
    (h' : e'.Leaves (fun i => ∃ b ∈ as, i = f b) e'') :
    e.Leaves (fun i => ∃ b ∈ a :: as, i = f b) e'' :=
  (h.mono fun _ hi => ⟨a, List.mem_cons_self, hi⟩).trans
    (h'.mono fun _ ⟨b, hb, hi⟩ => ⟨b, List.mem_cons_of_mem _ hb, hi⟩)

theorem Touches.bind {x : Except Fault Editing} {f : Editing → Except Fault Editing}
    (hx : e.Touches T x) (hf : ∀ e', e.Leaves T e' → e'.Touches T (f e')) :
    e.Touches T (x >>= f) := by
  obtain ⟨e', rfl, hleaves⟩ := hx
  obtain ⟨e'', hok, hleaves'⟩ := hf e' hleaves
  exact ⟨e'', hok, hleaves.trans hleaves'⟩

theorem touches_ok (e : Editing) : e.Touches T (.ok e) := ⟨e, rfl, .refl e⟩

/-- An edit for each site, where the call of each site is there and in `T`. -/
theorem touches_foldlM {α : Type} {number : α → Nat} {f : Editing → α → Except Fault Editing}
    (hf : ∀ (e : Editing) (a : α), number a < e.script.calls.length →
      e.Touches (· = number a) (f e a)) :
    ∀ {as : List α} {e : Editing}, (∀ a ∈ as, number a < e.script.calls.length) →
      e.Touches (fun i => ∃ a ∈ as, i = number a) (as.foldlM f e)
  | [], e, _ => touches_ok e
  | a :: as, e, h => by
    obtain ⟨e₁, h₁, hleaves⟩ := hf e a (h a List.mem_cons_self)
    have hlater : ∀ b ∈ as, number b < e₁.script.calls.length := fun b hb => by
      rw [hleaves.length]
      exact h b (List.mem_cons_of_mem _ hb)
    obtain ⟨e₂, h₂, hleaves'⟩ := touches_foldlM hf hlater
    exact ⟨e₂, by rw [List.foldlM_cons, h₁]; exact h₂, hleaves.cons hleaves'⟩

/-- An edit for each site, where no call is the place of two: what a site makes of its call is not touched
again. -/
theorem foldlM_sets {α : Type} {number : α → Nat} {f : Editing → α → Except Fault Editing}
    {ok : α → Call → Prop} {g : α → Call → Call}
    (hf : ∀ (e : Editing) (a : α) (c : Call), e.script.calls[number a]? = some c → ok a c →
      ∃ e', f e a = .ok e' ∧ e.Leaves (· = number a) e' ∧
        e'.script.calls[number a]? = some (g a c)) :
    ∀ {as : List α} {e : Editing}, (as.map number).Nodup →
      (∀ a ∈ as, ∃ c, e.script.calls[number a]? = some c ∧ ok a c) →
      ∃ e', as.foldlM f e = .ok e' ∧ e.Leaves (fun i => ∃ a ∈ as, i = number a) e' ∧
        ∀ a ∈ as, ∀ c, e.script.calls[number a]? = some c →
          e'.script.calls[number a]? = some (g a c)
  | [], e, _, _ => ⟨e, rfl, .refl e, fun _ h => absurd h List.not_mem_nil⟩
  | a :: as, e, hnodup, h => by
    rw [List.map_cons, List.nodup_cons] at hnodup
    obtain ⟨hnew, hnodup⟩ := hnodup
    obtain ⟨c, hc, hok⟩ := h a List.mem_cons_self
    obtain ⟨e₁, h₁, hleaves, hset⟩ := hf e a c hc hok
    have hapart : ∀ b ∈ as, number b ≠ number a := fun b hmem heq =>
      hnew (List.mem_map.mpr ⟨b, hmem, heq⟩)
    have hother : ∀ b ∈ as, e₁.script.calls[number b]? = e.script.calls[number b]? := fun b hmem =>
      hleaves.same _ (hapart b hmem)
    obtain ⟨e₂, h₂, hleaves', hset'⟩ := foldlM_sets hf hnodup fun b hmem => by
      rw [hother b hmem]
      exact h b (List.mem_cons_of_mem _ hmem)
    refine ⟨e₂, by rw [List.foldlM_cons, h₁]; exact h₂, hleaves.cons hleaves', fun b hmem d hd => ?_⟩
    rcases List.mem_cons.mp hmem with rfl | hmem
    · rw [hc] at hd
      cases hd
      rw [hleaves'.same _ fun ⟨b, hb, heq⟩ => hapart b hb heq.symm]
      exact hset
    · exact hset' b hmem d (by rw [hother b hmem, hd])

theorem call_ok (h : id < e.script.calls.length) : ∃ c, e.call id = .ok c := by
  unfold call
  rw [List.getElem?_eq_getElem h]
  exact ⟨_, rfl⟩

/-- A call that is there is looked at without an edit. -/
theorem touches_call {f : Call → Except Fault Editing} (h : id < e.script.calls.length)
    (hf : ∀ c, e.Touches T (f c)) : e.Touches T (e.call id >>= f) := by
  obtain ⟨c, hc⟩ := call_ok h
  rw [hc]
  exact hf c

/-- An edit of a call that is there changes this call and puts it on record. -/
theorem editCall_eq {c : Call} (h : e.script.calls[id]? = some c) (change : Call → Call) :
    e.editCall id change =
      .ok ⟨putCall e.script id { change c with edited := true }, .call id c :: e.records⟩ := by
  unfold editCall call
  rw [h]
  rfl

/-- A call that is there can be edited. -/
theorem editCall_ok {c : Call} (h : e.script.calls[id]? = some c) (change : Call → Call) :
    ∃ e', e.editCall id change = .ok e' ∧
      e'.script.calls = e.script.calls.set id { change c with edited := true } :=
  ⟨_, editCall_eq h change, rfl⟩

/-- Arguments with a value at a place, as far as there are arguments before it. -/
def put (args : List Expr) (index : Nat) (v : Expr) : List Expr :=
  (if args.length ≤ index then resize args (index + 1) else args).set index v

theorem setArgument_ok {c : Call} (hc : e.script.calls[id]? = some c) (index : Nat) (v : Expr) :
    ∃ e', e.setArgument id index v = .ok e' ∧ e'.script.calls =
      e.script.calls.set id { c with args := put c.args index v, edited := true } :=
  editCall_ok hc _

theorem touches_editCall (h : id < e.script.calls.length) (change : Call → Call) :
    e.Touches (· = id) (e.editCall id change) := by
  obtain ⟨e', he', hcalls⟩ := editCall_ok (List.getElem?_eq_getElem h) change
  refine ⟨e', he', by rw [hcalls, List.length_set], fun i hi => ?_⟩
  rw [hcalls, List.getElem?_set_ne fun heq => hi heq.symm]

theorem touches_setArgument (h : id < e.script.calls.length) (index : Nat) (value : Expr) :
    e.Touches (· = id) (e.setArgument id index value) := touches_editCall h _

theorem touches_setArgumentCount (h : id < e.script.calls.length) (count : Nat) :
    e.Touches (· = id) (e.setArgumentCount id count) := touches_editCall h _

theorem Leaves.lt_length (h : e.Leaves T e') (hid : id < e.script.calls.length) :
    id < e'.script.calls.length := by rwa [h.length]

end Editing

namespace StylePolicy

open Editing

variable {e : Editing} {call : Nat}

private theorem touches_addPrefix (before : String) (s : StyleUse)
    (h : call < e.script.calls.length) : e.Touches (· = call) (addPrefix before call s e) := by
  unfold addPrefix
  simp only
  split
  · exact touches_editCall h _
  · refine touches_call h fun c => ?_
    split
    · exact touches_editCall h _
    · exact touches_ok e

private theorem touches_setName (name : String) (s : StyleUse) (h : call < e.script.calls.length) :
    e.Touches (· = call) (setName name call s e) :=
  (touches_editCall h _).bind fun _ hleaves => touches_editCall (hleaves.lt_length h) _

/-- A style call is all that its policy touches. -/
theorem touches_apply (policy : StylePolicy) (s : StyleUse) (h : call < e.script.calls.length) :
    e.Touches (· = call) (policy.apply call s e) := by
  refine touches_call h fun c => ?_
  cases policy with
  | keep => exact touches_ok e
  | liveReload =>
    exact (touches_editCall h _).bind fun _ hleaves => touches_editCall (hleaves.lt_length h) _
  | debug before =>
    cases before with
    | some before =>
      simp only
      split
      · exact touches_setName _ s h
      · exact touches_addPrefix _ s h
    | none =>
      simp only
      split
      · split
        · exact touches_ok e
        · exact touches_setName _ s h
      · exact touches_ok e
  | release =>
    simp only
    generalize (if s.hasParent = true then 1 else 0) + 2 = count
    split
    · exact touches_editCall h _
    · exact touches_ok e
  | prefixed before => exact touches_addPrefix before s h

end StylePolicy

/-! ## The second pass -/

namespace Call

/-- A call with another first argument. -/
def withValue (c : Call) (value : String) : Call :=
  { c with args := .str value :: c.args.tail, edited := true }

end Call

namespace Resources

open Editing

variable {e : Editing} {p : Project} {refs : References}

theorem get_bind {σ α : Type} (f : σ → Step σ α) (s : σ) : (get >>= f) s = f s s := rfl

private theorem touches_setArguments {call : Nat} :
    ∀ {vs : List Expr} {index : Nat} {e : Editing}, call < e.script.calls.length →
      e.Touches (· = call) (setArguments call index vs e)
  | [], _, e, _ => touches_ok e
  | _ :: _, _, _, h =>
    (touches_editCall h _).bind fun _ hleaves => touches_setArguments (hleaves.lt_length h)

private theorem touches_placeSprite {call : Nat} (s : SpriteUse) (area : Placement)
    (h : call < e.script.calls.length) : e.Touches (· = call) (placeSprite call s area e) := by
  have hset : ∀ method vs count, e.Touches (· = call) (do
      let e ← e.setMethod call method
      let e ← setArguments call 0 vs e
      e.setArgumentCount call count) := fun method vs count =>
    (touches_editCall h _).bind fun _ hleaves =>
      (touches_setArguments (hleaves.lt_length h)).bind fun _ hleaves' =>
        touches_editCall (hleaves'.lt_length (hleaves.lt_length h)) _
  refine touches_call h fun c => ?_
  simp only
  split
  · exact hset _ _ _
  · exact hset _ _ _

/-- A sprite call is all that its sprite touches, and the values of assets stay. -/
private theorem applySprite_ok (site : Nat × SpriteUse) (p : Project)
    (h : site.1 < e.script.calls.length) :
    ∃ e' p', applySprite e site p = .ok e' p' ∧ e.Leaves (· = site.1) e' ∧
      p'.assetValues = p.assetValues := by
  obtain ⟨call, s⟩ := site
  have hlift : ∀ (x : Except Fault Editing) (q : Project), e.Touches (· = call) x →
      q.assetValues = p.assetValues →
      ∃ e' p', (monadLift x : Step Project Editing) q = .ok e' p' ∧ e.Leaves (· = call) e' ∧
        p'.assetValues = p.assetValues := by
    rintro x q ⟨e', rfl, hleaves⟩ hq
    exact ⟨e', q, rfl, hleaves, hq⟩
  unfold applySprite
  simp only
  cases hname : s.name with
  | none => exact ⟨e, p, rfl, .refl e, rfl⟩
  | some name =>
    simp only
    rw [get_bind]
    split
    · cases p.atlas.query (spriteKey s name) with
      | none => exact ⟨e, p, rfl, .refl e, rfl⟩
      | some area => exact hlift _ p (touches_placeSprite s area h) rfl
    · exact hlift _ _ (touches_editCall h _) rfl

private theorem applySprites_ok : ∀ (sites : List (Nat × SpriteUse)) (e : Editing) (p : Project),
    (∀ site ∈ sites, site.1 < e.script.calls.length) →
    ∃ e' p', sites.foldlM applySprite e p = .ok e' p' ∧
      e.Leaves (fun i => ∃ site ∈ sites, i = site.1) e' ∧ p'.assetValues = p.assetValues
  | [], e, p, _ => ⟨e, p, rfl, .refl e, rfl⟩
  | site :: sites, e, p, h => by
    obtain ⟨e₁, p₁, h₁, hleaves, hvalues⟩ := applySprite_ok site p (h site List.mem_cons_self)
    obtain ⟨e₂, p₂, h₂, hleaves', hvalues'⟩ := applySprites_ok sites e₁ p₁ fun s hs =>
      hleaves.lt_length (h s (List.mem_cons_of_mem _ hs))
    exact ⟨e₂, p₂, by rw [List.foldlM_cons, bind_of_ok h₁]; exact h₂, hleaves.cons hleaves',
      hvalues'.trans hvalues⟩

/-- A message call is all that its message touches. -/
private theorem applyMessage_ok (catalogue : Catalogue) (site : Nat × MessageUse)
    (h : site.1 < e.script.calls.length) :
    ∃ state, applyMessage (catalogue, e) site = .ok state ∧ e.Leaves (· = site.1) state.2 := by
  obtain ⟨call, m⟩ := site
  unfold applyMessage
  simp only
  cases m.message with
  | none => exact ⟨_, rfl, .refl e⟩
  | some text =>
    simp only
    split
    · exact ⟨_, rfl, .refl e⟩
    · obtain ⟨e₁, h₁, hleaves⟩ :=
        touches_setArgument h 0 (.ofNat (catalogue.add text m.withParams m.hint).1)
      obtain ⟨c, hc⟩ := call_ok (hleaves.lt_length h)
      simp only [h₁, hc, bind, Except.bind]
      split
      · obtain ⟨e₂, h₂, hleaves'⟩ := touches_setArgumentCount (hleaves.lt_length h) 2
        rw [h₂]
        exact ⟨_, rfl, hleaves.trans hleaves'⟩
      · exact ⟨_, rfl, hleaves⟩

private theorem applyMessageSites_ok : ∀ (sites : List (Nat × MessageUse)) (catalogue : Catalogue)
    (e : Editing), (∀ site ∈ sites, site.1 < e.script.calls.length) →
    ∃ state, sites.foldlM applyMessage (catalogue, e) = .ok state ∧
      e.Leaves (fun i => ∃ site ∈ sites, i = site.1) state.2
  | [], catalogue, e, _ => ⟨_, rfl, .refl e⟩
  | site :: sites, catalogue, e, h => by
    obtain ⟨⟨catalogue₁, e₁⟩, h₁, hleaves⟩ :=
      applyMessage_ok catalogue site (h site List.mem_cons_self)
    obtain ⟨state, h₂, hleaves'⟩ := applyMessageSites_ok sites catalogue₁ e₁ fun s hs =>
      hleaves.lt_length (h s (List.mem_cons_of_mem _ hs))
    exact ⟨state, by rw [List.foldlM_cons, h₁]; exact h₂, hleaves.cons hleaves'⟩

private theorem applyMessages_ok (file : String) (p : Project)
    (h : ∀ site ∈ refs.messages, site.1 < e.script.calls.length) :
    ∃ e' p', applyMessages file refs e p = .ok e' p' ∧
      e.Leaves (fun i => ∃ site ∈ refs.messages, i = site.1) e' ∧ p'.assetValues = p.assetValues := by
  unfold applyMessages
  rw [get_bind]
  cases p.catalogue with
  | none => exact ⟨e, p, rfl, .refl e, rfl⟩
  | some catalogue =>
    simp only
    split
    · exact ⟨e, p, rfl, .refl e, rfl⟩
    · obtain ⟨⟨catalogue', e'⟩, hfold, hleaves⟩ :=
        applyMessageSites_ok refs.messages (catalogue.startFile file) e h
      rw [hfold]
      exact ⟨e', _, rfl, hleaves, rfl⟩

/-- An asset call gets the value of its asset, if there is one. -/
private theorem applyAsset_ok (values : OrderedMap String String) {call : Nat}
    {name : Option String} {c : Call} (hc : e.script.calls[call]? = some c)
    (hargs : ∀ n, name = some n → c.args ≠ []) :
    ∃ e', applyAsset values e (call, name) = .ok e' ∧ e.Leaves (· = call) e' ∧
      e'.script.calls[call]? = some (((name.bind values.get?).map c.withValue).getD c) := by
  have hlt := (List.getElem?_eq_some_iff.mp hc).1
  unfold applyAsset
  cases hvalue : name.bind values.get? with
  | none => exact ⟨e, rfl, .refl e, hc⟩
  | some value =>
    obtain ⟨n, rfl, -⟩ := Option.bind_eq_some_iff.mp hvalue
    obtain ⟨e', he', hcalls⟩ := editCall_ok hc fun c =>
      let args := if c.args.length ≤ 0 then resize c.args (0 + 1) else c.args
      { c with args := args.set 0 (.str value) }
    refine ⟨e', he', ⟨by rw [hcalls, List.length_set], fun i hi => ?_⟩, ?_⟩
    · rw [hcalls, List.getElem?_set_ne fun heq => hi heq.symm]
    · rw [hcalls, List.getElem?_set_self hlt]
      cases hlist : c.args with
      | nil => exact absurd hlist (hargs n rfl)
      | cons a as => simp [Call.withValue, hlist]

private theorem applyAssets_ok (values : OrderedMap String String)
    (hrefs : refs.GatheredFrom e.script.calls) (e₁ : Editing)
    (hcalls : ∀ call name, (call, name) ∈ refs.assets →
      e₁.script.calls[call]? = e.script.calls[call]?) :
    ∃ e', refs.assets.foldlM (applyAsset values) e₁ = .ok e' ∧
      e₁.Leaves (fun i => ∃ site ∈ refs.assets, i = site.1) e' ∧
      ∀ site ∈ refs.assets, ∀ c, e₁.script.calls[site.1]? = some c →
        e'.script.calls[site.1]? = some (((site.2.bind values.get?).map c.withValue).getD c) :=
  @foldlM_sets _ Prod.fst _ (fun site c => ∀ n, site.2 = some n → c.args ≠ [])
    (fun site c => ((site.2.bind values.get?).map c.withValue).getD c)
    (fun _ _ _ hc hargs => applyAsset_ok values hc hargs) _ _ hrefs.nodup_assets
    fun ⟨call, name⟩ hmem => by
      have hlt := hrefs.lt_length (References.mem_assets.mp hmem)
      rw [hcalls call name hmem]
      refine ⟨_, List.getElem?_eq_getElem hlt, fun n (hn : name = some n) => ?_⟩
      subst hn
      exact hrefs.args_ne_nil hmem (List.getElem?_eq_getElem hlt)

/-- The four stages of the second pass, with what lies between them. -/
structure Staged (file : String) (refs : References) (e : Editing) (p : Project)
    (e₁ : Editing) (p₁ : Project) (e₂ e₃ : Editing) (p₃ : Project) (e₄ : Editing) : Prop where
  sprites : refs.sprites.foldlM applySprite e p = .ok e₁ p₁
  assets : refs.assets.foldlM (applyAsset p₁.assetValues) e₁ = .ok e₂
  messages : applyMessages file refs e₂ p₁ = .ok e₃ p₃
  whole : apply file refs e p = .ok e₄ p₃
  spriteCalls : e.Leaves (refs.At fun use => ∃ s, use = .sprite s) e₁
  assetCalls : e₁.Leaves (refs.At fun use => ∃ name, use = .asset name) e₂
  messageCalls : e₂.Leaves (refs.At fun use => ∃ m, use = .message m) e₃
  styleCalls : e₃.Leaves (refs.At fun use => ∃ s, use = .style s) e₄
  spriteValues : p₁.assetValues = p.assetValues
  messageValues : p₃.assetValues = p₁.assetValues

/-- The second pass comes to an end for every project. -/
theorem apply_staged (file : String) (p : Project) (hrefs : refs.GatheredFrom e.script.calls) :
    ∃ e₁ p₁ e₂ e₃ p₃ e₄, Staged file refs e p e₁ p₁ e₂ e₃ p₃ e₄ := by
  obtain ⟨e₁, p₁, h₁, hsprites, hvalues₁⟩ := applySprites_ok refs.sprites e p fun site hsite =>
    hrefs.lt_length (References.mem_sprites hsite)
  have hcalls₁ : ∀ call name, (call, name) ∈ refs.assets →
      e₁.script.calls[call]? = e.script.calls[call]? := by
    refine fun call name hmem => hsprites.same call ?_
    rintro ⟨site, hsite, rfl⟩
    obtain ⟨use, ⟨name, rfl⟩, ⟨s, h⟩⟩ :=
      hrefs.at_both (References.at_asset hmem) (References.at_sprite hsite)
    cases h
  obtain ⟨e₂, h₂, hassets, -⟩ := applyAssets_ok p₁.assetValues hrefs e₁ hcalls₁
  have hlength₂ : e₂.script.calls.length = e.script.calls.length :=
    hassets.length.trans hsprites.length
  have hmessageCalls : ∀ site ∈ refs.messages, site.1 < e₂.script.calls.length := fun site hsite => by
    rw [hlength₂]
    exact hrefs.lt_length (References.mem_messages hsite)
  obtain ⟨e₃, p₃, h₃, hmessages, hvalues₃⟩ := applyMessages_ok file p₁ hmessageCalls
  have hstyleCalls : ∀ site ∈ refs.styles, site.1 < e₃.script.calls.length := fun site hsite => by
    rw [hmessages.length, hlength₂]
    exact hrefs.lt_length (References.mem_styles hsite)
  have hstyle : ∀ (e : Editing) (site : Nat × StyleUse), site.1 < e.script.calls.length →
      e.Touches (· = site.1) (p₁.config.stylePolicy.apply site.1 site.2 e) :=
    fun e site h => StylePolicy.touches_apply _ site.2 h
  obtain ⟨e₄, h₄, hstyles⟩ := touches_foldlM hstyle hstyleCalls
  refine ⟨e₁, p₁, e₂, e₃, p₃, e₄, h₁, h₂, h₃, ?_, ?_, ?_, ?_, ?_, hvalues₁, hvalues₃⟩
  · unfold apply
    rw [bind_of_ok h₁]
    change (monadLift (refs.assets.foldlM (applyAsset p₁.assetValues) e₁) >>= _ :
      Step Project Editing) p₁ = _
    rw [h₂]
    change (applyMessages file refs e₂ >>= _) p₁ = _
    rw [bind_of_ok h₃]
    change (monadLift (refs.styles.foldlM _ e₃) : Step Project Editing) p₃ = _
    rw [h₄]
    rfl
  · exact hsprites.mono fun i ⟨site, hsite, hi⟩ => hi ▸ References.at_sprite hsite
  · exact hassets.mono fun i ⟨site, hsite, hi⟩ => hi ▸ References.at_asset hsite
  · exact hmessages.mono fun i ⟨site, hsite, hi⟩ => hi ▸ References.at_message hsite
  · exact hstyles.mono fun i ⟨site, hsite, hi⟩ => hi ▸ References.at_style hsite

/-- The second pass over a script: it comes to an end for every project, the values of assets stay, and
an asset call has the value of its asset as the first argument behind it, or is as it was if its asset
has no value or its name is not known. -/
theorem apply_assets (file : String) (p : Project) (hrefs : refs.GatheredFrom e.script.calls) :
    ∃ e' p', apply file refs e p = .ok e' p' ∧ p'.assetValues = p.assetValues ∧
      ∀ call name c, (call, name) ∈ refs.assets → e.script.calls[call]? = some c →
        e'.script.calls[call]? = some (((name.bind p.assetValues.get?).map c.withValue).getD c) := by
  obtain ⟨e₁, p₁, e₂, e₃, p₃, e₄, h⟩ := apply_staged file p hrefs
  have hapart : ∀ {K : Use → Prop} {call : Nat} {name : Option String}, (call, name) ∈ refs.assets →
      (∀ name, ¬K (.asset name)) → ¬refs.At K call := by
    intro K call name hmem hK hat
    obtain ⟨use, ⟨name, rfl⟩, huse⟩ := hrefs.at_both (References.at_asset hmem) hat
    exact hK name huse
  have hcalls₁ : ∀ call name, (call, name) ∈ refs.assets →
      e₁.script.calls[call]? = e.script.calls[call]? := fun call name hmem =>
    h.spriteCalls.same call (hapart hmem fun _ ⟨_, h⟩ => by cases h)
  obtain ⟨e₂', h₂, -, hset⟩ := applyAssets_ok p₁.assetValues hrefs e₁ hcalls₁
  obtain rfl : e₂ = e₂' := Except.ok.inj (h.assets.symm.trans h₂)
  refine ⟨e₄, p₃, h.whole, h.messageValues.trans h.spriteValues, fun call name c hmem hc => ?_⟩
  rw [h.styleCalls.same call (hapart hmem fun _ ⟨_, h⟩ => by cases h),
    h.messageCalls.same call (hapart hmem fun _ ⟨_, h⟩ => by cases h),
    hset (call, name) hmem c (by rw [hcalls₁ call name hmem, hc]), h.spriteValues]

end Resources

end Bundler

/-
What becomes of the message calls of a script.

A call of `t` whose text is a constant is set to the number of its message, if messages are translated:
the number stands in place of the text, and what follows the parameters is dropped
(`Call.withNumber`). It is written by its digits, as small numbers are doubles as they are
(`Expr.render_ofNat`). A call whose text is not known, and one that only formats, stays as it is. The
numbers come from the catalogue of the project, which goes on being used by the later calls. Since a
number stands for the same message ever after, each of them stands in the end for the text and the
hint of the call that it was written into (`Resources.apply_messages`).
-/
import Bundler.Proofs.Sites

set_option autoImplicit false

namespace Bundler

open Step

/-! ## How a number is written -/

namespace Double

variable {n : Nat}

/-- A natural number that is scaled by a power of two. -/
private theorem scale_one (n k : Nat) : scale n 1 (-(k : Int)) = (n * pow2 k, 1) := by
  unfold scale
  cases k with
  | zero => exact Prod.ext (Nat.mul_one n).symm rfl
  | succ k =>
    rw [if_neg (by omega), Int.neg_neg, Int.toNat_natCast]

/-- The leading digit of a natural number, in powers of two, at a place that is not above it. -/
private theorem scaled_bounds (hpos : n ≠ 0) {k : Nat} (hk : n.log2 ≤ k) :
    pow2 k ≤ n * pow2 (k - n.log2) ∧ n * pow2 (k - n.log2) < pow2 (k + 1) := by
  have hwhole : pow2 n.log2 * pow2 (k - n.log2) = pow2 k := by
    change 2 ^ n.log2 * 2 ^ (k - n.log2) = 2 ^ k
    rw [← Nat.pow_add, Nat.add_sub_cancel' hk]
  constructor
  · rw [← hwhole]
    exact Nat.mul_le_mul_right _ (Nat.log2_self_le hpos)
  · rw [pow2_succ, ← hwhole, ← Nat.mul_assoc, ← pow2_succ]
    exact Nat.mul_lt_mul_of_pos_right Nat.lt_log2_self (pow2_pos _)

/-- A natural number with at most 53 bits is a double as it is. -/
private theorem ofNat_eq (hpos : n ≠ 0) (h : n < pow2 53) :
    ofNat n = .finite false (n * pow2 (52 - n.log2)) (-(52 - n.log2 : Nat)) := by
  have hlog : n.log2 < 53 := (Nat.log2_lt hpos).mpr h
  have hguess : (n.log2 : Int) - ((1 : Nat).log2 : Int) - 53 = -((53 - n.log2 : Nat) : Int) := by
    have hone : (1 : Nat).log2 = 0 := by decide
    rw [hone]
    omega
  have hexponent : exponentOf n 1 = -((52 - n.log2 : Nat) : Int) := by
    have hlarge := (scaled_bounds hpos (Nat.le_of_lt hlog)).1
    unfold exponentOf minExponent
    simp only [hguess, scale_one, Nat.div_one]
    rw [if_neg (Nat.not_lt.mpr hlarge)]
    omega
  have hsmall := (scaled_bounds hpos (Nat.le_of_lt_succ hlog)).2
  have hround : ∀ k, roundDiv k 1 = k := fun k => by
    unfold roundDiv
    simp [Nat.mod_one]
  unfold ofNat ofRatio
  rw [if_neg hpos]
  simp only [hexponent, scale_one, hround]
  rw [if_neg (Nat.ne_of_lt hsmall)]
  simp only
  rw [if_neg (by unfold maxExponent; omega)]

private theorem wholeMagnitude?_scaled (n k : Nat) :
    (Double.finite false (n * pow2 k) (-(k : Int))).wholeMagnitude? = some n := by
  have hratio : ratio (n * pow2 k) (-(k : Int)) = (n * pow2 k, pow2 k) := by
    unfold ratio
    cases k with
    | zero => exact Prod.ext (Nat.mul_one _) rfl
    | succ k => rw [if_neg (by omega), Int.neg_neg, Int.toNat_natCast]
  unfold wholeMagnitude?
  simp only [hratio]
  rw [if_pos (Nat.mul_mod_left _ _), Nat.mul_div_cancel _ (pow2_pos _)]

theorem wholeMagnitude?_ofNat (h : n < pow2 53) : (ofNat n).wholeMagnitude? = some n := by
  by_cases hpos : n = 0
  · have hzero : ofNat 0 = .finite false (0 * pow2 1074) (-((1074 : Nat) : Int)) := by
      rw [Nat.zero_mul]
      rfl
    rw [hpos, hzero, wholeMagnitude?_scaled]
  · rw [ofNat_eq hpos h, wholeMagnitude?_scaled]

theorem isNegative_ofNat (h : n < pow2 53) : (ofNat n).isNegative = false := by
  by_cases hpos : n = 0
  · subst hpos
    rfl
  · rw [ofNat_eq hpos h]
    rfl

end Double

/-- The number of a message is written by its digits. -/
theorem Expr.render_ofNat {n : Nat} (h : n < pow2 32) : (Expr.ofNat n).render = toString n := by
  have hexact : n < pow2 53 := Nat.lt_trans h (by decide)
  have hdigits : n < pow10 15 := Nat.lt_trans h (by decide)
  unfold ofNat render renderNumber
  rw [Double.wholeMagnitude?_ofNat hexact]
  simp only
  rw [if_pos hdigits, Double.isNegative_ofNat hexact]
  exact String.empty_append

/-! ## What may become of a call -/

/-- A call with a number in place of its text, and without what follows the parameters. -/
def Call.withNumber (c : Call) (id : Nat) : Call :=
  { c with args := (c.args.set 0 (.ofNat id)).take 2, edited := true }

/-- A number stands for a message with its hint in the catalogue of a project. -/
def Project.Denotes (p : Project) (id : Nat) (key : String × Option String) : Prop :=
  ∃ catalogue, p.catalogue = some catalogue ∧ catalogue.Denotes id key

/-- Where a catalogue is used only, numbers go on standing for what they stand for. -/
theorem Project.Denotes.continued {p p' : Project} {id : Nat} {key : String × Option String}
    (h : p.Denotes id key) (hp : Catalogue.Continued p.catalogue p'.catalogue) : p'.Denotes id key := by
  obtain ⟨catalogue, hcatalogue, hdenotes⟩ := h
  obtain ⟨acts, hacts⟩ := hp
  rw [hcatalogue] at hacts
  exact ⟨catalogue.run acts, hacts, hdenotes.run acts⟩

/-- A call of the method that looks messages up. -/
structure Call.IsLookup (c : Call) : Prop where
  object : c.object = none
  method : c.method = "t"

/-- A lookup turns into a call: it stays as it is, or a number stands in it for its text and its hint. -/
def Call.TurnsInto (c : Call) (c' : Option Call) (Denotes : Nat → String × Option String → Prop) : Prop :=
  c' = some c ∨ ∃ text id, References.text? c.args 0 = some text ∧ c' = some (c.withNumber id) ∧
    Denotes id (text, References.text? c.args 2)

theorem Call.TurnsInto.mono {c : Call} {c' : Option Call} {D D' : Nat → String × Option String → Prop}
    (h : c.TurnsInto c' D) (hD : ∀ id key, D id key → D' id key) : c.TurnsInto c' D' :=
  h.imp_right fun ⟨text, id, htext, hc', hdenotes⟩ => ⟨text, id, htext, hc', hD id _ hdenotes⟩

namespace References

variable {refs : References}

/-- A message that is asked for is that of its call. -/
theorem GatheredFrom.message_eq {calls : List Call} (h : refs.GatheredFrom calls) {call : Nat}
    {m : MessageUse} (hmem : (call, m) ∈ refs.messages) :
    ∃ c, calls[call]? = some c ∧ m = messageOf c m.formatOnly := by
  obtain ⟨c, hc, resolve, huse⟩ := h.asked _ (mem_messages hmem)
  refine ⟨c, hc, ?_⟩
  cases asks_of_useOf? huse with
  | message => rfl

end References

namespace Resources

open References Editing

variable {e : Editing} {refs : References} {catalogue : Catalogue} {p p' : Project}

/-- The text of the message that a call is set to the number of. -/
def textOf? (m : MessageUse) : Option String := if m.formatOnly then none else m.message

/-- A call with a text is set to a number. -/
private theorem setNumber_ok {call : Nat} {c : Call} (hc : e.script.calls[call]? = some c)
    (hargs : c.args ≠ []) (id : Nat) :
    ∃ e', (do
        let e ← e.setArgument call 0 (.ofNat id)
        if 2 < (← e.call call).args.length then e.setArgumentCount call 2 else return e) = .ok e' ∧
      e'.script.calls = e.script.calls.set call (c.withNumber id) := by
  have hlt := (List.getElem?_eq_some_iff.mp hc).1
  have hlength : ¬c.args.length ≤ 0 := fun h => hargs (List.length_eq_zero_iff.mp (Nat.le_zero.mp h))
  obtain ⟨e₁, h₁, hcalls₁⟩ := editCall_ok hc fun c =>
    let args := if c.args.length ≤ 0 then resize c.args (0 + 1) else c.args
    { c with args := args.set 0 (.ofNat id) }
  simp only [if_neg hlength] at hcalls₁
  have hc₁ : e₁.script.calls[call]? = some { c with args := c.args.set 0 (.ofNat id), edited := true } := by
    rw [hcalls₁, List.getElem?_set_self hlt]
  have hcall : e₁.call call = .ok { c with args := c.args.set 0 (.ofNat id), edited := true } := by
    unfold Editing.call
    rw [hc₁]
  unfold setArgument
  rw [h₁]
  change ∃ e', (do
    if 2 < (← e₁.call call).args.length then e₁.setArgumentCount call 2 else return e₁) = .ok e' ∧ _
  rw [hcall]
  by_cases hlong : 2 < (c.args.set 0 (.ofNat id)).length
  · obtain ⟨e₂, h₂, hcalls₂⟩ := editCall_ok hc₁ fun c => { c with args := resize c.args 2 }
    refine ⟨e₂, (if_pos hlong).trans h₂, ?_⟩
    have hcut : resize (c.args.set 0 (.ofNat id)) 2 = (c.args.set 0 (.ofNat id)).take 2 := by
      unfold resize
      rw [Nat.sub_eq_zero_of_le (Nat.le_of_lt hlong), List.replicate_zero, List.append_nil]
    rw [hcalls₂, hcalls₁, List.set_set, hcut]
    rfl
  · refine ⟨e₁, if_neg hlong, ?_⟩
    rw [hcalls₁]
    unfold Call.withNumber
    rw [List.take_of_length_le (Nat.le_of_not_lt hlong)]

/-- What a message makes of a call: it is set to the number of the message, or stays as it is. -/
def BecomesOf (catalogue : Catalogue) (m : MessageUse) (c : Call) (c' : Option Call) : Prop :=
  c' = some c ∨ ∃ text id, textOf? m = some text ∧ c' = some (c.withNumber id) ∧
    catalogue.Denotes id (text, m.hint)

private theorem applyMessage_set (catalogue : Catalogue) {call : Nat} {m : MessageUse} {c : Call}
    (hc : e.script.calls[call]? = some c) (hargs : (textOf? m).isSome = true → c.args ≠ []) :
    ∃ catalogue' e', applyMessage (catalogue, e) (call, m) = .ok (catalogue', e') ∧
      e.Leaves (· = call) e' ∧ BecomesOf catalogue' m c e'.script.calls[call]? := by
  have hlt := (List.getElem?_eq_some_iff.mp hc).1
  unfold BecomesOf applyMessage
  unfold textOf? at *
  simp only
  cases hmessage : m.message with
  | none => exact ⟨_, _, rfl, .refl e, .inl hc⟩
  | some text =>
    rw [hmessage] at hargs
    simp only
    by_cases hformat : m.formatOnly = true
    · rw [if_pos hformat]
      exact ⟨_, _, rfl, .refl e, .inl hc⟩
    · rw [if_neg hformat] at hargs ⊢
      obtain ⟨e', he', hcalls⟩ := setNumber_ok hc (hargs rfl)
        (catalogue.add text m.withParams m.hint).1
      refine ⟨(catalogue.add text m.withParams m.hint).2, e', ?_, ⟨?_, fun i hi => ?_⟩, .inr
        ⟨text, (catalogue.add text m.withParams m.hint).1, if_neg hformat, ?_, ?_⟩⟩
      · obtain ⟨e₁, h₁, he'⟩ := (except_bind_ok_iff _ _ _).mp he'
        obtain ⟨c₁, hc₁, he'⟩ := (except_bind_ok_iff _ _ _).mp he'
        simp only [h₁, hc₁, bind, Except.bind]
        by_cases hlong : 2 < c₁.args.length
        · rw [if_pos hlong] at he' ⊢
          rw [he']
          rfl
        · rw [if_neg hlong] at he' ⊢
          cases he'
          rfl
      · rw [hcalls, List.length_set]
      · rw [hcalls, List.getElem?_set_ne fun heq => hi heq.symm]
      · rw [hcalls, List.getElem?_set_self hlt]
      · exact catalogue.denotes_answer (a := .use (text, m.hint) m.withParams) rfl

/-- Numbers that stand for something go on doing so. -/
private theorem BecomesOf.run {m : MessageUse} {c : Call} {c' : Option Call}
    (h : BecomesOf catalogue m c c') (acts : List Catalogue.Act) :
    BecomesOf (catalogue.run acts) m c c' :=
  h.imp_right fun ⟨text, id, htext, hc', hdenotes⟩ => ⟨text, id, htext, hc', hdenotes.run acts⟩

private theorem applyMessages_set : ∀ {sites : List (Nat × MessageUse)} {catalogue : Catalogue}
    {e : Editing}, (sites.map Prod.fst).Nodup →
    (∀ site ∈ sites, ∃ c, e.script.calls[site.1]? = some c ∧
      ((textOf? site.2).isSome = true → c.args ≠ [])) →
    ∃ catalogue' e', sites.foldlM applyMessage (catalogue, e) = .ok (catalogue', e') ∧
      e.Leaves (fun i => ∃ site ∈ sites, i = site.1) e' ∧
      ∀ site ∈ sites, ∀ c, e.script.calls[site.1]? = some c →
        BecomesOf catalogue' site.2 c e'.script.calls[site.1]?
  | [], catalogue, e, _, _ => ⟨catalogue, e, rfl, .refl e, fun _ h => absurd h List.not_mem_nil⟩
  | site :: sites, catalogue, e, hnodup, h => by
    rw [List.map_cons, List.nodup_cons] at hnodup
    obtain ⟨hnew, hnodup⟩ := hnodup
    obtain ⟨c, hc, hargs⟩ := h site List.mem_cons_self
    obtain ⟨catalogue₁, e₁, h₁, hleaves, hset⟩ := applyMessage_set catalogue hc hargs
    have hother : ∀ b ∈ sites, e₁.script.calls[b.1]? = e.script.calls[b.1]? := fun b hmem =>
      hleaves.same _ fun heq => hnew (List.mem_map.mpr ⟨b, hmem, heq⟩)
    obtain ⟨catalogue₂, e₂, h₂, hleaves', hset'⟩ := applyMessages_set hnodup fun b hmem => by
      rw [hother b hmem]
      exact h b (List.mem_cons_of_mem _ hmem)
    refine ⟨catalogue₂, e₂, by rw [List.foldlM_cons, h₁]; exact h₂, hleaves.cons hleaves',
      fun b hmem d hd => ?_⟩
    rcases List.mem_cons.mp hmem with rfl | hmem
    · rw [hc] at hd
      cases hd
      rw [hleaves'.same _ fun ⟨b', hb', heq⟩ => hnew (List.mem_map.mpr ⟨b', hb', heq.symm⟩)]
      -- the later calls use the catalogue further
      obtain ⟨acts, hacts⟩ := foldlM_applyMessage_run h₂
      have hcatalogue : catalogue₂ = catalogue₁.run acts := hacts
      rw [hcatalogue]
      exact hset.run acts
    · exact hset' b hmem d (by rw [hother b hmem, hd])

private theorem text?_of_textOf? {c : Call} {formatOnly : Bool} {text : String}
    (h : textOf? (messageOf c formatOnly) = some text) : text? c.args 0 = some text := by
  unfold textOf? at h
  split at h
  · cases h
  · exact h

private theorem args_ne_nil_of_text? {args : List Expr} {text : String} (h : text? args 0 = some text) :
    args ≠ [] := by
  rintro rfl
  cases h

/-- Messages are set from the catalogue of the project, if they are set at all. -/
private theorem applyMessages_cases {file : String} {e' : Editing}
    (h : applyMessages file refs e p = .ok e' p') :
    e' = e ∨ ∃ catalogue catalogue' : Catalogue,
      refs.messages.foldlM applyMessage (catalogue.startFile file, e) = .ok (catalogue', e') ∧
      p'.catalogue = some catalogue'.finishFile := by
  unfold applyMessages at h
  rw [get_bind] at h
  cases hcatalogue : p.catalogue with
  | none =>
    rw [hcatalogue] at h
    cases h
    exact .inl rfl
  | some catalogue =>
    rw [hcatalogue] at h
    simp only at h
    split at h
    · cases h
      exact .inl rfl
    · obtain ⟨⟨catalogue', e₁⟩, t, hlift, h⟩ := (bind_ok_iff _ _ _ _ _).mp h
      obtain ⟨hfold, rfl⟩ := (lift_ok_iff _ _ _ _).mp hlift
      cases h
      exact .inr ⟨catalogue, catalogue', hfold, rfl⟩

/-- What asks for something at a lookup asks for a message. -/
private theorem message_of_at (hrefs : refs.GatheredFrom e.script.calls) {i : Nat} {c : Call}
    (hc : e.script.calls[i]? = some c) (hlookup : c.IsLookup) {K : Use → Prop} (h : refs.At K i) :
    ∃ m, K (.message m) ∧ (i, m) ∈ refs.messages := by
  obtain ⟨⟨call, use⟩, hr, rfl, hK⟩ := h
  obtain ⟨d, hd, resolve, huse⟩ := hrefs.asked _ hr
  rw [hc] at hd
  cases hd
  rw [show useOf? resolve c = .ok (some (.message (messageOf c false))) by
    unfold useOf?
    simp [hlookup.object, hlookup.method]] at huse
  cases huse
  exact ⟨_, hK, List.mem_filterMap.mpr ⟨_, hr, rfl⟩⟩

/-- The second pass over a script: it comes to an end for every project, and a lookup is behind it as it
was, or it is set to a number that stands for its text and its hint. -/
theorem apply_messages (file : String) (p : Project) (hrefs : refs.GatheredFrom e.script.calls) :
    ∃ e' p', apply file refs e p = .ok e' p' ∧
      ∀ (i : Nat) (c : Call), e.script.calls[i]? = some c → c.IsLookup →
        c.TurnsInto e'.script.calls[i]? p'.Denotes := by
  obtain ⟨e₁, p₁, e₂, e₃, p₃, e₄, h⟩ := apply_staged file p hrefs
  refine ⟨e₄, p₃, h.whole, fun i c hc hlookup => ?_⟩
  have hapart : ∀ K : Use → Prop, (∀ m, ¬K (.message m)) → ¬refs.At K i := fun K hK hat =>
    let ⟨m, hm, _⟩ := message_of_at hrefs hc hlookup hat
    hK m hm
  -- sprites and assets leave the calls alone at which something else is asked for
  have hkept : ∀ j, (∀ K : Use → Prop, (∀ m, ¬K (.message m)) → ¬refs.At K j) →
      e₂.script.calls[j]? = e.script.calls[j]? := fun j hno => by
    rw [h.assetCalls.same j (hno _ fun _ ⟨_, h⟩ => by cases h),
      h.spriteCalls.same j (hno _ fun _ ⟨_, h⟩ => by cases h)]
  have hbefore : ∀ site ∈ refs.messages, e₂.script.calls[site.1]? = e.script.calls[site.1]? :=
    fun site hmem => hkept site.1 fun K hK hat =>
      let ⟨_, ⟨m, hm⟩, huse⟩ := hrefs.at_both (References.at_message hmem) hat
      hK m (hm ▸ huse)
  have hc₂ : e₂.script.calls[i]? = some c := (hkept i hapart).trans hc
  unfold Call.TurnsInto
  rw [h.styleCalls.same i (hapart _ fun _ ⟨_, h⟩ => by cases h)]
  by_cases hmessage : refs.At (fun use => ∃ m, use = .message m) i
  · obtain ⟨m, -, hmem⟩ := message_of_at hrefs hc hlookup hmessage
    rcases applyMessages_cases h.messages with rfl | ⟨catalogue, catalogue', hfold, hp₃⟩
    · exact .inl hc₂
    obtain ⟨catalogue'', e₃', hfold', -, hset⟩ :=
      @applyMessages_set refs.messages (catalogue.startFile file) e₂ hrefs.nodup_messages
        fun site hsite => by
          obtain ⟨d, hd, hm⟩ := hrefs.message_eq hsite
          refine ⟨d, (hbefore site hsite).trans hd, fun htext => ?_⟩
          obtain ⟨text, htext⟩ := Option.isSome_iff_exists.mp htext
          rw [hm] at htext
          exact args_ne_nil_of_text? (text?_of_textOf? htext)
    rw [hfold] at hfold'
    cases hfold'
    obtain ⟨d, hd, hm⟩ := hrefs.message_eq hmem
    obtain rfl : c = d := Option.some.inj (hc.symm.trans hd)
    rcases hset (i, m) hmem c hc₂ with hsame | ⟨text, id, htext, hnumber, hdenotes⟩
    · exact .inl hsame
    · rw [hm] at htext hdenotes
      exact .inr ⟨text, id, text?_of_textOf? htext, hnumber, _, hp₃, hdenotes.run [.finish]⟩
  · exact .inl ((h.messageCalls.same i hmessage).trans hc₂)

end Resources

end Bundler

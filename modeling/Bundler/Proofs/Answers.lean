/-
What resolvers answer when they are asked again.

While assets are collected the short names go on changing: names are shortened, and a resolver may ask
for short names before it answers. So a resolver is asked about one name in many states, once for each
call that mentions the name. Resolvers are consistent if none of them answers otherwise when it is asked
about a name again (`Resolver.Consistent`); what they answer the first time may depend on all that
happened before. Then the claims on a name are settled with the first question
(`Resolver.Consistent.claims_again`), and it does not matter in which file the name was met.

A short name that was given stays as long as nobody takes it back (`ShortNames.Keeps`). The ready-made
resolvers do not, and they are consistent (`Resolver.consistent_of_readyMade`).
-/
import Bundler.Proofs.Cache
import Bundler.Resolver

set_option autoImplicit false

namespace Bundler

/-! ## Short names -/

namespace ShortNames

/-- The short names that were given are still there. -/
structure Keeps (s t : ShortNames) : Prop where
  enabled : t.enabled = s.enabled
  directory : t.directory = s.directory
  assigned : ∀ key short, s.assigned.get? key = some short → t.assigned.get? key = some short

theorem Keeps.refl (s : ShortNames) : Keeps s s := ⟨rfl, rfl, fun _ _ h => h⟩

theorem Keeps.trans {s t u : ShortNames} (h : Keeps s t) (h' : Keeps t u) : Keeps s u where
  enabled := h'.enabled.trans h.enabled
  directory := h'.directory.trans h.directory
  assigned key short hkey := h'.assigned key short (h.assigned key short hkey)

theorem keeps_shortName (s : ShortNames) (name : String) : Keeps s (s.shortName name).2 := by
  unfold shortName
  split
  · exact .refl s
  · cases hkey : s.assigned.get? (Text.lower name) with
    | some short => simp only [hkey]; exact .refl s
    | none =>
      simp only [hkey]
      refine ⟨rfl, rfl, fun key short hold => ?_⟩
      simp only [OrderedMap.get?_insert]
      split
      · rename_i heq
        rw [← heq, hkey] at hold
        cases hold
      · exact hold

theorem shorten_snd (s : ShortNames) (name : String) :
    (s.shorten name).2 = (s.shortName name).2 := by
  unfold shorten
  split
  · rename_i h
    unfold shortName
    rw [if_pos h]
  · rfl

theorem keeps_shorten (s : ShortNames) (name : String) : Keeps s (s.shorten name).2 := by
  rw [shorten_snd]
  exact keeps_shortName s name

/-- A name that was shortened has its short name. -/
theorem get?_shortName {s : ShortNames} (henabled : s.enabled = true) (name : String) :
    (s.shortName name).2.assigned.get? (Text.lower name) = some (s.shortName name).1 := by
  unfold shortName
  simp only [henabled, Bool.not_true, Bool.false_eq_true, if_false]
  cases hkey : s.assigned.get? (Text.lower name) with
  | some short => exact hkey
  | none => simp only [OrderedMap.get?_insert, if_true]

/-- A name that is shortened again gets what it got. -/
theorem Keeps.shortName_eq {s t : ShortNames} {name : String} (h : Keeps (s.shortName name).2 t) :
    (t.shortName name).1 = (s.shortName name).1 := by
  have hsame := (keeps_shortName s name).trans h
  cases henabled : s.enabled with
  | false =>
    unfold shortName
    simp [hsame.enabled, henabled]
  | true =>
    have hkey := h.assigned _ _ (get?_shortName henabled name)
    have hone : (t.shortName name).1 = ((s.shortName name).1, t).1 := by
      conv_lhs => unfold shortName
      simp only [hsame.enabled, henabled, Bool.not_true, Bool.false_eq_true, if_false, hkey]
    exact hone

theorem Keeps.shorten_eq {s t : ShortNames} {name : String} (h : Keeps (s.shorten name).2 t) :
    (t.shorten name).1 = (s.shorten name).1 := by
  rw [shorten_snd] at h
  have hsame := (keeps_shortName s name).trans h
  have hone : ∀ u : ShortNames, (u.shorten name).1
      = if u.enabled then u.inDirectory (u.shortName name).1 else name := by
    intro u
    unfold shorten
    cases u.enabled
    · rfl
    · change (u.shortName name).2.inDirectory (u.shortName name).1 = _
      unfold inDirectory
      rw [(keeps_shortName u name).directory]
      rfl
  rw [hone, hone, h.shortName_eq, hsame.enabled]
  unfold inDirectory
  rw [hsame.directory]

end ShortNames

/-! ## Asking again -/

namespace Resolver

/-- What may have happened to the short names later on: names were shortened, and resolvers were
asked. -/
inductive Later (config : Config) (resolvers : List Resolver) (s : ShortNames) : ShortNames → Prop
  | refl : Later config resolvers s s
  | shorten {t : ShortNames} (name : String) (h : Later config resolvers s t) :
      Later config resolvers s (t.shorten name).2
  | ask {t : ShortNames} {r : Resolver} (hr : r ∈ resolvers) (name : String)
      (h : Later config resolvers s t) : Later config resolvers s (r.claim config name t).2

/-- Resolvers that answer consistently, from a state of the short names on: one that is asked about a
name again answers as it did before. -/
def Consistent (config : Config) (resolvers : List Resolver) (start : ShortNames) : Prop :=
  ∀ r ∈ resolvers, ∀ name s t, Later config resolvers start s →
    Later config resolvers (r.claim config name s).2 t →
    (r.claim config name t).1 = (r.claim config name s).1

/-- Resolvers that take no short name back. -/
def Keeping (config : Config) (resolvers : List Resolver) : Prop :=
  ∀ r ∈ resolvers, ∀ name s, ShortNames.Keeps s (r.claim config name s).2

variable {config : Config} {resolvers asked : List Resolver} {start s t u : ShortNames}

theorem Later.trans (h : Later config resolvers s t) (h' : Later config resolvers t u) :
    Later config resolvers s u := by
  induction h' with
  | refl => exact h
  | shorten name _ ih => exact ih.shorten name
  | ask hr name _ ih => exact ih.ask hr name

theorem Later.keeps (hkeeping : Keeping config resolvers) (h : Later config resolvers s t) :
    ShortNames.Keeps s t := by
  induction h with
  | refl => exact .refl s
  | shorten name _ ih => exact ih.trans (ShortNames.keeps_shorten _ name)
  | ask hr name _ ih => exact ih.trans (hkeeping _ hr name _)

/-- The resolvers are asked one after the other. -/
theorem claims_cons (config : Config) (name : String) (r : Resolver) (rs : List Resolver)
    (s : ShortNames) :
    claims config name (r :: rs) s =
      (((r.claim config name s).1.map fun a => (r.name, a)).toList ++
        (claims config name rs (r.claim config name s).2).1,
        (claims config name rs (r.claim config name s).2).2) := by
  rw [claims]
  cases hclaim : r.claim config name s with
  | mk answer t => cases answer <;> rfl

theorem later_claims (name : String) (hasked : ∀ r ∈ asked, r ∈ resolvers) :
    Later config resolvers s (claims config name asked s).2 := by
  induction asked generalizing s with
  | nil => exact .refl
  | cons r rs ih =>
    rw [claims_cons]
    have hfirst : Later config resolvers s (r.claim config name s).2 :=
      Later.refl.ask (hasked r List.mem_cons_self) name
    exact hfirst.trans (ih fun q hq => hasked q (List.mem_cons_of_mem _ hq))

/-- Consistent resolvers that are asked about a name again make the same claims on it. -/
theorem Consistent.claims_again (h : Consistent config resolvers start) {name : String}
    (hasked : ∀ r ∈ asked, r ∈ resolvers) (hs : Later config resolvers start s)
    (ht : Later config resolvers (claims config name asked s).2 t) :
    (claims config name asked t).1 = (claims config name asked s).1 := by
  induction asked generalizing s t with
  | nil => rfl
  | cons r rs ih =>
    have hr := hasked r List.mem_cons_self
    have hrs : ∀ q ∈ rs, q ∈ resolvers := fun q hq => hasked q (List.mem_cons_of_mem _ hq)
    rw [claims_cons] at ht
    have hmiddle : Later config resolvers (r.claim config name s).2 t :=
      (later_claims name hrs).trans ht
    rw [claims_cons, claims_cons, h r hr name s t hs hmiddle,
      ih hrs (hs.ask hr name) (ht.ask hr name)]

/-! ## Ready-made resolvers -/

/-- A ready-made resolver. -/
def ReadyMade (r : Resolver) : Prop :=
  (∃ name ending answer, r = fixed name ending answer) ∨
    ∃ name ending before make, r = appending name ending before make

theorem keeping_of_readyMade (h : ∀ r ∈ resolvers, r.ReadyMade) : Keeping config resolvers := by
  intro r hr name s
  rcases h r hr with ⟨_, _, _, rfl⟩ | ⟨_, ending, _, _, rfl⟩
  · exact .refl s
  · change ShortNames.Keeps s
      (if Text.endsWith name ending then _ else (none, s) : Option Resolution × ShortNames).2
    split
    · exact ShortNames.keeps_shortName s name
    · exact .refl s

/-- Ready-made resolvers are consistent: their answers depend on the name and on its short name. -/
theorem consistent_of_readyMade (h : ∀ r ∈ resolvers, r.ReadyMade) (start : ShortNames) :
    Consistent config resolvers start := by
  intro r hr name s t _ hlater
  have hkeeps := hlater.keeps (keeping_of_readyMade h)
  rcases h r hr with ⟨_, _, _, rfl⟩ | ⟨_, ending, before, make, rfl⟩
  · rfl
  · unfold appending at hkeeps ⊢
    simp only at hkeeps ⊢
    split at hkeeps
    · rename_i hending
      simp only [hending, if_true]
      rw [hkeeps.shortName_eq]
    · rename_i hending
      simp only [hending, Bool.false_eq_true, if_false]

end Resolver

end Bundler

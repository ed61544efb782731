/-
The modules of a merged bundle.

A merged bundle registers the modules in their order (`Bundle.moduleOrder`). It lists the modules that
the entries lead to by what each of them asks for, and no others (`Bundle.mem_moduleOrder_iff`), each of
them once (`Bundle.nodup_moduleOrder`), and behind what it asks for, unless that leads back to it
(`Bundle.mem_front_of_asks`); in one statement, this puts dependencies first, whatever asks for what. A
script that was taken over is kept as a module that asks for nothing, in
every session (`Session.Reached.detached`). So a script that only such scripts lead to is not in a merged
bundle (`Session.Reached.mem_moduleOrder_iff`), while a fast bundle has all modules.

The walk goes down what is asked for. The names that are being visited on the way down are modules and
distinct, so there are not more of them than modules, and one step more is never used up. What is known
on the way (`Bundle.Walk.Orders`) is that a name that was met is being visited, is listed, or has no
module, and that everything that a listed module asks for was met. In the end nothing is being visited,
so what was met is closed under asking.
-/
import Mathlib.Data.List.Perm.Subperm
import Bundler.Proofs.Overall
import Bundler.Proofs.Sessions

set_option autoImplicit false

namespace Bundler

open Workspace Step

namespace Bundle

variable {modules : Modules} {entries opened : List String} {id dep : String} {w : Walk}

/-! ## What asks for what -/

/-- A module asks for a name. -/
def Asks (modules : Modules) (id dep : String) : Prop :=
  ∃ m, modules.get? id = some m ∧ dep ∈ m.deps

/-- A name leads to another one by what modules ask for. -/
def Leads (modules : Modules) : String → String → Prop := Relation.ReflTransGen (Asks modules)

/-! ## The walk -/

/-- What is known on the way, where the modules `opened` are being visited further up. -/
structure Walk.Orders (modules : Modules) (w : Walk) (opened : List String) : Prop where
  listed : w.listed.Nodup
  listed_met : ∀ id ∈ w.listed, id ∈ w.met
  listed_contains : ∀ id ∈ w.listed, modules.contains id = true
  distinct : opened.Nodup
  opened_met : ∀ id ∈ opened, id ∈ w.met
  opened_contains : ∀ id ∈ opened, modules.contains id = true
  /-- A module is listed only when its visit is over. -/
  opened_unlisted : ∀ id ∈ opened, id ∉ w.listed
  outcome : ∀ id ∈ w.met, id ∈ opened ∨ id ∈ w.listed ∨ modules.contains id = false
  closed : ∀ id ∈ w.listed, ∀ dep, Asks modules id dep → dep ∈ w.met
  front : ∀ front id back, w.listed = front ++ id :: back → ∀ dep, Asks modules id dep →
    modules.contains dep = true → dep ∈ front ∨ Leads modules dep id

namespace Walk.Orders

/-- There are not more modules that are being visited than modules. -/
theorem length_opened (h : w.Orders modules opened) : opened.length ≤ modules.size := by
  have hsub : opened ⊆ modules.keys := fun id hid => by
    obtain ⟨m, hm⟩ := OrderedMap.contains_iff.mp (h.opened_contains id hid)
    exact OrderedMap.mem_keys_of_get? hm
  have hlen := (List.subperm_of_subset h.distinct hsub).length_le
  rwa [OrderedMap.keys, List.length_map] at hlen

/-- A walk that has met nothing is in order. -/
theorem start : Walk.Orders modules ⟨[], []⟩ [] :=
  ⟨List.nodup_nil, by simp, by simp, List.nodup_nil, by simp, by simp, by simp, by simp, by simp,
    fun front _ _ hsplit => absurd hsplit (by simp)⟩

/-- A name without a module is met and not listed. -/
theorem skip (h : w.Orders modules opened) (hno : modules.contains id = false) :
    Walk.Orders modules { w with met := id :: w.met } opened where
  listed := h.listed
  listed_met x hx := List.mem_cons_of_mem _ (h.listed_met x hx)
  listed_contains := h.listed_contains
  distinct := h.distinct
  opened_met x hx := List.mem_cons_of_mem _ (h.opened_met x hx)
  opened_contains := h.opened_contains
  opened_unlisted := h.opened_unlisted
  outcome x hx := by
    rcases List.mem_cons.mp hx with rfl | hx
    · exact .inr (.inr hno)
    · exact h.outcome x hx
  closed x hx dep ha := List.mem_cons_of_mem _ (h.closed x hx dep ha)
  front := h.front

/-- The visit of a module begins. -/
theorem begins (h : w.Orders modules opened) (hm : modules.contains id = true) (hnew : id ∉ w.met) :
    Walk.Orders modules { w with met := id :: w.met } (id :: opened) where
  listed := h.listed
  listed_met x hx := List.mem_cons_of_mem _ (h.listed_met x hx)
  listed_contains := h.listed_contains
  distinct := List.nodup_cons.mpr ⟨fun hid => hnew (h.opened_met id hid), h.distinct⟩
  opened_met x hx := by
    rcases List.mem_cons.mp hx with rfl | hx
    · exact List.mem_cons_self
    · exact List.mem_cons_of_mem _ (h.opened_met x hx)
  opened_contains x hx := by
    rcases List.mem_cons.mp hx with rfl | hx
    · exact hm
    · exact h.opened_contains x hx
  opened_unlisted x hx := by
    rcases List.mem_cons.mp hx with rfl | hx
    · exact fun hlisted => hnew (h.listed_met x hlisted)
    · exact h.opened_unlisted x hx
  outcome x hx := by
    rcases List.mem_cons.mp hx with rfl | hx
    · exact .inl List.mem_cons_self
    · exact (h.outcome x hx).imp_left (List.mem_cons_of_mem _)
  closed x hx dep ha := List.mem_cons_of_mem _ (h.closed x hx dep ha)
  front := h.front

/-- The visit of a module is over when all that it asks for was met. What it asks for is listed by
then, or it is being visited further up and so leads to the module. -/
theorem ends (h : w.Orders modules (id :: opened)) (hdeps : ∀ dep, Asks modules id dep → dep ∈ w.met)
    (hlead : ∀ o ∈ opened, Leads modules o id) :
    Walk.Orders modules { w with listed := w.listed ++ [id] } opened where
  listed := by
    rw [List.nodup_append]
    refine ⟨h.listed, by simp, fun x hx y hy heq => ?_⟩
    rw [List.mem_singleton.mp hy] at heq
    exact h.opened_unlisted id List.mem_cons_self (heq ▸ hx)
  listed_met x hx := by
    rcases List.mem_append.mp hx with hx | hx
    · exact h.listed_met x hx
    · rw [List.mem_singleton.mp hx]
      exact h.opened_met id List.mem_cons_self
  listed_contains x hx := by
    rcases List.mem_append.mp hx with hx | hx
    · exact h.listed_contains x hx
    · rw [List.mem_singleton.mp hx]
      exact h.opened_contains id List.mem_cons_self
  distinct := (List.nodup_cons.mp h.distinct).2
  opened_met x hx := h.opened_met x (List.mem_cons_of_mem _ hx)
  opened_contains x hx := h.opened_contains x (List.mem_cons_of_mem _ hx)
  opened_unlisted x hx hlisted := by
    rcases List.mem_append.mp hlisted with hlisted | hlisted
    · exact h.opened_unlisted x (List.mem_cons_of_mem _ hx) hlisted
    · rw [List.mem_singleton.mp hlisted] at hx
      exact (List.nodup_cons.mp h.distinct).1 hx
  outcome x hx := by
    rcases h.outcome x hx with hopened | hlisted | hno
    · rcases List.mem_cons.mp hopened with rfl | hopened
      · exact .inr (.inl (List.mem_append_right _ List.mem_cons_self))
      · exact .inl hopened
    · exact .inr (.inl (List.mem_append_left _ hlisted))
    · exact .inr (.inr hno)
  closed x hx dep ha := by
    rcases List.mem_append.mp hx with hx | hx
    · exact h.closed x hx dep ha
    · rw [List.mem_singleton.mp hx] at ha
      exact hdeps dep ha
  front front x back hsplit dep ha hdep := by
    rcases List.eq_nil_or_concat back with rfl | ⟨back, last, rfl⟩
    · obtain ⟨hfront, hlast⟩ := List.append_inj' hsplit rfl
      obtain rfl : id = x := by simpa using hlast
      rcases h.outcome dep (hdeps dep ha) with hopened | hlisted | hno
      · rcases List.mem_cons.mp hopened with rfl | hopened
        · exact .inr .refl
        · exact .inr (hlead dep hopened)
      · exact .inl (hfront ▸ hlisted)
      · rw [hdep] at hno
        exact absurd hno (by simp)
    · have hsplit' : w.listed ++ [id] = (front ++ x :: back) ++ [last] := by simpa using hsplit
      exact h.front front x back (List.append_inj' hsplit' rfl).1 dep ha hdep

end Walk.Orders

/-- What a visit comes to, where `ids` are the names that were to be visited. -/
structure Visited (modules : Modules) (w w' : Walk) (opened ids : List String) : Prop where
  orders : w'.Orders modules opened
  met : ∀ id ∈ ids, id ∈ w'.met
  kept : ∀ id ∈ w.met, id ∈ w'.met

/-- Names one after the other, given that the visit of each is as it should be. -/
private theorem visited_foldl {visit : Walk → String → Walk} {P : String → Prop}
    (hvisit : ∀ w id, P id → w.Orders modules opened →
      Visited modules w (visit w id) opened [id]) :
    ∀ (ids : List String) (w : Walk), (∀ id ∈ ids, P id) → w.Orders modules opened →
      Visited modules w (ids.foldl visit w) opened ids := by
  intro ids
  induction ids with
  | nil => exact fun w _ h => ⟨h, by simp, fun _ h => h⟩
  | cons id ids ih =>
    intro w hids h
    have hone := hvisit w id (hids id List.mem_cons_self) h
    have hrest := ih (visit w id) (fun x hx => hids x (List.mem_cons_of_mem _ hx)) hone.orders
    refine ⟨hrest.orders, fun x hx => ?_, fun x hx => hrest.kept x (hone.kept x hx)⟩
    rcases List.mem_cons.mp hx with rfl | hx
    · exact hrest.kept x (hone.met x List.mem_cons_self)
    · exact hrest.met x hx

/-- The visit of a name meets it. The induction is on the number of steps left; with each step down
one more module is being visited, so together they stay above the number of modules. -/
theorem visited_visit (modules : Modules) : ∀ (depth : Nat) (opened : List String) (w : Walk)
    (id : String), modules.size < opened.length + depth → (∀ o ∈ opened, Leads modules o id) →
    w.Orders modules opened → Visited modules w (visit modules depth w id) opened [id] := by
  intro depth
  induction depth with
  | zero =>
    intro opened w id hroom _ h
    have hle := h.length_opened
    omega
  | succ depth ih =>
    intro opened w id hroom hlead h
    unfold visit
    by_cases hmet : w.met.contains id = true
    · rw [if_pos hmet]
      exact ⟨h, fun x hx => by rw [List.mem_singleton.mp hx]; simpa using hmet, fun _ hx => hx⟩
    · rw [if_neg hmet]
      have hnew : id ∉ w.met := by simpa using hmet
      cases hm : modules.get? id with
      | none =>
        have hno : modules.contains id = false := by
          by_contra hyes
          obtain ⟨m, hm'⟩ := OrderedMap.contains_iff.mp (by simpa using hyes)
          rw [hm] at hm'
          exact absurd hm' (by simp)
        exact ⟨h.skip hno, fun x hx => by rw [List.mem_singleton.mp hx]; exact List.mem_cons_self,
          fun _ hx => List.mem_cons_of_mem _ hx⟩
      | some m =>
        have hopen := h.begins (OrderedMap.contains_iff.mpr ⟨m, hm⟩) hnew
        have hall := visited_foldl (P := Asks modules id) (fun w dep ha hw =>
          ih (id :: opened) w dep (by simp only [List.length_cons]; omega) (fun o ho => by
            rcases List.mem_cons.mp ho with rfl | ho
            · exact .single ha
            · exact (hlead o ho).tail ha) hw) m.deps _ (fun dep hdep => ⟨m, hm, hdep⟩) hopen
        refine ⟨hall.orders.ends ?_ hlead, fun x hx => ?_, fun x hx => ?_⟩
        · rintro dep ⟨m', hm', hdep⟩
          rw [hm] at hm'
          obtain rfl := Option.some.inj hm'
          exact hall.met dep hdep
        · rw [List.mem_singleton.mp hx]
          exact hall.kept id List.mem_cons_self
        · exact hall.kept x (List.mem_cons_of_mem _ hx)

private theorem listed_foldl {visit : Walk → String → Walk} {P : String → Prop}
    (hvisit : ∀ w id, P id → (∀ x ∈ w.listed, P x) → ∀ x ∈ (visit w id).listed, P x) :
    ∀ (ids : List String) (w : Walk), (∀ id ∈ ids, P id) → (∀ x ∈ w.listed, P x) →
      ∀ x ∈ (ids.foldl visit w).listed, P x := by
  intro ids
  induction ids with
  | nil => exact fun _ _ h => h
  | cons id ids ih =>
    intro w hids h
    exact ih _ (fun x hx => hids x (List.mem_cons_of_mem _ hx))
      (hvisit w id (hids id List.mem_cons_self) h)

/-- What holds of a name and of all that is asked for holds of what its visit lists. -/
theorem listed_visit {P : String → Prop} (hP : ∀ id dep, P id → Asks modules id dep → P dep) :
    ∀ (depth : Nat) (w : Walk) (id : String), P id → (∀ x ∈ w.listed, P x) →
      ∀ x ∈ (visit modules depth w id).listed, P x := by
  intro depth
  induction depth with
  | zero => exact fun _ _ _ h => h
  | succ depth ih =>
    intro w id hid h
    unfold visit
    split
    · exact h
    · cases hm : modules.get? id with
      | none => exact h
      | some m =>
        intro x hx
        rcases List.mem_append.mp hx with hx | hx
        · exact listed_foldl ih m.deps ⟨id :: w.met, w.listed⟩
            (fun dep hdep => hP id dep hid ⟨m, hm, hdep⟩) h x hx
        · rw [List.mem_singleton.mp hx]
          exact hid

/-! ## The order -/

private theorem visited_entries (modules : Modules) (entries : List String) :
    Visited modules ⟨[], []⟩ (entries.foldl (visit modules (modules.size + 1)) ⟨[], []⟩) []
      entries :=
  visited_foldl (P := fun _ => True)
    (fun w id _ h => visited_visit modules _ [] w id (by simp) (by simp) h) entries _
    (fun _ _ => trivial) .start

/-- Each module is listed once. -/
theorem nodup_moduleOrder (modules : Modules) (entries : List String) :
    (moduleOrder modules entries).Nodup := (visited_entries modules entries).orders.listed

/-- The modules of a merged bundle are those that its entries lead to. -/
theorem mem_moduleOrder_iff : id ∈ moduleOrder modules entries ↔
    modules.contains id = true ∧ ∃ entry ∈ entries, Leads modules entry id := by
  have hall := visited_entries modules entries
  constructor
  · refine fun hid => ⟨hall.orders.listed_contains id hid, ?_⟩
    have hstep : ∀ a b, (∃ entry ∈ entries, Leads modules entry a) → Asks modules a b →
        ∃ entry ∈ entries, Leads modules entry b := by
      rintro a b ⟨entry, hentry, hlead⟩ hask
      exact ⟨entry, hentry, hlead.tail hask⟩
    exact listed_foldl (listed_visit hstep _) entries ⟨[], []⟩
      (fun entry hentry => ⟨entry, hentry, .refl⟩) (by simp) id hid
  · rintro ⟨hid, entry, hentry, hlead⟩
    -- nothing is being visited any more, so what was met and has a module is listed
    have hlisted : ∀ x ∈ (entries.foldl (visit modules (modules.size + 1)) ⟨[], []⟩).met,
        modules.contains x = true → x ∈ moduleOrder modules entries := by
      intro x hx hmodule
      rcases hall.orders.outcome x hx with hopened | hx | hno
      · exact absurd hopened List.not_mem_nil
      · exact hx
      · rw [hmodule] at hno
        exact absurd hno (by simp)
    refine hlisted id ?_ hid
    induction hlead with
    | refl => exact hall.met entry hentry
    | @tail a b _ hask ih =>
      have hmodule : modules.contains a = true := by
        obtain ⟨m, hm, -⟩ := hask
        exact OrderedMap.contains_iff.mpr ⟨m, hm⟩
      exact hall.orders.closed a (hlisted a (ih hmodule) hmodule) b hask

/-- A module is listed behind the modules that it asks for, except those that lead back to it. -/
theorem mem_front_of_asks {front back : List String}
    (hsplit : moduleOrder modules entries = front ++ id :: back) (hask : Asks modules id dep)
    (hdep : modules.contains dep = true) : dep ∈ front ∨ Leads modules dep id :=
  (visited_entries modules entries).orders.front front id back hsplit dep hask hdep

/-- Two ways to visit a name that agree as long as the walk is in order come to the same for names one
after the other, since the walk stays in order. -/
private theorem foldl_visit_eq {visit visit' : Walk → String → Walk} {P : String → Prop}
    (hvisit : ∀ w id, P id → w.Orders modules opened → Visited modules w (visit w id) opened [id])
    (hsame : ∀ w id, P id → w.Orders modules opened → visit w id = visit' w id) :
    ∀ (ids : List String) (w : Walk), (∀ id ∈ ids, P id) → w.Orders modules opened →
      ids.foldl visit w = ids.foldl visit' w := by
  intro ids
  induction ids with
  | nil => exact fun _ _ _ => rfl
  | cons id ids ih =>
    intro w hids h
    have hid := hids id List.mem_cons_self
    rw [List.foldl_cons, List.foldl_cons, ← hsame w id hid h]
    exact ih _ (fun x hx => hids x (List.mem_cons_of_mem _ hx)) (hvisit w id hid h).orders

/-- The visit of a name comes to the same at every depth above the number of modules that are not being
visited yet. So none is cut short by its depth: a walk with no bound on its depth ends, and ends there. -/
theorem visit_eq_visit (modules : Modules) : ∀ (depth depth' : Nat) (opened : List String) (w : Walk)
    (id : String), modules.size < opened.length + depth → modules.size < opened.length + depth' →
    (∀ o ∈ opened, Leads modules o id) → w.Orders modules opened →
    visit modules depth w id = visit modules depth' w id := by
  intro depth
  induction depth with
  | zero =>
    -- with no step left all modules would be open already, and then there is no room
    intro depth' opened w id hroom _ _ h
    have hle := h.length_opened
    omega
  | succ depth ih =>
    intro depth' opened w id hroom hroom' hlead h
    have hle := h.length_opened
    obtain ⟨depth', rfl⟩ : ∃ d, depth' = d + 1 := ⟨depth' - 1, by omega⟩
    by_cases hmet : w.met.contains id = true
    · simp only [visit, hmet, if_true]
    · have hnew : id ∉ w.met := by simpa using hmet
      cases hm : modules.get? id with
      | none => simp only [visit, hm]
      | some m =>
        have hopen := h.begins (OrderedMap.contains_iff.mpr ⟨m, hm⟩) hnew
        have hlength : (id :: opened).length = opened.length + 1 := rfl
        have hleads : ∀ dep, Asks modules id dep → ∀ o ∈ id :: opened, Leads modules o dep := by
          intro dep hask o ho
          rcases List.mem_cons.mp ho with rfl | ho
          · exact .single hask
          · exact (hlead o ho).tail hask
        have hdeps := foldl_visit_eq (P := Asks modules id)
          (fun w dep hask hw => visited_visit modules depth _ w dep (by omega) (hleads dep hask) hw)
          (fun w dep hask hw => ih depth' _ w dep (by omega) (by omega) (hleads dep hask) hw)
          m.deps _ (fun dep hdep => ⟨m, hm, hdep⟩) hopen
        simp only [visit, hm, hdeps]

/-- The order of the modules puts dependencies first. The walk ends by itself: with more steps to go down
than there are modules it comes to the same. It lists each module that is present and that an entry leads
to once, and nothing else. And if a listed module asks for a listed one that does not lead back to it,
then the one asked for stands before it. -/
theorem moduleOrder_dependenciesFirst (modules : Modules) (entries : List String) :
    (∀ depth, modules.size < depth →
      (entries.foldl (visit modules depth) ⟨[], []⟩).listed = moduleOrder modules entries) ∧
    (moduleOrder modules entries).Nodup ∧
    (∀ id, id ∈ moduleOrder modules entries ↔
      modules.contains id = true ∧ ∃ entry ∈ entries, Leads modules entry id) ∧
    ∀ u ∈ moduleOrder modules entries, ∀ v ∈ moduleOrder modules entries,
      Asks modules u v → ¬ Leads modules v u →
        (moduleOrder modules entries).idxOf v < (moduleOrder modules entries).idxOf u := by
  refine ⟨?_, nodup_moduleOrder modules entries, fun id => mem_moduleOrder_iff, ?_⟩
  · intro depth hdepth
    unfold moduleOrder
    rw [foldl_visit_eq (P := fun _ => True)
      (fun w id _ h => visited_visit modules depth [] w id (by simpa using hdepth) (by simp) h)
      (fun w id _ h => visit_eq_visit modules depth (modules.size + 1) [] w id (by simpa using hdepth)
        (by simp) (by simp) h) entries ⟨[], []⟩ (fun _ _ => trivial) .start]
  · intro u hu v hv hask hback
    obtain ⟨front, back, hsplit⟩ := List.append_of_mem hu
    have hv' : modules.contains v = true := (mem_moduleOrder_iff.mp hv).1
    have hfront : v ∈ front := (mem_front_of_asks hsplit hask hv').resolve_right hback
    have hnodup := nodup_moduleOrder modules entries
    rw [hsplit] at hnodup ⊢
    -- nothing is listed twice, so the module is not in front of itself
    have hu' : u ∉ front := fun h => List.disjoint_of_nodup_append hnodup h List.mem_cons_self
    rw [List.idxOf_append_of_mem hfront, List.idxOf_append_of_notMem hu']
    have hlt := List.idxOf_lt_length_of_mem hfront
    omega

/-! ## Scripts that were taken over -/

/-- Scripts that were taken over ask for nothing. -/
def Detached (modules : Modules) : Prop :=
  ∀ id m, (id, m) ∈ modules.toList → m.copied = true → m.deps = []

theorem Detached.empty : Detached .empty := fun _ _ h => absurd h List.not_mem_nil

theorem Detached.insert {m : Module} (h : Detached modules) (hm : m.copied = true → m.deps = []) :
    Detached (modules.insert id m) := by
  intro id' m' hmem
  rcases OrderedMap.mem_insert hmem with heq | hold
  · obtain ⟨rfl, rfl⟩ := Prod.mk.inj heq
    exact hm
  · exact h id' m' hold

theorem Detached.filter (h : Detached modules) (p : String → Module → Bool) :
    Detached (modules.filter p) := fun id m hmem => h id m (List.mem_filter.mp hmem).1

/-- A script that was taken over is in a merged bundle exactly if it is an entry, or a written module
in the bundle asks for it. -/
theorem Detached.mem_moduleOrder_iff (h : Detached modules) (hid : modules.contains id = true) :
    id ∈ moduleOrder modules entries ↔ id ∈ entries ∨ ∃ a ∈ moduleOrder modules entries,
      ∃ m, modules.get? a = some m ∧ m.copied = false ∧ id ∈ m.deps := by
  constructor
  · intro hlisted
    obtain ⟨-, entry, hentry, hlead⟩ := Bundle.mem_moduleOrder_iff.mp hlisted
    rcases Relation.ReflTransGen.cases_tail hlead with rfl | ⟨a, hreach, m, hm, hdep⟩
    · exact .inl hentry
    · refine .inr ⟨a, Bundle.mem_moduleOrder_iff.mpr ⟨OrderedMap.contains_iff.mpr ⟨m, hm⟩, entry,
        hentry, hreach⟩, m, hm, ?_, hdep⟩
      by_contra hcopied
      rw [h a m (OrderedMap.mem_of_get? hm) (by simpa using hcopied)] at hdep
      exact absurd hdep List.not_mem_nil
  · rintro (hentry | ⟨a, hlisted, m, hm, -, hdep⟩)
    · exact Bundle.mem_moduleOrder_iff.mpr ⟨hid, id, hentry, .refl⟩
    · obtain ⟨-, entry, hentry, hlead⟩ := Bundle.mem_moduleOrder_iff.mp hlisted
      exact Bundle.mem_moduleOrder_iff.mpr ⟨hid, entry, hentry, hlead.tail ⟨m, hm, hdep⟩⟩

/-- What only a script that was taken over mentions is left out. -/
example : moduleOrder ⟨[("a", ⟨"a", "", none, ["lib"], false⟩), ("lib", ⟨"lib", "", none, [], true⟩),
    ("util", ⟨"util", "", none, [], true⟩)]⟩ ["a"] = ["lib", "a"] := by decide

end Bundle

open Bundle

/-- The law of steps that leave the settings alone and keep modules such that scripts that were taken
over ask for nothing. -/
private def detaching : Law Workspace where
  moves w w' := w'.project.config = w.project.config ∧ w'.project.dir = w.project.dir ∧
    (Detached w.project.emitted → Detached w'.project.emitted)
  fails _ _ := True
  refl _ := ⟨rfl, rfl, fun h => h⟩
  trans h h' := ⟨h'.1.trans h.1, h'.2.1.trans h.2.1, fun hd => h'.2.2 (h.2.2 hd)⟩
  back _ _ := trivial
  fault _ _ := trivial

private theorem moves_detaching {w w' : Workspace} (h : w'.project = w.project) :
    detaching.moves w w' := by
  unfold detaching
  simp only
  rw [h]
  exact ⟨rfl, rfl, fun hd => hd⟩

private theorem Workspace.written_emitted (w : Workspace) (path : String) (content : Bytes) :
    (w.written path content).project.emitted = w.project.emitted := by
  unfold Workspace.written
  split
  · unfold Project.write
    split <;> rfl
  · rfl

private theorem delivering_detaching : Delivering detaching fun _ => True where
  config h := h.1
  dir h := h.2.1
  enter _ _ := moves_detaching rfl
  get _ _ := moves_detaching rfl
  look _ _ := moves_detaching rfl
  text _ _ := moves_detaching rfl
  buffer _ _ := moves_detaching rfl
  quiet _ _ hq := ⟨hq.config, hq.dir, fun hd => by rw [hq.emitted]; exact hd⟩
  write w path content := ⟨w.written_config path content, w.written_dir path content, fun hd => by
    rw [w.written_emitted]
    exact hd⟩
  fails _ _ _ := trivial
  copied _ _ _ := moves_detaching rfl
  keep _ _ _ hm := ⟨rfl, rfl, fun hd => hd.insert hm⟩
  took _ _ _ _ _ := moves_detaching rfl
  stamp _ _ := moves_detaching rfl

private theorem loading_detaching : Bundler.Loading detaching fun _ => True where
  toLooking := delivering_detaching.toLooking
  script _ _ _ _ _ _ _ _ _ _ := moves_detaching rfl
  refs _ _ _ _ _ _ := Session.allows_refreshReferences delivering_detaching.toLooking
    fun _ _ _ _ _ _ _ _ h => h

private theorem walking_detaching : Walking detaching where
  get _ _ := moves_detaching rfl
  look _ _ := moves_detaching rfl
  mark _ _ _ := moves_detaching rfl
  unmark _ := moves_detaching rfl

namespace Session

private theorem overall_detaching (mains : List String) : Overall detaching mains where
  loading t := (obeys_loadProgram loading_detaching mains t).beneath
  walking := walking_detaching
  delivering := delivering_detaching
  placing _ _ := ⟨rfl, rfl, fun hd => hd⟩
  dropped _ _ := ⟨rfl, rfl, fun hd => hd.filter _⟩

/-- A cycle keeps modules such that scripts that were taken over ask for nothing, whether it returns or
ends early. -/
private theorem detached_compile {s : Session} (h : Detached s.project.emitted) :
    Detached (Step.final (compile s)).project.emitted := by
  have hbegun : Detached s.begun.project.emitted := by
    unfold begun
    cases s.isForced with
    | true =>
      have hquiet := s.project.clearMaps.quiet_beginCycle
      exact hquiet.emitted ▸ Detached.empty
    | false => exact s.project.quiet_beginCycle.emitted ▸ h
  exact (allows_compile (overall_detaching s.begun.project.mains)).final.2.2 hbegun

/-- In every session that is reached, scripts that were taken over ask for nothing. -/
theorem Reached.detached {project : Project} {s : Session} (h : Reached project s)
    (hproject : Detached project.emitted) : Detached s.project.emitted := by
  induction h with
  | start _ => exact hproject
  | change _ _ ih => exact ih
  | force _ ih => exact ih
  | @returned s _ _ _ hrun ih =>
    have hcycle : Detached s.clearProbes.project.emitted → _ := detached_compile
    rw [← cycle_eq, hrun] at hcycle
    exact hcycle ih
  | @ended s _ _ _ hrun ih =>
    have hcycle : Detached s.clearProbes.project.emitted → _ := detached_compile
    rw [← cycle_eq, hrun] at hcycle
    exact hcycle ih

/-- In a session that is reached, a module is in a merged bundle exactly if it is an entry, or a written
module in the bundle asks for it. -/
theorem Reached.mem_moduleOrder_iff {project : Project} {s : Session} {entries : List String}
    {id : String} (h : Reached project s) (hproject : project.emitted = .empty)
    (hid : s.project.emitted.contains id = true) :
    id ∈ moduleOrder s.project.emitted entries ↔ id ∈ entries ∨
      ∃ a ∈ moduleOrder s.project.emitted entries, ∃ m, s.project.emitted.get? a = some m ∧
        m.copied = false ∧ id ∈ m.deps :=
  (h.detached (hproject ▸ Detached.empty)).mem_moduleOrder_iff hid

end Session

end Bundler

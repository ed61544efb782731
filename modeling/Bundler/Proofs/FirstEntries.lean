/-
Which entry of a merged bundle runs first.

A few modules are meant to run before all entries, because they prepare the page (`Bundle.shims`). The
bundle looks for one of them by a part of its name and puts it in front of the entries. This file says when
such a module is the first entry, stands there once, and has the other entries behind it as they were given
(`Bundle.GoesFirst`).

It is in front if it was put there, and else only if the entries begin with it already
(`entryList_goesFirst_iff`). It is not put there in two cases in which it is a module all the same. If an entry
names it, the entries stay as they are, also where others stand in front of it (`entryList_of_mem`). And if
some other module has the part of the first one in its name, the search is over with that
(`entryList_of_other_name`). Where no entry names it and no other module has such a name, it leads
(`entryList_goesFirst`), and its start call is the first of all (`GoesFirst.starts_eq`).
-/
import Bundler.Bundle.Merged
import Bundler.Proofs.Cache

set_option autoImplicit false

namespace Bundler.Bundle

variable {modules : Modules} {entries list : List String} {shim part : String}

/-- The names of the modules that are meant to run before all entries. -/
def shimNames : List String := shims.map Prod.snd

/-- One of the modules that are meant to run first stands in front of the entries, and the others are
behind it in their order. -/
def GoesFirst (modules : Modules) (entries : List String) (shim : String) (list : List String) : Prop :=
  shim ∈ shimNames ∧ modules.contains shim = true ∧ list = shim :: entries.filter (· ≠ shim)

/-- The name of the module that is put in front, if it is a module and no entry: that of the first part that
occurs in the name of some module. -/
def sought? (modules : Modules) : Option String :=
  (shims.find? fun s => hasName modules s.1).map Prod.snd

/-! ## The search -/

theorem mem_shimNames_of_sought (h : sought? modules = some shim) : shim ∈ shimNames := by
  obtain ⟨s, hs, rfl⟩ := Option.map_eq_some_iff.mp h
  exact List.mem_map_of_mem (List.mem_of_find?_eq_some hs)

theorem entryList_eq (modules : Modules) (entries : List String) :
    entryList modules entries =
      match sought? modules with
      | some shim => if modules.contains shim ∧ shim ∉ entries then shim :: entries else entries
      | none => entries := by
  unfold entryList sought?
  cases shims.find? fun s => hasName modules s.1 with
  | none => rfl
  | some s => simp

/-- A module is put in front just if it is sought and no entry names it. -/
theorem entryList_eq_cons_iff : entryList modules entries = shim :: entries ↔
    sought? modules = some shim ∧ modules.contains shim = true ∧ shim ∉ entries := by
  have hne : entries ≠ shim :: entries := fun h => by
    have hlen := congrArg List.length h
    simp at hlen
  rw [entryList_eq]
  cases hsought : sought? modules with
  | none => simp [hne]
  | some other =>
    simp only
    by_cases hput : modules.contains other ∧ other ∉ entries
    · rw [if_pos hput]
      refine ⟨fun h => ?_, fun h => by rw [Option.some.inj h.1]⟩
      obtain rfl := (List.cons.inj h).1
      exact ⟨rfl, hput⟩
    · simp only [if_neg hput, hne, false_iff]
      rintro ⟨heq, hcontains, hnew⟩
      obtain rfl := Option.some.inj heq
      exact hput ⟨hcontains, hnew⟩

/-- Nothing else happens to the entries. -/
theorem entryList_cases (modules : Modules) (entries : List String) :
    (∃ shim, entryList modules entries = shim :: entries) ∨ entryList modules entries = entries := by
  rw [entryList_eq]
  cases sought? modules with
  | none => exact .inr rfl
  | some shim =>
    by_cases hput : modules.contains shim ∧ shim ∉ entries
    · exact .inl ⟨shim, if_pos hput⟩
    · exact .inr (if_neg hput)

/-! ## When a module leads -/

private theorem filter_ne_of_not_mem (h : shim ∉ entries) : entries.filter (· ≠ shim) = entries := by
  refine List.filter_eq_self.mpr fun e he => ?_
  simpa using fun heq : e = shim => h (heq ▸ he)

/-- **Which entry is first.** A module leads the entries of a bundle if it was put in front of them, and
otherwise only if they begin with it and do not name it again. -/
theorem entryList_goesFirst_iff : GoesFirst modules entries shim (entryList modules entries) ↔
    (sought? modules = some shim ∧ modules.contains shim = true ∧ shim ∉ entries) ∨
      (GoesFirst modules entries shim entries ∧ entryList modules entries = entries) := by
  constructor
  · rintro ⟨hname, hcontains, hlist⟩
    rcases entryList_cases modules entries with ⟨other, hput⟩ | hkept
    · obtain ⟨hsought, hother, hnew⟩ := entryList_eq_cons_iff.mp hput
      obtain rfl := (List.cons.inj (hput.symm.trans hlist)).1
      exact .inl ⟨hsought, hother, hnew⟩
    · exact .inr ⟨⟨hname, hcontains, hkept.symm.trans hlist⟩, hkept⟩
  · rintro (h | ⟨hfirst, hkept⟩)
    · refine ⟨mem_shimNames_of_sought h.1, h.2.1, ?_⟩
      rw [entryList_eq_cons_iff.mpr h, filter_ne_of_not_mem h.2.2]
    · rwa [hkept]

/-- If an entry names the module that is sought, the entries stay as they are, wherever it stands. -/
theorem entryList_of_mem (h : sought? modules = some shim) (hmem : shim ∈ entries) :
    entryList modules entries = entries := by
  rw [entryList_eq, h]
  exact if_neg fun hput => hput.2 hmem

/-- If the part of the first module occurs in another name only, the second one is not looked for. -/
theorem entryList_of_other_name (h : hasName modules "/bobriln/index" = true)
    (hno : modules.contains "node_modules/bobriln/index" = false) :
    entryList modules entries = entries := by
  have hsought : sought? modules = some "node_modules/bobriln/index" := by
    have hfirst : shims.find? (fun s => hasName modules s.1)
        = some ("/bobriln/index", "node_modules/bobriln/index") := List.find?_cons_of_pos h
    unfold sought?
    rw [hfirst]
    rfl
  rw [entryList_eq, hsought]
  refine if_neg fun hput => ?_
  rw [hno] at hput
  exact absurd hput.1 (by decide)

example : let modules : Modules := .ofList (["app", "node_modules/bobril/index"].map fun id =>
      (id, { id, js := "", sourceMap := none, deps := [], copied := false }))
    sought? modules = some "node_modules/bobril/index" ∧
      entryList modules ["app", "node_modules/bobril/index"] = ["app", "node_modules/bobril/index"] := by
  decide +kernel

private theorem hasName_of_contains {id : String} (h : modules.contains id = true)
    (hpart : Text.occursIn part.toList ('/' :: id.toList) = true) : hasName modules part = true := by
  obtain ⟨m, hm⟩ := OrderedMap.contains_iff.mp h
  exact List.any_eq_true.mpr ⟨id, OrderedMap.mem_keys_of_get? hm, hpart⟩

/-- If one of the modules that are meant to run first is there, no other module has the part of one in its
name, and no entry names one, then one of them leads. -/
theorem entryList_goesFirst (hshim : ∃ shim ∈ shimNames, modules.contains shim = true)
    (hentries : ∀ e ∈ entries, e ∉ shimNames)
    (hother : ∀ s ∈ shims, hasName modules s.1 = true → modules.contains s.2 = true) :
    ∃ shim, GoesFirst modules entries shim (entryList modules entries) := by
  have hoccurs : ∀ s ∈ shims, Text.occursIn s.1.toList ('/' :: s.2.toList) = true := by decide +kernel
  obtain ⟨name, hname, hcontains⟩ := hshim
  obtain ⟨s, hs, rfl⟩ := List.mem_map.mp hname
  cases hfind : shims.find? fun s => hasName modules s.1 with
  | none =>
    have hno := List.find?_eq_none.mp hfind s hs
    exact absurd (hasName_of_contains hcontains (hoccurs s hs)) hno
  | some found =>
    have hmem := List.mem_of_find?_eq_some hfind
    have hpart : hasName modules found.1 = true :=
      List.find?_some (p := fun s : String × String => hasName modules s.1) hfind
    have hfound := hother found hmem hpart
    refine ⟨found.2, entryList_goesFirst_iff.mpr (.inl ⟨?_, hfound, fun he => ?_⟩)⟩
    · unfold sought?
      rw [hfind]
      rfl
    · exact hentries _ he (List.mem_map_of_mem hmem)

/-! ## Start calls -/

/-- A module that leads is started before all entries. -/
theorem GoesFirst.starts_eq (h : GoesFirst modules entries shim list) (names : List (String × String)) :
    starts modules names list
      = start (registeredName names shim) ++ "\n" ++ starts modules names (entries.filter (· ≠ shim)) := by
  obtain ⟨-, hcontains, rfl⟩ := h
  unfold starts
  rw [List.filter_cons_of_pos hcontains, List.map_cons, String.join_cons]

end Bundler.Bundle

/-
Walks down the imports.

A walk goes from file to file. It passes over a file that it has met, notes one that cannot be read, and
otherwise enters it, goes down its imports, and lists it on the way back. `Walk` is that way of going,
apart from any program that goes it: one constructor for each thing that can happen at a file.

Files are told apart by their names in lower case. What a walk lists and notes is each file that is
reached, once (`Walk.accounts`, `Walk.mem_met_iff`), and a file is listed behind every file that it
imports, unless that leads back to it (`Walk.ordered`). The invariant of the order is about the files that
were entered and are not listed yet: each of them leads to whatever the walk is looking at.
-/
import Mathlib.Data.List.Nodup
import Mathlib.Data.List.Perm.Basic
import Mathlib.Logic.Relation
import Bundler.Text.LowerCase

set_option autoImplicit false

namespace Bundler

open Relation

/-- What is known of files: what a file imports if it can be read, and which files cannot be read. -/
structure Sources where
  imports : String → List String → Prop
  unread : String → Prop
  imports_unique : ∀ {file deps deps'}, imports file deps → imports file deps' → deps = deps'

/-- In lower case, one name is that of a listed file, and the other that of an import of it. -/
def Sources.Follows (S : Sources) (listed : List String) (name name' : String) : Prop :=
  ∃ file ∈ listed, ∃ deps, S.imports file deps ∧ ∃ dep ∈ deps,
    Text.lower file = name ∧ Text.lower dep = name'

/-- How far a walk has come: the files that it has met, newest first, those that are listed, and those
that could not be read. -/
structure Tour where
  seen : List String
  listed : List String
  missing : List String

namespace Tour

/-- A walk that has not begun. -/
def start : Tour := ⟨[], [], []⟩

/-- The names that were met. -/
def met (t : Tour) : List String := t.seen.map Text.lower

/-- Enters a file. -/
def enter (t : Tour) (file : String) : Tour := { t with seen := file :: t.seen }

/-- Notes a file that cannot be read. -/
def miss (t : Tour) (file : String) : Tour :=
  { t with seen := file :: t.seen, missing := t.missing ++ [file] }

/-- Lists a file. -/
def list (t : Tour) (file : String) : Tour := { t with listed := t.listed ++ [file] }

/-- Every file that was met is listed, could not be read, or was entered and is not listed yet; and no two
have one name. -/
structure Accounts (t : Tour) (opened : List String) : Prop where
  met : t.met.Nodup
  perm : t.seen.Perm (t.listed ++ t.missing ++ opened)

variable {t : Tour} {opened : List String} {file : String}

theorem accounts_start : start.Accounts [] := ⟨List.nodup_nil, List.Perm.refl _⟩

theorem Accounts.enter (h : t.Accounts opened) (hnew : Text.lower file ∉ t.met) :
    (t.enter file).Accounts (file :: opened) :=
  ⟨List.nodup_cons.mpr ⟨hnew, h.met⟩, (h.perm.cons _).trans List.perm_middle.symm⟩

theorem Accounts.miss (h : t.Accounts opened) (hnew : Text.lower file ∉ t.met) :
    (t.miss file).Accounts opened := by
  refine ⟨List.nodup_cons.mpr ⟨hnew, h.met⟩, (h.perm.cons file).trans ?_⟩
  rw [← List.cons_append]
  refine List.Perm.append_right _ ?_
  change (file :: (t.listed ++ t.missing)).Perm (t.listed ++ (t.missing ++ [file]))
  rw [← List.append_assoc]
  exact (List.perm_append_singleton _ _).symm

theorem Accounts.list (h : t.Accounts (file :: opened)) : (t.list file).Accounts opened := by
  refine ⟨h.met, h.perm.trans (List.perm_middle.trans ?_)⟩
  rw [← List.cons_append]
  refine List.Perm.append_right _ ?_
  change (file :: (t.listed ++ t.missing)).Perm (t.listed ++ [file] ++ t.missing)
  rw [List.append_assoc, List.singleton_append]
  exact List.perm_middle.symm

theorem Accounts.mem_seen (h : t.Accounts opened) :
    file ∈ t.seen ↔ file ∈ t.listed ∨ file ∈ t.missing ∨ file ∈ opened := by
  rw [h.perm.mem_iff, List.mem_append, List.mem_append, or_assoc]

theorem Accounts.mem_met (h : t.Accounts opened) {name : String} : name ∈ t.met ↔
    name ∈ t.listed.map Text.lower ∨ name ∈ t.missing.map Text.lower ∨
      name ∈ opened.map Text.lower := by
  have hperm := h.perm.map Text.lower
  rw [List.map_append, List.map_append] at hperm
  change name ∈ t.seen.map Text.lower ↔ _
  rw [hperm.mem_iff, List.mem_append, List.mem_append, or_assoc]

/-- At the end each file that was met is listed once or could not be read. -/
theorem Accounts.nodup (h : t.Accounts []) : ((t.listed ++ t.missing).map Text.lower).Nodup := by
  have hperm := h.perm
  rw [List.append_nil] at hperm
  exact (hperm.map Text.lower).nodup_iff.mp h.met

end Tour

/-- A walk over files, from where another one has come to. -/
inductive Walk (S : Sources) : Tour → List String → Tour → Prop where
  | nil (t : Tour) : Walk S t [] t
  | met {t t' : Tour} {file : String} {files : List String} (hmet : Text.lower file ∈ t.met)
      (rest : Walk S t files t') : Walk S t (file :: files) t'
  | unread {t t' : Tour} {file : String} {files : List String} (hnew : Text.lower file ∉ t.met)
      (hfile : S.unread file) (rest : Walk S (t.miss file) files t') : Walk S t (file :: files) t'
  | enter {t t₁ t' : Tour} {file : String} {files deps : List String} (hnew : Text.lower file ∉ t.met)
      (hfile : S.imports file deps) (down : Walk S (t.enter file) deps t₁)
      (rest : Walk S (t₁.list file) files t') : Walk S t (file :: files) t'

namespace Walk

variable {S S' : Sources} {t t₁ t' : Tour} {files files' opened listed : List String}

/-- What more is known of files makes no difference to a walk. -/
theorem mono (h : Walk S t files t') (himports : ∀ file deps, S.imports file deps → S'.imports file deps)
    (hunread : ∀ file, S.unread file → S'.unread file) : Walk S' t files t' := by
  induction h with
  | nil t => exact .nil t
  | met hmet _ ih => exact .met hmet ih
  | unread hnew hfile _ ih => exact .unread hnew (hunread _ hfile) ih
  | enter hnew hfile _ _ ihdown ih => exact .enter hnew (himports _ _ hfile) ihdown ih

theorem append (h : Walk S t files t₁) (h' : Walk S t₁ files' t') : Walk S t (files ++ files') t' := by
  induction h with
  | nil t => exact h'
  | met hmet _ ih => exact .met hmet (ih h')
  | unread hnew hfile _ ih => exact .unread hnew hfile (ih h')
  | enter hnew hfile down _ _ ih => exact .enter hnew hfile down (ih h')

/-! ## What is met -/

theorem seen_suffix (h : Walk S t files t') : t.seen <:+ t'.seen := by
  induction h with
  | nil t => exact List.suffix_refl _
  | met _ _ ih => exact ih
  | unread _ _ _ ih => exact (List.suffix_cons _ _).trans ih
  | enter _ _ _ _ ihdown ih => exact ((List.suffix_cons _ _).trans ihdown).trans ih

theorem listed_prefix (h : Walk S t files t') : t.listed <+: t'.listed := by
  induction h with
  | nil t => exact List.prefix_refl _
  | met _ _ ih => exact ih
  | unread _ _ _ ih => exact ih
  | enter _ _ _ _ ihdown ih => exact ihdown.trans ((List.prefix_append _ _).trans ih)

theorem missing_prefix (h : Walk S t files t') : t.missing <+: t'.missing := by
  induction h with
  | nil t => exact List.prefix_refl _
  | met _ _ ih => exact ih
  | unread _ _ _ ih => exact (List.prefix_append _ _).trans ih
  | enter _ _ _ _ ihdown ih => exact ihdown.trans ih

theorem met_subset (h : Walk S t files t') : t.met ⊆ t'.met := by
  intro name hname
  obtain ⟨file, hfile, rfl⟩ := List.mem_map.mp hname
  exact List.mem_map_of_mem (h.seen_suffix.subset hfile)

/-- A walk accounts for every file that it meets. -/
theorem accounts (h : Walk S t files t') (hacc : t.Accounts opened) : t'.Accounts opened := by
  induction h generalizing opened with
  | nil t => exact hacc
  | met _ _ ih => exact ih hacc
  | unread hnew _ _ ih => exact ih (hacc.miss hnew)
  | enter hnew _ _ _ ihdown ih => exact ih (ihdown (hacc.enter hnew)).list

/-- All that a walk goes over is met. -/
theorem mem_met (h : Walk S t files t') : ∀ file ∈ files, Text.lower file ∈ t'.met := by
  induction h with
  | nil t => exact fun _ hfile => absurd hfile List.not_mem_nil
  | met hmet rest ih =>
    intro f hf
    rcases List.mem_cons.mp hf with rfl | hf
    · exact rest.met_subset hmet
    · exact ih f hf
  | unread _ _ rest ih =>
    intro f hf
    rcases List.mem_cons.mp hf with rfl | hf
    · exact rest.met_subset List.mem_cons_self
    · exact ih f hf
  | enter _ _ down rest _ ih =>
    intro f hf
    rcases List.mem_cons.mp hf with rfl | hf
    · exact rest.met_subset (down.met_subset List.mem_cons_self)
    · exact ih f hf

/-- A file that is listed can be read, and its imports are met. -/
theorem of_mem_listed (h : Walk S t files t') {file : String} (hfile : file ∈ t'.listed)
    (hnew : file ∉ t.listed) : ∃ deps, S.imports file deps ∧ ∀ dep ∈ deps, Text.lower dep ∈ t'.met := by
  induction h with
  | nil t => exact absurd hfile hnew
  | met _ _ ih => exact ih hfile hnew
  | unread _ _ _ ih => exact ih hfile hnew
  | @enter t t₁ t' entered _ deps _ himports down rest ihdown ih =>
    by_cases hbelow : file ∈ t₁.listed
    · obtain ⟨ds, hds, hmet⟩ := ihdown hbelow hnew
      exact ⟨ds, hds, fun dep hdep => rest.met_subset (hmet dep hdep)⟩
    · by_cases hself : file = entered
      · rw [hself]
        exact ⟨deps, himports, fun dep hdep => rest.met_subset (down.mem_met dep hdep)⟩
      · refine ih hfile fun hmem => ?_
        rcases List.mem_append.mp hmem with hmem | hmem
        · exact hbelow hmem
        · exact hself (List.mem_singleton.mp hmem)

/-- A file that is noted cannot be read. -/
theorem of_mem_missing (h : Walk S t files t') {file : String} (hfile : file ∈ t'.missing)
    (hnew : file ∉ t.missing) : S.unread file := by
  induction h with
  | nil t => exact absurd hfile hnew
  | met _ _ ih => exact ih hfile hnew
  | @unread t t' noted _ _ hunread _ ih =>
    by_cases hself : file = noted
    · rw [hself]
      exact hunread
    · refine ih hfile fun hmem => ?_
      rcases List.mem_append.mp hmem with hmem | hmem
      · exact hnew hmem
      · exact hself (List.mem_singleton.mp hmem)
  | @enter t t₁ t' _ _ _ _ _ _ _ ihdown ih =>
    by_cases hbelow : file ∈ t₁.missing
    · exact ihdown hbelow hnew
    · exact ih hfile hbelow

/-! ## What is reached -/

/-- What is met is reached from a file that the walk goes over. -/
theorem reached (h : Walk S t files t') (hlisted : t'.listed ⊆ listed) {name : String}
    (hname : name ∈ t'.met) : name ∈ t.met ∨
      ∃ file ∈ files, ReflTransGen (S.Follows listed) (Text.lower file) name := by
  induction h generalizing name with
  | nil t => exact .inl hname
  | met _ _ ih =>
    exact (ih hlisted hname).imp_right fun ⟨f, hf, h⟩ => ⟨f, List.mem_cons_of_mem _ hf, h⟩
  | unread _ _ _ ih =>
    rcases ih hlisted hname with hmet | ⟨f, hf, h⟩
    · rcases List.mem_cons.mp hmet with rfl | hmet
      · exact .inr ⟨_, List.mem_cons_self, .refl⟩
      · exact .inl hmet
    · exact .inr ⟨f, List.mem_cons_of_mem _ hf, h⟩
  | @enter t t₁ t' entered _ deps _ himports _ rest ihdown ih =>
    have hin : (t₁.list entered).listed ⊆ listed :=
      List.Subset.trans rest.listed_prefix.subset hlisted
    rcases ih hlisted hname with hmet | ⟨f, hf, h⟩
    · rcases ihdown (fun _ hf => hin (List.mem_append_left _ hf)) hmet with hmet | ⟨dep, hdep, h⟩
      · rcases List.mem_cons.mp hmet with rfl | hmet
        · exact .inr ⟨entered, List.mem_cons_self, .refl⟩
        · exact .inl hmet
      · have hself : entered ∈ listed := hin (List.mem_append_right _ List.mem_cons_self)
        exact .inr ⟨entered, List.mem_cons_self,
          h.head ⟨entered, hself, deps, himports, dep, hdep, rfl, rfl⟩⟩
    · exact .inr ⟨f, List.mem_cons_of_mem _ hf, h⟩

/-- A walk from the start meets what is reached from the files that it goes over. -/
theorem mem_met_iff (h : Walk S .start files t') {name : String} : name ∈ t'.met ↔
    ∃ file ∈ files, ReflTransGen (S.Follows t'.listed) (Text.lower file) name := by
  constructor
  · intro hname
    exact (h.reached (fun _ hf => hf) hname).resolve_left List.not_mem_nil
  · rintro ⟨file, hfile, hpath⟩
    induction hpath with
    | refl => exact h.mem_met file hfile
    | tail _ hlast _ =>
      obtain ⟨f, hf, deps, hdeps, dep, hdep, -, rfl⟩ := hlast
      obtain ⟨deps', hdeps', hmet⟩ := h.of_mem_listed hf List.not_mem_nil
      rw [S.imports_unique hdeps hdeps'] at hdep
      exact hmet dep hdep

/-! ## The order -/

/-- The imports of a file are listed before it, could not be read, or lead back to it. -/
def Settles (S : Sources) (listed before missing : List String) (file : String) : Prop :=
  ∀ deps, S.imports file deps → ∀ dep ∈ deps, Text.lower dep ∈ before.map Text.lower ∨
    Text.lower dep ∈ missing.map Text.lower ∨
      ReflTransGen (S.Follows listed) (Text.lower dep) (Text.lower file)

/-- What a walk lists settles its imports, where every file that was entered before leads to all that the
walk goes over. -/
theorem settles (h : Walk S t files t') (hacc : t.Accounts opened) (hlisted : t'.listed ⊆ listed)
    (hopened : ∀ f ∈ opened, ∀ file ∈ files,
      ReflTransGen (S.Follows listed) (Text.lower f) (Text.lower file)) {before : List String} {file : String}
    (hfile : before ++ [file] <+: t'.listed) (hnew : t.listed.length ≤ before.length) :
    Settles S listed before t'.missing file := by
  induction h generalizing opened with
  | nil t =>
    have hlen := hfile.length_le
    rw [List.length_append, List.length_singleton] at hlen
    omega
  | met _ _ ih =>
    exact ih hacc hlisted (fun n hn f hf => hopened n hn f (List.mem_cons_of_mem _ hf)) hfile hnew
  | unread hunmet _ _ ih =>
    exact ih (hacc.miss hunmet) hlisted (fun n hn f hf => hopened n hn f (List.mem_cons_of_mem _ hf))
      hfile hnew
  | @enter t t₁ t' entered _ deps hunmet himports down rest ihdown ih =>
    have hin : (t₁.list entered).listed ⊆ listed :=
      List.Subset.trans rest.listed_prefix.subset hlisted
    have hself : entered ∈ listed := hin (List.mem_append_right _ List.mem_cons_self)
    have hdown : ∀ dep ∈ deps, S.Follows listed (Text.lower entered) (Text.lower dep) :=
      fun dep hdep => ⟨entered, hself, deps, himports, dep, hdep, rfl, rfl⟩
    have hacc₁ := down.accounts (hacc.enter hunmet)
    rcases Nat.lt_trichotomy before.length t₁.listed.length with hlt | heq | hgt
    · -- the file is listed on the way down: each file that is open leads to the one that is entered
      have hbelow : before ++ [file] <+: t₁.listed := by
        refine List.prefix_of_prefix_length_le hfile
          ((List.prefix_append _ _).trans rest.listed_prefix) ?_
        rw [List.length_append, List.length_singleton]
        exact hlt
      have hsettled := ihdown (hacc.enter hunmet) (fun _ hf => hin (List.mem_append_left _ hf))
        (fun n hn dep hdep => by
          rcases List.mem_cons.mp hn with rfl | hn
          · exact .single (hdown dep hdep)
          · exact (hopened n hn entered List.mem_cons_self).tail (hdown dep hdep)) hbelow hnew
      intro ds hds dep hdep
      refine (hsettled ds hds dep hdep).imp_right (Or.imp_left fun hm => ?_)
      exact (rest.missing_prefix.map Text.lower).subset hm
    · -- the file is the one that was entered: its imports were met on the way down
      have hsame : before ++ [file] = t₁.listed ++ [entered] := by
        refine (List.prefix_of_prefix_length_le hfile rest.listed_prefix ?_).eq_of_length ?_
        · exact Nat.le_of_eq (by simp [Tour.list, heq])
        · simp [Tour.list, heq]
      obtain ⟨rfl, hcons⟩ := List.append_inj hsame heq
      obtain rfl := List.singleton_inj.mp hcons
      intro ds hds dep hdep
      rw [S.imports_unique hds himports] at hdep
      rcases hacc₁.mem_met.mp (down.mem_met dep hdep) with hbefore | hmissing | hopen
      · exact .inl hbefore
      · exact .inr (.inl ((rest.missing_prefix.map Text.lower).subset hmissing))
      · obtain ⟨f, hf, hlower⟩ := List.mem_map.mp hopen
        rw [← hlower]
        rcases List.mem_cons.mp hf with rfl | hf
        · exact .inr (.inr .refl)
        · exact .inr (.inr (hopened f hf _ List.mem_cons_self))
    · refine ih hacc₁.list hlisted (fun n hn f hf => hopened n hn f (List.mem_cons_of_mem _ hf)) hfile ?_
      simp only [Tour.list, List.length_append, List.length_singleton]
      omega

/-- In what a walk from the start lists, a file comes behind every listed file that it imports, unless
that one leads back to it. -/
theorem ordered (h : Walk S .start files t') {before after deps : List String} {file dep other : String}
    (hfile : t'.listed = before ++ file :: after) (hdeps : S.imports file deps) (hdep : dep ∈ deps)
    (hother : other ∈ t'.listed) (hsame : Text.lower other = Text.lower dep)
    (hback : ¬ReflTransGen (S.Follows t'.listed) (Text.lower other) (Text.lower file)) :
    other ∈ before := by
  have hprefix : before ++ [file] <+: t'.listed :=
    ⟨after, by rw [hfile, List.append_assoc, List.singleton_append]⟩
  have hnodup := (h.accounts Tour.accounts_start).nodup
  rw [List.map_append, List.nodup_append] at hnodup
  obtain ⟨hlisted, -, hapart⟩ := hnodup
  rcases h.settles Tour.accounts_start (fun _ hf => hf) (fun _ hn => absurd hn List.not_mem_nil) hprefix
    (Nat.zero_le _) deps hdeps dep hdep with hbefore | hmissing | hpath
  · obtain ⟨f, hf, hlower⟩ := List.mem_map.mp hbefore
    have hf' : f ∈ t'.listed := hprefix.subset (List.mem_append_left _ hf)
    rw [← List.inj_on_of_nodup_map hlisted hf' hother (hlower.trans hsame.symm)]
    exact hf
  · exact absurd hsame (hapart _ (List.mem_map_of_mem hother) _ hmissing)
  · rw [← hsame] at hpath
    exact absurd hpath hback

end Walk

end Bundler

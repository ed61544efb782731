/-
The graph of imports in two caches.

What a file leads to is a matter of what is recorded of the files that it leads to. So two caches that
find the same entries and have the same imports recorded for everything that a file leads to in one of
them agree on what it leads to (`Cache.Agree`), each on its own disk: whatever else has changed, the
same files are reached, and a circle is reached in both or in none.
-/
import Bundler.Proofs.Entries

set_option autoImplicit false

namespace Bundler.Cache

variable {dir : String} {disk disk' : Disk} {c c' : Cache} {i j k : Nat}

/-- Two caches on their disks have the same imports for everything that an entry leads to. -/
structure Agree (dir : String) (disk disk' : Disk) (c c' : Cache) (i : Nat) : Prop where
  known : c.ImportsKnown dir
  found : ∀ name k, c.find? dir name = some k → c'.find? dir name = some k
  longer : c.entries.length ≤ c'.entries.length
  imports : ∀ j, j < c.entries.length → c.Reaches disk dir i j →
    (c'.entry j).imports disk' = (c.entry j).imports disk

/-- An import in the second cache is one in the first. -/
private theorem Agree.imports_of_imports (h : Agree dir disk disk' c c' i)
    (hj : j < c.entries.length) (hij : c.Reaches disk dir i j) (hjk : c'.Imports disk' dir j k) :
    c.Imports disk dir j k := by
  obtain ⟨-, name, hname, hfind⟩ := hjk
  rw [h.imports j hj hij] at hname
  obtain ⟨refs, hrefs, hmem⟩ := mem_files_of_mem_imports hname
  obtain ⟨k', hk'⟩ := h.known j hj refs hrefs name hmem
  have hsame := h.found name k' hk'
  rw [hfind] at hsame
  exact ⟨hj, name, hname, by rw [hk', Option.some.inj hsame]⟩

/-- The same files are reached. -/
theorem Agree.reaches_iff (h : Agree dir disk disk' c c' i) (hi : i < c.entries.length) :
    c'.Reaches disk' dir i j ↔ c.Reaches disk dir i j := by
  constructor
  · intro hij
    induction hij with
    | refl => exact .refl
    | tail _ hjk ih => exact ih.tail (h.imports_of_imports (ih.lt_length hi) ih hjk)
  · intro hij
    induction hij with
    | refl => exact .refl
    | @tail j k hij hjk ih =>
      obtain ⟨hj, name, hname, hfind⟩ := hjk
      rw [← h.imports j hj hij] at hname
      exact ih.tail ⟨Nat.lt_of_lt_of_le hj h.longer, name, hname, h.found name k hfind⟩

/-- What is reached leads to the same files, too. -/
theorem Agree.of_reaches (h : Agree dir disk disk' c c' i) (hij : c.Reaches disk dir i j) :
    Agree dir disk disk' c c' j where
  known := h.known
  found := h.found
  longer := h.longer
  imports k hk hjk := h.imports k hk (hij.trans hjk)

/-- A circle that is reached in the first cache is one in the second. -/
theorem Agree.uncircled (h : Agree dir disk disk' c c' i) (hi : i < c.entries.length)
    (hcirc : c'.Uncircled disk' dir i) : c.Uncircled disk dir i := by
  intro j hij hcycle
  refine hcirc j ((h.reaches_iff hi).mpr hij) ?_
  obtain ⟨k, hjk, hkj⟩ := (Relation.TransGen.head'_iff).mp hcycle
  have hj := hij.lt_length hi
  have hkj' := ((h.of_reaches (hij.tail hjk)).reaches_iff hjk.lt_length).mpr hkj
  obtain ⟨-, name, hname, hfind⟩ := hjk
  rw [← h.imports j hj hij] at hname
  exact .head' ⟨Nat.lt_of_lt_of_le hj h.longer, name, hname, h.found name k hfind⟩ hkj'

/-- Caches agree where one has become the other and imports were kept. -/
theorem Agree.of_advances {P : Entry → Entry → Prop} (hknown : c.ImportsKnown dir)
    (h : Advances dir P c c')
    (hP : ∀ e e', P e e' → e'.fullName = e.fullName ∧ e'.infoTime = e.infoTime ∧
      e'.references = e.references) : Agree dir disk disk c c' i where
  known := hknown
  found _ _ hfind := h.find? hfind
  longer := h.longer
  imports j hj _ := by
    obtain ⟨hname, hinfo, hrefs⟩ := hP _ _ (h.old j hj)
    exact Entry.imports_congr (congrArg _ hname) hinfo hrefs

end Bundler.Cache

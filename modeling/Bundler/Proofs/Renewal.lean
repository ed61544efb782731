/-
What a pass finds when one file has become newer.

Two caches on their disks agree but for one file, which is newer in the second than every output stamp
in the first, and which imports there what it imported before, or less, since what was recorded of it
may not have been read again yet (`Cache.Renewed`). For a file that was covered and reaches no circle
the passes over the second cache come to one answer, whatever stage of the work they belong to: the
file is current exactly if it does not lead to the one that has become newer
(`Cache.Renewed.isOutputCurrent_iff`).

If it does not lead there, nothing that it leads to has changed, so it is covered still. If it does, the
way there is the same as before up to that file, and the newest time that is reached is later than the
stamp.
-/
import Bundler.Proofs.Graph

set_option autoImplicit false

namespace Bundler.Cache

variable {dir : String} {disk disk' : Disk} {b c c' : Cache} {i j k : Nat} {ignore : Bool}

/-- The second cache has a newer file than the first one; apart from that they agree on what an entry
leads to. -/
structure Renewed (dir : String) (disk disk' : Disk) (c c' : Cache) (k i : Nat) : Prop where
  known : c.ImportsKnown dir
  found : ∀ name j, c.find? dir name = some j → c'.find? dir name = some j
  longer : c.entries.length ≤ c'.entries.length
  imports : ∀ j, c.Reaches disk dir i j → j ≠ k →
    (c'.entry j).imports disk' = (c.entry j).imports disk
  fewer : ∀ name ∈ (c'.entry k).imports disk', name ∈ (c.entry k).imports disk
  times : ∀ j, j < c.entries.length → j ≠ k → c'.timeOf disk' j = c.timeOf disk j
  newer : ∃ t, c'.timeOf disk' k = some t ∧
    ∀ j, j < c.entries.length → ∀ T, (c.entry j).outputTime = .at T → T < t
  outputs : ∀ j, j < c.entries.length → (c'.entry j).outputTime = (c.entry j).outputTime

namespace Renewed

/-- An import in the second cache is one in the first. -/
private theorem imports_of_imports (h : Renewed dir disk disk' c c' k i) (hj : j < c.entries.length)
    (hij : c.Reaches disk dir i j) {l : Nat} (hjl : c'.Imports disk' dir j l) :
    c.Imports disk dir j l := by
  obtain ⟨-, name, hname, hfind⟩ := hjl
  have hold : name ∈ (c.entry j).imports disk := by
    by_cases hjk : j = k
    · rw [hjk] at hname ⊢
      exact h.fewer name hname
    · rw [← h.imports j hij hjk]
      exact hname
  obtain ⟨refs, hrefs, hmem⟩ := mem_files_of_mem_imports hold
  obtain ⟨l', hl'⟩ := h.known j hj refs hrefs name hmem
  have hsame := h.found name l' hl'
  rw [hfind] at hsame
  exact ⟨hj, name, hold, by rw [hl', Option.some.inj hsame]⟩

/-- What is reached in the second cache was reached before. -/
theorem reaches (h : Renewed dir disk disk' c c' k i) (hi : i < c.entries.length)
    (hij : c'.Reaches disk' dir i j) : c.Reaches disk dir i j := by
  induction hij with
  | refl => exact .refl
  | tail _ hjl ih => exact ih.tail (h.imports_of_imports (ih.lt_length hi) ih hjl)

/-- No circle has come to what is reached. -/
theorem uncircled (h : Renewed dir disk disk' c c' k i) (hi : i < c.entries.length)
    (hcirc : c.Uncircled disk dir i) : c'.Uncircled disk' dir i := by
  intro j hij hcycle
  have hij' := h.reaches hi hij
  have hold : ∀ l, Relation.TransGen (c'.Imports disk' dir) j l →
      Relation.TransGen (c.Imports disk dir) j l := by
    intro l hjl
    induction hjl with
    | single hone => exact .single (h.imports_of_imports (hij'.lt_length hi) hij' hone)
    | tail _ hone ih =>
      have hreach : c.Reaches disk dir i _ := hij'.trans ih.to_reflTransGen
      exact ih.tail (h.imports_of_imports (hreach.lt_length hi) hreach hone)
  exact hcirc j hij' (hold j hcycle)

/-- What was reached before is reached, or the newer file is. -/
private theorem reaches_or (h : Renewed dir disk disk' c c' k i)
    (hij : c.Reaches disk dir i j) : c'.Reaches disk' dir i j ∨ c'.Reaches disk' dir i k := by
  induction hij with
  | refl => exact .inl .refl
  | @tail j l hij hjl ih =>
    rcases ih with ih | ih
    · by_cases hjk : j = k
      · exact .inr (hjk ▸ ih)
      · obtain ⟨hj, name, hname, hfind⟩ := hjl
        rw [← h.imports j hij hjk] at hname
        exact .inl (ih.tail ⟨Nat.lt_of_lt_of_le hj h.longer, name, hname, h.found name l hfind⟩)
    · exact .inr ih

/-- The newer file is reached if it was before. -/
theorem reaches_newer (h : Renewed dir disk disk' c c' k i)
    (hik : c.Reaches disk dir i k) : c'.Reaches disk' dir i k := (h.reaches_or hik).elim id id

/-- A covered file that does not lead to the newer one is covered still. -/
theorem covered (h : Renewed dir disk disk' c c' k i) (hi : i < c.entries.length)
    (hik : ¬ c.Reaches disk dir i k) (hcov : c.Covered disk dir i) : c'.Covered disk' dir i := by
  obtain ⟨T, hT, hall⟩ := hcov
  refine ⟨T, (h.outputs i hi).trans hT, fun j hij => ?_⟩
  have hij' := h.reaches hi hij
  have hj := hij'.lt_length hi
  have hjk : j ≠ k := by
    rintro rfl
    exact hik hij'
  obtain ⟨⟨t, ht, hle⟩, hset⟩ := hall j hij'
  rw [h.outputs j hj]
  exact ⟨⟨t, (h.times j hj hjk).trans ht, hle⟩, hset⟩

/-- A pass over the second cache finds a file current exactly if it does not lead to the newer one. -/
theorem isOutputCurrent_iff (h : Renewed dir disk disk' c b k i) (hi : i < c.entries.length)
    (hcov : c.Covered disk dir i) (hcirc : c.Uncircled disk dir i)
    (hmarked : Marked disk' dir ignore b c') (hset : c'.mark i ≠ .unset) :
    (c'.entry i).isOutputCurrent = true ↔ ¬ c.Reaches disk dir i k := by
  have hi' : i < b.entries.length := Nat.lt_of_lt_of_le hi h.longer
  constructor
  · intro hcurrent hik
    obtain ⟨v, T, hv, hT, hle⟩ := (hmarked.isOutputCurrent_iff hi').mp hcurrent
    obtain ⟨t, ht, hlater⟩ := h.newer
    obtain ⟨-, hnewest⟩ := hmarked.isNewest (h.uncircled hi hcirc) hv
    obtain ⟨t', ht', hle'⟩ := hnewest k (h.reaches_newer hik)
    rw [ht] at ht'
    have hlt := hlater i hi T ((h.outputs i hi).symm.trans hT)
    have hsame := Option.some.inj ht'
    omega
  · exact fun hik => hmarked.isOutputCurrent_of_covered hi' hset (h.covered hi hik hcov)

end Renewed

end Bundler.Cache

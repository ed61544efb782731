/-
Which style sheets a page links.

A page links the outputs of the style sheets among the assets, or, where the build is merged, the one
style sheet that they are put together to. `Project.Links` says this of a name that is linked. The links
are noted while the assets are processed, and more assets are found then, so the law `linking` has to
say that an asset that is linked keeps its output: the references of a style sheet of its own become
assets only where they were none, and in a merged build the outputs of the parts are no links.
-/
import Bundler.Proofs.Mentions

set_option autoImplicit false

namespace Bundler

open Workspace Step

/-- A name that is linked: the one style sheet of a merged build, if a style sheet is among the assets,
or else the output of a style sheet among the assets. -/
def Project.Links (p : Project) (css : String) : Prop :=
  ∃ sheet ∈ p.depAssets.keys, Path.isCss sheet = .ok true ∧
    ((p.config.bundle = .merged ∧ ∃ names : ShortNames, css = (names.shorten "bundle.css").1) ∨
      (p.config.bundle ≠ .merged ∧ p.depAssets.get? sheet = some css))

/-- A change of a project that links only what is among the assets. -/
structure Project.Linking (p p' : Project) : Prop where
  config : p'.config = p.config
  kept : ∀ name ∈ p.depAssets.keys, name ∈ p'.depAssets.keys
  outputs : p.config.bundle ≠ .merged →
    ∀ name output, p.depAssets.get? name = some output → p'.depAssets.get? name = some output
  links : ∀ css ∈ p'.cssToLink, css ∈ p.cssToLink ∨ p'.Links css

namespace Project

variable {p q r : Project} {css : String}

/-- What is linked stays linked. -/
theorem Linking.links_mono (h : p.Linking q) (hcss : p.Links css) : q.Links css := by
  obtain ⟨sheet, hsheet, hisCss, hlinked⟩ := hcss
  refine ⟨sheet, h.kept sheet hsheet, hisCss, ?_⟩
  rw [h.config]
  rcases hlinked with hmerged | ⟨hmerged, houtput⟩
  · exact .inl hmerged
  · exact .inr ⟨hmerged, h.outputs hmerged sheet css houtput⟩

theorem Linking.trans (h : p.Linking q) (h' : q.Linking r) : p.Linking r where
  config := h'.config.trans h.config
  kept name hname := h'.kept name (h.kept name hname)
  outputs hmerged name output houtput :=
    h'.outputs (by rw [h.config]; exact hmerged) name output (h.outputs hmerged name output houtput)
  links css hcss := by
    rcases h'.links css hcss with hold | hnew
    · exact (h.links css hold).imp_right h'.links_mono
    · exact .inr hnew

/-- A change that leaves the assets and the links alone. -/
theorem Linking.of_eq (hconfig : q.config = p.config) (hassets : q.depAssets = p.depAssets)
    (hcss : ∀ css ∈ q.cssToLink, css ∈ p.cssToLink) : p.Linking q where
  config := hconfig
  kept name hname := by rwa [hassets]
  outputs _ name output houtput := by rwa [hassets]
  links css h := .inl (hcss css h)

end Project

/-- Something is found under a key. -/
theorem OrderedMap.get?_of_mem_keys {α β : Type} [DecidableEq α] {m : OrderedMap α β} {k : α}
    (h : k ∈ m.keys) : ∃ v, m.get? k = some v := by
  obtain ⟨e, he, rfl⟩ := List.mem_map.mp h
  have hfound : (m.toList.find? fun e' => e'.1 = e.1).isSome = true :=
    List.find?_isSome.mpr ⟨e, he, by simp⟩
  obtain ⟨e', he'⟩ := Option.isSome_iff_exists.mp hfound
  exact ⟨e'.2, Option.map_eq_some_iff.mpr ⟨e', he', rfl⟩⟩

/-- What is found in a map is found when something new was inserted. -/
theorem OrderedMap.get?_insertNew {α β : Type} [DecidableEq α] {m : OrderedMap α β} (k : α) (v : β) {a : α}
    {b : β} (h : m.get? a = some b) : (m.insertNew k v).get? a = some b := by
  unfold OrderedMap.insertNew
  split
  · exact h
  · rename_i hnew
    rw [OrderedMap.get?_insert, if_neg ?_]
    · exact h
    · rintro rfl
      refine hnew (List.any_eq_true.mpr ⟨_, OrderedMap.mem_of_get? h, ?_⟩)
      simp

namespace Assembly

variable {α : Type} {w w' : Workspace}

private theorem delivering_anyBuild : Bundler.Delivering Session.anyBuild.law fun _ => True :=
  Frame.delivering_builds

private theorem looking_anyBuild : Looking Session.anyBuild.law := Frame.looking_builds

end Assembly

namespace Session

variable {program : List String} {s t : Session}

end Session

end Bundler

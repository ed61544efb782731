/-
The sources of a fast bundle.

The composite map of a fast bundle lists the sources of its modules, and each under its resolved name,
with the source root of the module's own map in front. Scripts that are assets and the lines around the
modules bring no sources. The source root of the bundle is set on the composite map as well, so a reader
of that map puts it in front of names that were resolved before (`Bundle.fast_sources`). With a root that
is set for all scripts of a project, that is once more than in the map of the module.

What the steps of the work do to the list of sources is told for a builder before and after them
(`SourceMap.Builder.Lists`): some sources come to it, each is listed once, and the root stays as it is.
-/
import Bundler.Bundle.Fast
import Bundler.Proofs.Stitching

set_option autoImplicit false

namespace Bundler

namespace SourceMap

/-- A name with a source root in front, when there is one. -/
def rooted (root : Option String) (name : String) : String :=
  match root with
  | some root => if root.isEmpty then name else Text.trimSlashes root ++ "/" ++ name
  | none => name

theorem resolvedSource?_eq (m : SourceMap) (i : Nat) :
    m.resolvedSource? i = m.sources[i]?.map (rooted m.sourceRoot) := rfl

/-- The resolved names are the listed ones with the root in front. -/
theorem resolvedSources_eq (m : SourceMap) :
    m.resolvedSources = m.sources.map (rooted m.sourceRoot) := by
  unfold resolvedSources
  apply List.ext_getElem?
  intro i
  have hall : ∀ k ∈ List.range m.sources.length,
      m.resolvedSource? k = some (rooted m.sourceRoot (m.sources.getD k "")) := by
    intro k hk
    rw [resolvedSource?_eq, List.getD_eq_getElem?_getD,
      List.getElem?_eq_getElem (List.mem_range.mp hk)]
    rfl
  rw [List.filterMap_congr hall, List.filterMap_eq_map', List.getElem?_map, List.getElem?_map]
  by_cases hi : i < m.sources.length
  · rw [List.getElem?_range hi, List.getElem?_eq_getElem hi, Option.map_some, Option.map_some,
      List.getD_eq_getElem?_getD, List.getElem?_eq_getElem hi, Option.getD_some]
  · rw [List.getElem?_eq_none (by simpa using hi), List.getElem?_eq_none (by simpa using hi)]
    rfl

namespace Builder

/-- The sources of a list come to those of a builder, and the root stays. -/
structure Lists (b b' : Builder) (more : List String) : Prop where
  nodup : b.sources.Nodup → b'.sources.Nodup
  mem : ∀ s, s ∈ b'.sources ↔ s ∈ b.sources ∨ s ∈ more
  root : b'.sourceRoot = b.sourceRoot

variable {b b' b'' : Builder} {more more' : List String}

theorem Lists.of_eq (hsources : b'.sources = b.sources) (hroot : b'.sourceRoot = b.sourceRoot) :
    b.Lists b' [] where
  nodup h := hsources ▸ h
  mem s := by rw [hsources]; simp
  root := hroot

theorem Lists.trans (h : b.Lists b' more) (h' : b'.Lists b'' more') :
    b.Lists b'' (more ++ more') where
  nodup hb := h'.nodup (h.nodup hb)
  mem s := by rw [h'.mem, h.mem, List.mem_append, or_assoc]
  root := h'.root.trans h.root

theorem lists_addSource (b : Builder) (s : String) : b.Lists (b.addSource s).2 [s] where
  nodup := nodup_intern
  mem t := by
    rw [List.mem_singleton]
    exact mem_intern
  root := rfl

theorem lists_advance (b : Builder) (text : List Char) : b.Lists (b.advance text) [] := by
  rw [advance_eq]
  exact .of_eq rfl rfl

end Builder

namespace Concat

open Builder

theorem lists_listSources (m : SourceMap) (is : List Nat) : ∀ b : Builder,
    b.Lists (listSources m b is).2 (is.map fun i => (m.resolvedSource? i).getD "") := by
  induction is with
  | nil => exact fun b => .of_eq rfl rfl
  | cons i is ih =>
    intro b
    have hadd := lists_addSource b ((m.resolvedSource? i).getD "")
    rw [listSources, List.map_cons, ← List.singleton_append]
    rcases m.sourcesContent[i]? with _ | _ | text
    · exact hadd.trans (ih _)
    · exact hadd.trans (ih _)
    · have hcontent : ∀ (b : Builder) (j : Nat), b.Lists (b.setContent j text) [] :=
        fun _ _ => .of_eq rfl rfl
      exact hadd.trans ((hcontent _ _).trans (ih _))

theorem lists_addSegments (m : SourceMap) (indices : List Nat) (segments : List (Nat × Segment)) :
    ∀ b : Builder, b.Lists (addSegments m indices b segments).1 [] := by
  induction segments with
  | nil => exact fun b => .of_eq rfl rfl
  | cons s segments ih =>
    intro b
    have hone : b.Lists (addSegment m indices s.1 b s.2).1 [] := by
      unfold addSegment
      split
      · exact .of_eq rfl rfl
      · split
        · exact .of_eq rfl rfl
        · rename_i o _ _ source _
          obtain ⟨more, hname, -⟩ := b.addName_ok (o.name.bind fun n => m.names[n]?)
          simp only
          rw [hname]
          exact .of_eq rfl rfl
    rw [addSegments]
    split
    · rename_i b' hadd
      rw [hadd] at hone
      exact hone.trans (ih b')
    · rename_i b' e hadd
      rw [hadd] at hone
      exact hone

theorem lists_addMap {b b' : Builder} {m : SourceMap} (h : addMap b m = (b', .ok ())) :
    b.Lists b' m.resolvedSources := by
  unfold addMap at h
  split at h
  · exact absurd (congrArg Prod.snd h) (by simp)
  · rename_i lines _
    have hresolved : m.resolvedSources
        = (List.range m.sources.length).map fun i => (m.resolvedSource? i).getD "" := by
      unfold resolvedSources
      rw [← List.filterMap_eq_map]
      refine List.filterMap_congr fun i hi => ?_
      obtain ⟨s, hs⟩ := isSome_resolvedSource? (List.mem_range.mp hi)
      rw [Function.comp_apply, hs, Option.getD_some]
    have hlist := lists_listSources m (List.range m.sources.length) b
    obtain rfl := congrArg Prod.fst h
    rw [hresolved, ← List.append_nil (List.map _ _)]
    exact hlist.trans (lists_addSegments m _ _ _)

theorem lists_push (c : Concat) (text : List Char) : c.builder.Lists (c.push text).builder [] :=
  lists_advance c.builder _

theorem lists_addSource {c c' : Concat} {text : String} {m : Option SourceMap}
    (h : c.addSource text m = (c', .ok ())) :
    c.builder.Lists c'.builder (m.elim [] resolvedSources) := by
  unfold addSource at h
  cases m with
  | none =>
    obtain rfl := congrArg Prod.fst h
    exact lists_push c _
  | some m =>
    cases hadd : addMap c.builder m with
    | mk b r =>
      simp only [hadd] at h
      cases r with
      | error e => exact absurd (congrArg Prod.snd h) (by simp)
      | ok u =>
        obtain rfl := congrArg Prod.fst h
        rw [Option.elim_some, ← List.append_nil m.resolvedSources]
        exact (lists_addMap hadd).trans (lists_push { c with builder := b } _)

end Concat

end SourceMap

namespace Bundle

open SourceMap

/-- The sources of a module under their resolved names. -/
def sourcesOf (m : Module) : List String := m.sourceMap.elim [] resolvedSources

theorem lists_addSources (texts : List (String × Option SourceMap)) :
    ∀ {c c' : Concat}, addSources c texts = .ok c' →
      c.builder.Lists c'.builder (texts.flatMap fun t => t.2.elim [] resolvedSources) := by
  induction texts with
  | nil =>
    intro c c' h
    obtain rfl := Except.ok.inj h
    exact .of_eq rfl rfl
  | cons t texts ih =>
    intro c c' h
    rw [addSources] at h
    split at h
    · rename_i c₁ hadd
      rw [List.flatMap_cons]
      exact (Concat.lists_addSource hadd).trans (ih h)
    · exact nomatch h

/-- A module brings the sources of its map. -/
theorem lists_addModule {c c' : Concat} {m : Module} (h : addModule c m = .ok c') :
    c.builder.Lists c'.builder (sourcesOf m) := by
  unfold addModule at h
  cases hadd : addSources (c.addLine (moduleHead ("'" ++ m.id ++ "'"))) [(m.js, m.sourceMap)] with
  | error e =>
    simp only [hadd, bind, Except.bind] at h
    exact nomatch h
  | ok c₁ =>
    simp only [hadd, bind, Except.bind] at h
    obtain rfl := Except.ok.inj h
    have hall := ((Concat.lists_push c _).trans (lists_addSources _ hadd)).trans
      (Concat.lists_push c₁ moduleEnd.toList)
    simpa [sourcesOf, Concat.addLine] using hall

theorem lists_modules (ms : List Module) :
    ∀ {c c' : Concat}, ms.foldlM addModule c = .ok c' →
      c.builder.Lists c'.builder (ms.flatMap sourcesOf) := by
  induction ms with
  | nil =>
    intro c c' h
    obtain rfl := Except.ok.inj h
    exact .of_eq rfl rfl
  | cons m ms ih =>
    intro c c' h
    rw [List.foldlM_cons] at h
    cases hadd : addModule c m with
    | error e =>
      rw [hadd] at h
      exact nomatch h
    | ok c₁ =>
      rw [hadd] at h
      rw [List.flatMap_cons]
      exact (lists_addModule hadd).trans (ih h)

theorem lists_addLines (lines : List String) :
    ∀ c : Concat, c.builder.Lists (lines.foldl Concat.addLine c).builder [] := by
  induction lines with
  | nil => exact fun c => .of_eq rfl rfl
  | cons line lines ih => exact fun c => (Concat.lists_push c _).trans (ih _)

/-- The map of a fast bundle lists the sources of its modules under their resolved names, each once,
and a reader of that map puts the root of the bundle in front of these names. -/
theorem fast_sources {modules : Modules} {entries : List String} {blobs : List Bytes}
    {bundleName mapName : String} {root : Option String} {bundle : FastBundle}
    (h : fast modules entries blobs bundleName mapName root = .ok bundle) :
    ∃ map : SourceMap, bundle.map = map.toJson ∧ map.sources.Nodup ∧
      (∀ s, s ∈ map.sources ↔ ∃ m ∈ modules.values, s ∈ sourcesOf m) ∧
      map.resolvedSources = map.sources.map (rooted root) := by
  unfold fast at h
  cases hblobs : addSources (Concat.empty.addLines loader)
      (blobs.map fun blob => (Text.ofBytes blob, none)) with
  | error e =>
    simp only [hblobs, bind, Except.bind] at h
    exact nomatch h
  | ok c₁ =>
    cases hmodules : modules.values.foldlM addModule c₁ with
    | error e =>
      simp only [hblobs, hmodules, bind, Except.bind] at h
      exact nomatch h
    | ok c₂ =>
      simp only [hblobs, hmodules, bind, Except.bind] at h
      obtain rfl := Except.ok.inj h
      -- all that comes to the sources is what the modules bring
      have hloader : Concat.empty.builder.Lists (Concat.empty.addLines loader).builder [] := by
        unfold Concat.addLines
        split
        · exact .of_eq rfl rfl
        · exact Concat.lists_push _ _
      have hassets : (Concat.empty.addLines loader).builder.Lists c₁.builder [] := by
        have hnone : (blobs.map fun blob => (Text.ofBytes blob, (none : Option SourceMap))).flatMap
            (fun t => t.2.elim [] resolvedSources) = [] := by
          refine List.flatMap_eq_nil_iff.mpr fun t ht => ?_
          obtain ⟨blob, -, rfl⟩ := List.mem_map.mp ht
          rfl
        exact hnone ▸ lists_addSources _ hblobs
      let starts := (entries.filter modules.contains).map start
      let c := (starts.foldl Concat.addLine c₂).addLine (urlComment ++ mapName)
      have hrest : c₂.builder.Lists c.builder [] :=
        (lists_addLines starts c₂).trans (Concat.lists_push _ _)
      have hall : Concat.empty.builder.Lists c.builder (modules.values.flatMap sourcesOf) := by
        simpa using ((hloader.trans hassets).trans (lists_modules _ hmodules)).trans hrest
      have hnodup : c.builder.sources.Nodup := hall.nodup List.nodup_nil
      have hmem : ∀ s, s ∈ c.builder.sources ↔ ∃ m ∈ modules.values, s ∈ sourcesOf m := by
        intro s
        rw [hall.mem, List.mem_flatMap]
        exact or_iff_right List.not_mem_nil
      have hfold : starts.foldl Concat.addLine c₂
          = (entries.filter modules.contains).foldl (fun c id => c.addLine (start id)) c₂ :=
        List.foldl_map
      cases root with
      | none =>
        refine ⟨(c.finish (some bundleName)).2, ?_, hnodup, hmem, ?_⟩
        · rw [← hfold]
        · rw [resolvedSources_eq]
          change c.builder.sources.map (rooted c.builder.sourceRoot) = c.builder.sources.map (rooted none)
          rw [hall.root]
          rfl
      | some root =>
        refine ⟨((c.setSourceRoot root).finish (some bundleName)).2, ?_, hnodup, hmem, ?_⟩
        · rw [← hfold]
        · exact resolvedSources_eq _

end Bundle

end Bundler

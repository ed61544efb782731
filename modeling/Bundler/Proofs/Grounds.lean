/-
What a program can be loaded from.

Loading a program, and the freshness passes, go from one file to those that it imports. For this the
imports that were recorded must have entries, and the entries must have the names by which files are
met. A session has both whatever it goes through, whatever settings its project is given and whatever
cycles do (`Session.Lived.grounded`): an import is recorded once it was found, and then it has an entry,
which is never taken away.

Whether scripts among the imports are noted to be taken over is another matter, as the project may be
exchanged for one that has nothing noted. When everything is built anew the times of all references are
forgotten, and with them what was noted. So a cycle that builds everything anew, and begins with no
file looked at, is ready to load (`Session.Lived.ready`).
-/
import Bundler.Proofs.Rereading

set_option autoImplicit false

namespace Bundler

open Workspace Step

namespace Workspace.Sourced

variable {w w' : Workspace}

/-- Where nothing is loaded, references stay as they are. -/
theorem of_builds (h : w.Sourced) (hm : (Frame.builds fun _ => False).Moves w w') : w'.Sourced :=
  h.of_advances hm.cache (fun e _ hchain =>
    Entry.chain_keeps (P := fun e' => e'.references = e.references)
      (fun _ _ hone he => hone.record.1.trans he) hchain rfl) hm.dir

private theorem law_of_builds (h : (Frame.builds fun _ => False).law.moves w w') :
    law.moves w w' :=
  ⟨h.1, h.2.1, h.2.2.1, fun hdest hw => hw.of_builds (Frame.moves_of_law h hdest)⟩

theorem delivering : Bundler.Delivering law fun _ => True :=
  Frame.delivering_builds.weaken law_of_builds (fun _ _ => trivial) (fun hm => hm.1) fun hm => hm.2.1

theorem placing : Placing law := fun w atlas => law_of_builds (Frame.placing_builds w atlas)

theorem walking : Bundler.Walking law :=
  have h := Frame.walking_builds (N := fun _ => False)
  ⟨fun w name => law_of_builds (h.get w name), fun w id => law_of_builds (h.look w id),
    fun w id f => law_of_builds (h.mark w id f), fun w => law_of_builds (h.unmark w)⟩

/-- References stay sourced in all that a cycle is made of. -/
theorem overall (mains : List String) : Overall law mains where
  loading s := (Session.obeys_loadProgram (loading fun _ => True) mains s).beneath
  walking := walking
  delivering := delivering
  placing := placing
  dropped _ _ := ⟨rfl, rfl, rfl, fun _ h => ⟨h.named, h.known⟩⟩

end Workspace.Sourced

namespace Session

variable {N : String → Prop} {s : Session}

/-- Passes leave a workspace ready. -/
theorem Ready.of_marks {w w' : Workspace} (h : Ready w) (hm : Frame.marks.Moves w w') : Ready w' where
  destination := hm.destination
  recorded := h.recorded.of_advances hm.cache (fun e e' hchain => by
    obtain ⟨hlasts, -⟩ := Entry.lasts_of_marking hchain
    exact ⟨hlasts.references, hlasts.infoTime⟩) hm.dir hm.project.depJs
  seen := by
    intro i hi
    rw [hm.disk]
    exact hm.cache.keeps (fun _ _ hone hseen => hone.lasts.seen hseen) (fun _ => .inl rfl) h.seen i hi
  named := by
    rw [hm.dir]
    exact hm.cache.named (fun e e' hchain => by
      obtain ⟨hlasts, -⟩ := Entry.lasts_of_marking hchain
      exact ⟨hlasts.fullName, hlasts.key⟩) h.named
  distinct := hm.cache.distinct h.distinct

/-- What a program can be loaded from, apart from what was seen of the files. -/
structure Grounded (s : Session) : Prop where
  sourced : s.toWorkspace.Sourced
  named : s.cache.Named s.project.dir

/-- Entries that keep their names and their references keep a session grounded. -/
theorem Grounded.of_cache {t : Session} (h : s.Grounded) {f : Entry → Entry}
    (hf : ∀ e, (f e).fullName = e.fullName ∧ (f e).key = e.key ∧ (f e).references = e.references)
    (hcache : t.cache = s.cache.mapEntries f) (hdir : t.project.dir = s.project.dir) :
    t.Grounded := by
  have hlen : t.cache.entries.length = s.cache.entries.length := by
    rw [hcache, Cache.length_mapEntries]
  have hentry : ∀ i, i < t.cache.entries.length → t.cache.entry i = f (s.cache.entry i) := by
    intro i hi
    rw [hcache, Cache.entry_mapEntries f (by omega)]
  have hkeys : t.cache.keys = s.cache.keys := by
    rw [hcache, Cache.keys_mapEntries fun e => (hf e).2.1]
  refine ⟨h.sourced.of_references (fun name j hj => ⟨j, ?_⟩) fun i hi refs hrefs => .inl ?_,
    fun i hi => ?_⟩
  · rw [hdir, Cache.find?_eq_keys, hkeys, ← Cache.find?_eq_keys]
    exact hj
  · rw [hentry i hi, (hf _).2.2] at hrefs
    exact ⟨by omega, hrefs⟩
  · rw [hentry i hi, (hf _).1, (hf _).2.1, hdir]
    exact h.named i (by omega)

theorem Grounded.clearProbes (h : s.Grounded) : s.clearProbes.Grounded :=
  h.of_cache (f := fun e => { e with current := .unset }) (fun _ => ⟨rfl, rfl, rfl⟩) rfl rfl

theorem Grounded.begun (h : s.Grounded) : s.begun.Grounded := by
  rcases begun_cache s with hcache | hcache
  · exact h.of_cache (f := id) (fun _ => ⟨rfl, rfl, rfl⟩)
      (by rw [hcache]; unfold Cache.mapEntries; rw [List.map_id]) (begun_dir s)
  · exact h.of_cache (f := fun e => { e with infoTime := .unset, outputTime := .unset })
      (fun _ => ⟨rfl, rfl, rfl⟩) hcache (begun_dir s)

/-- Whatever a session goes through, imports that were recorded have entries. -/
theorem Lived.grounded (h : Lived N s) : s.Grounded := by
  induction h with
  | start project _ =>
    exact ⟨⟨fun i hi => absurd hi (Nat.not_lt_zero i), fun i hi => absurd hi (Nat.not_lt_zero i)⟩,
      fun i hi => absurd hi (Nat.not_lt_zero i)⟩
  | change _ _ _ ih => exact ⟨⟨ih.sourced.named, ih.sourced.known⟩, ih.named⟩
  | @adjust s project _ hdir ih =>
    exact ih.of_cache (f := id) (fun _ => ⟨rfl, rfl, rfl⟩)
      (by unfold Cache.mapEntries; rw [List.map_id]) hdir
  | clear _ ih => exact ih.clearProbes
  | force _ ih => exact ⟨⟨ih.sourced.named, ih.sourced.known⟩, ih.named⟩
  | @cycle s hlived hmains hnames ih =>
    have hdest : s.begun.destination = none :=
      (begun_destination s).trans hlived.rereadable.destination
    have hsourced := (allows_compile (Sourced.overall s.begun.project.mains)).final
    have hm := builds_compile (N := N) hdest (fun main hmain => by
      rw [begun_mains] at hmain
      exact hmains main hmain) hnames
    refine ⟨hsourced.2.2.2 hdest ih.begun.sourced, ?_⟩
    rw [hm.dir]
    exact hm.cache.named (fun _ _ hchain => Entry.names_of_chain hchain) ih.begun.named

/-- A cycle that builds everything anew from where no file was looked at is ready to load. -/
theorem Lived.ready (h : Lived N s) (hforced : s.clearProbes.isForced = true) :
    Ready s.clearProbes.begun.toWorkspace := by
  have hbegun := h.grounded.clearProbes.begun
  have hcache := begun_cache_of_forced hforced
  have hclear : ∀ i, i < s.clearProbes.begun.cache.entries.length →
      (s.clearProbes.begun.cache.entry i).current = .unset ∧
        (s.clearProbes.begun.cache.entry i).infoTime = .unset := by
    intro i hi
    rw [hcache] at hi ⊢
    rw [Cache.length_forceRebuild] at hi
    rw [Cache.entry_forceRebuild hi]
    change i < s.cache.clearProbes.entries.length at hi
    rw [Cache.length_clearProbes] at hi
    refine ⟨?_, rfl⟩
    change (s.cache.clearProbes.entry i).current = .unset
    rw [Cache.entry_clearProbes hi]
  have hreread := h.rereadable.clearProbes.begun
  refine ⟨hreread.destination, ⟨hbegun.sourced.named, hbegun.sourced.known,
    fun i hi refs _ hset => ?_⟩, fun i hi => .inl (hclear i hi).1, hbegun.named, hreread.distinct⟩
  -- the times of all references are forgotten
  rw [(hclear i hi).2] at hset
  exact absurd hset (by simp [Stamp.isSet])

end Session

end Bundler

/-
The layout of the atlas, and when it is kept.

The sprites are sorted before they are placed, and the order leaves no choice: of two sprites one comes
first (`Atlas.eq_of_before`). So a layout depends on the sprites and their sizes and not on the order in
which they were found (`Atlas.arrange_perm`). It has each sprite whose image can be read, in the size that
was asked for or that the image has (`Atlas.sizes_arrange`).

An atlas keeps its last layout as long as the sprites asked for are the sprites of that layout. All it
looks at are the keys. Where the images have the sizes that they had then, the layout that is kept is the
one that would be made now (`Atlas.Laid.build_of_kept`), and so it is up to date behind each step that
builds it (`Session.atlas_upToDate`). An image that has got another size is not noticed.
-/
import Mathlib.Data.List.Perm.Subperm
import Bundler.Proofs.Stages

set_option autoImplicit false

namespace Bundler

open Step Workspace

/-! ## The order of sprites -/

namespace SpriteKey

instance : Std.TransCmp order :=
  inferInstanceAs (Std.TransCmp (compareLex (compareOn name) (compareLex (compareOn color)
    (compareLex (compareOn width) (compareLex (compareOn height)
      (compareLex (compareOn x) (compareOn y)))))))

theorem eq_of_order {a b : SpriteKey} (h : a.order b = .eq) : a = b := by
  unfold order at h
  simp only [Ordering.then_eq_eq, Std.LawfulEqCmp.compare_eq_iff_eq] at h
  obtain ⟨hname, hcolor, hwidth, hheight, hx, hy⟩ := h
  cases a
  cases b
  simp_all

end SpriteKey

namespace Atlas

/-- The comparison of sprites that the order of placing goes by. -/
private def placing (a b : Sized) : Ordering :=
  (compare b.height a.height).then <| (compare b.width a.width).then <| a.key.order b.key

private instance : Std.TransCmp placing := by
  have hkey : Std.TransCmp fun a b : Sized => a.key.order b.key :=
    { eq_swap := Std.OrientedCmp.eq_swap
      isLE_trans := Std.TransCmp.isLE_trans }
  exact inferInstanceAs (Std.TransCmp (compareLex (fun a b : Sized => compareOn Sized.height b a)
    (compareLex (fun a b : Sized => compareOn Sized.width b a) fun a b : Sized => a.key.order b.key)))

private theorem before_iff {a b : Sized} : before a b = true ↔ (placing a b).isLE = true := by
  change (placing a b != .gt) = true ↔ _
  cases placing a b <;> decide

theorem before_trans (a b c : Sized) (h : before a b = true) (h' : before b c = true) :
    before a c = true :=
  before_iff.mpr (Std.TransCmp.isLE_trans (before_iff.mp h) (before_iff.mp h'))

theorem before_total (a b : Sized) : (before a b || before b a) = true := by
  have hswap : placing b a = (placing a b).swap := Std.OrientedCmp.eq_swap
  rw [Bool.or_eq_true, before_iff, before_iff, hswap]
  cases placing a b <;> decide

/-- Of two sprites one comes first. -/
theorem eq_of_before {a b : Sized} (h : before a b = true) (h' : before b a = true) : a = b := by
  have hswap : placing b a = (placing a b).swap := Std.OrientedCmp.eq_swap
  rw [before_iff] at h h'
  rw [hswap] at h'
  have heq : placing a b = .eq := by
    cases hcmp : placing a b <;> simp_all
  unfold placing at heq
  simp only [Ordering.then_eq_eq, Std.LawfulEqCmp.compare_eq_iff_eq] at heq
  obtain ⟨hheight, hwidth, hkey⟩ := heq
  have hkey := SpriteKey.eq_of_order hkey
  cases a
  cases b
  simp_all

/-- The layout does not depend on the order in which sprites were found. -/
theorem arrange_perm {as bs : List Sized} (h : as.Perm bs) : arrange as = arrange bs := by
  have hsorted : as.mergeSort before = bs.mergeSort before :=
    (((List.mergeSort_perm as before).trans h).trans (List.mergeSort_perm bs before).symm).eq_of_pairwise
      (fun a b _ _ => eq_of_before) (List.pairwise_mergeSort before_trans before_total as)
      (List.pairwise_mergeSort before_trans before_total bs)
  unfold arrange
  rw [hsorted]

/-! ## The sprites of a layout -/

/-- The sprites of a layout with the sizes that they have there. -/
def sizes (placed : List (SpriteKey × Placement)) : List Sized :=
  placed.map fun s => ⟨s.1, s.2.width, s.2.height⟩

/-- Places a sprite at the end of a row that has room for it. -/
def placeAt (s : Sized) (row : Row) : Except Fault (Placement × Row) := do
  return (⟨row.x, row.y, s.width, s.height⟩,
    ⟨← sum row.x s.width, row.y, max row.height s.height⟩)

theorem place_eq (limit : Nat) (row : Row) (s : Sized) : place limit row s =
    (if 0 < row.x then (sum row.x s.width).map fun n => decide (limit < n) else .ok false) >>=
      fun ends =>
        (if ends then (sum row.y row.height).map fun y => ⟨0, y, 0⟩ else .ok row) >>= placeAt s := by
  unfold place
  by_cases hx : 0 < row.x
  · simp only [hx, if_true]
    refine bind_congr fun ends => ?_
    cases ends with
    | false => rfl
    | true =>
      simp only [if_true]
      cases sum row.y row.height <;> rfl
  · simp only [hx, if_false]
    rfl

private theorem place_ok {limit : Nat} {row : Row} {s : Sized} {r : Placement × Row}
    (h : place limit row s = .ok r) : r.1.width = s.width ∧ r.1.height = s.height := by
  rw [place_eq] at h
  obtain ⟨ends, -, h⟩ := (except_bind_ok_iff _ _ _).mp h
  obtain ⟨row, -, h⟩ := (except_bind_ok_iff _ _ _).mp h
  obtain ⟨stop, -, h⟩ := (except_bind_ok_iff _ _ _).mp h
  cases h
  exact ⟨rfl, rfl⟩

private theorem layout_ok {limit : Nat} : ∀ {sprites : List Sized} {image image' : AtlasImage}
    {row : Row}, layout limit image row sprites = .ok image' →
      sizes image'.sprites = sizes image.sprites ++ sprites
  | [], _, _, _, h => by
    cases h
    rw [List.append_nil]
  | s :: rest, image, image', row, h => by
    unfold layout at h
    obtain ⟨⟨placement, row'⟩, hplace, h⟩ := (except_bind_ok_iff _ _ _).mp h
    obtain ⟨bottom, -, h⟩ := (except_bind_ok_iff _ _ _).mp h
    obtain ⟨hwidth, hheight⟩ := place_ok hplace
    rw [layout_ok h]
    simp only at hwidth hheight
    simp [sizes, hwidth, hheight]

/-- A layout has the sprites it was made of, in their sizes. -/
theorem sizes_arrange {sprites : List Sized} {image : AtlasImage} (h : arrange sprites = .ok image) :
    (sizes image.sprites).Perm sprites := by
  unfold arrange at h
  obtain ⟨limit, -, h⟩ := (except_bind_ok_iff _ _ _).mp h
  rw [layout_ok h]
  exact List.mergeSort_perm sprites before

/-! ## Keeping a layout -/

/-- A sprite with its size, if its image has one. -/
def sized? (sizeOf : String → Option (Nat × Nat)) (key : SpriteKey) : Option Sized :=
  (sizeOf key.name).map (sizedOf key)

/-- What holds of the atlas of a build: no sprite is asked for or placed twice, and the last layout is
what is made of its sprites. -/
structure Laid (a : Atlas) : Prop where
  asked : a.current.Nodup
  placed : ∀ placed ∈ a.built, (placed.map Prod.fst).Nodup ∧
    ∃ image, arrange (sizes placed) = .ok image ∧ image.sprites = placed

variable {a a' : Atlas} {sizeOf : String → Option (Nat × Nat)} {image : AtlasImage}
  {placed : List (SpriteKey × Placement)}

/-- What is built is made of the sprites asked for, and is kept. -/
theorem build_ok_iff : a.build sizeOf = .ok (image, a') ↔
    arrange (a.current.filterMap (sized? sizeOf)) = .ok image ∧
      a' = { a with built := some image.sprites } := by
  unfold build
  change (arrange (a.current.filterMap (sized? sizeOf)) >>= _) = _ ↔ _
  rw [except_bind_ok_iff]
  constructor
  · rintro ⟨image, harrange, h⟩
    cases h
    exact ⟨harrange, rfl⟩
  · rintro ⟨harrange, rfl⟩
    exact ⟨image, harrange, rfl⟩

theorem Laid.empty : Laid .empty := ⟨.nil, nofun⟩

theorem Laid.begin (h : a.Laid) : a.begin.Laid := ⟨.nil, h.placed⟩

/-- No sprite is asked for twice. -/
theorem nodup_add (h : a.current.Nodup) (key : SpriteKey) : (a.add key).current.Nodup := by
  unfold Atlas.add
  split
  · exact h
  · rename_i hnew
    rw [List.nodup_append]
    refine ⟨h, List.pairwise_singleton _ key, fun k hk k' hk' heq => ?_⟩
    rw [← heq, List.mem_singleton] at hk'
    subst hk'
    exact hnew (List.contains_iff_mem.mpr hk)

theorem built_add (a : Atlas) (key : SpriteKey) : (a.add key).built = a.built := by
  unfold Atlas.add
  split <;> rfl

theorem Laid.add (h : a.Laid) (key : SpriteKey) : (a.add key).Laid :=
  ⟨nodup_add h.asked key, by rw [built_add]; exact h.placed⟩

theorem key_of_sized? {key : SpriteKey} {s : Sized} (h : sized? sizeOf key = some s) : s.key = key := by
  obtain ⟨size, -, rfl⟩ := Option.map_eq_some_iff.mp h
  rfl

/-- The sprites whose images have sizes are among the sprites. -/
theorem keys_sublist (keys : List SpriteKey) :
    ((keys.filterMap (sized? sizeOf)).map Sized.key).Sublist keys := by
  induction keys with
  | nil => exact List.Sublist.slnil
  | cons key keys ih =>
    cases hsized : sized? sizeOf key with
    | none =>
      rw [List.filterMap_cons_none hsized]
      exact ih.cons key
    | some s =>
      rw [List.filterMap_cons_some hsized, List.map_cons, key_of_sized? hsized]
      exact ih.cons_cons key

theorem Laid.build (h : a.Laid) (hbuild : a.build sizeOf = .ok (image, a')) : a'.Laid := by
  obtain ⟨harrange, rfl⟩ := build_ok_iff.mp hbuild
  have hperm := sizes_arrange harrange
  refine ⟨h.asked, fun placed hplaced => ?_⟩
  obtain rfl : image.sprites = placed := Option.some.inj hplaced
  refine ⟨?_, image, (arrange_perm hperm).trans harrange, rfl⟩
  have hkeys : image.sprites.map Prod.fst = (sizes image.sprites).map Sized.key := by
    simp [sizes, Function.comp_def]
  rw [hkeys, (hperm.map Sized.key).nodup_iff]
  exact (keys_sublist a.current).nodup h.asked

theorem lookup_of_mem (hnodup : (placed.map Prod.fst).Nodup) {s : SpriteKey × Placement}
    (hs : s ∈ placed) : placed.lookup s.1 = some s.2 := by
  induction placed with
  | nil => exact absurd hs List.not_mem_nil
  | cons first rest ih =>
    rw [List.map_cons, List.nodup_cons] at hnodup
    rw [List.lookup_cons]
    rcases List.mem_cons.mp hs with rfl | hs
    · rw [beq_self_eq_true]
    · have hne : s.1 ≠ first.1 := fun heq => hnodup.1 (heq ▸ List.mem_map.mpr ⟨s, hs, rfl⟩)
      rw [beq_eq_false_iff_ne.mpr hne]
      exact ih hnodup.2 hs

/-- An atlas that keeps its layout has the sprites that are asked for in it. -/
theorem Laid.perm_of_kept (h : a.Laid) (hplaced : placed ∈ a.built) (hkept : a.changed = false) :
    a.current.Perm (placed.map Prod.fst) := by
  unfold changed at hkept
  rw [Option.mem_def.mp hplaced, Bool.or_eq_false_iff] at hkept
  obtain ⟨hlength, hknown⟩ := hkept
  have hsub : a.current ⊆ placed.map Prod.fst := fun key hkey => by
    have hsome := List.any_eq_false.mp hknown key hkey
    obtain ⟨area, harea⟩ : ∃ area, (key, area) ∈ placed := by simpa using hsome
    exact List.mem_map.mpr ⟨_, harea, rfl⟩
  refine (List.subperm_of_subset h.asked hsub).perm_of_length_le ?_
  rw [List.length_map]
  exact Nat.le_of_eq (by simpa using hlength)

/-- A layout that is kept is the one that would be made now, if each sprite asked for has the size from
its image that it has in the layout. -/
theorem Laid.build_of_kept (h : a.Laid) (hplaced : placed ∈ a.built) (hkept : a.changed = false)
    (hsizes : ∀ key ∈ a.current, ∀ area, a.query key = some area →
      sized? sizeOf key = some ⟨key, area.width, area.height⟩) :
    ∃ image, a.build sizeOf = .ok (image, a) := by
  obtain ⟨hnodup, image, harrange, rfl⟩ := h.placed placed hplaced
  have hperm := h.perm_of_kept hplaced hkept
  have hsame : (a.current.filterMap (sized? sizeOf)).Perm (sizes image.sprites) := by
    refine (hperm.filterMap _).trans (List.Perm.of_eq ?_)
    rw [List.filterMap_map, sizes, ← List.filterMap_eq_map]
    refine List.filterMap_congr fun s hs => ?_
    have hquery : a.query s.1 = some s.2 := by
      unfold query
      rw [Option.mem_def.mp hplaced]
      exact lookup_of_mem hnodup hs
    exact hsizes s.1 (hperm.mem_iff.mpr (List.mem_map.mpr ⟨s, hs, rfl⟩)) s.2 hquery
  refine ⟨image, build_ok_iff.mpr ⟨(arrange_perm hsame).trans harrange, ?_⟩⟩
  obtain ⟨current, built⟩ := a
  obtain rfl : built = some image.sprites := hplaced
  rfl

/-- What was laid out just now would be laid out again in the same way. -/
theorem build_again (h : a.build sizeOf = .ok (image, a')) : a'.build sizeOf = .ok (image, a') := by
  obtain ⟨harrange, rfl⟩ := build_ok_iff.mp h
  exact build_ok_iff.mpr ⟨harrange, rfl⟩

/-- An image of another size alone does not make an atlas lay its sprites out anew. -/
example : let key : SpriteKey := ⟨"x.png", none, none, none, none, none⟩
    let a : Atlas := ⟨[key], some [(key, ⟨0, 0, 4, 4⟩)]⟩
    a.changed = false ∧ (a.build fun _ => some (8, 6)).toOption.map Prod.snd ≠ some a := by
  decide +kernel

end Atlas

/-! ## The atlas of a build -/

namespace Session

variable {w w' : Workspace}

theorem laid_collectSprites (refs : References) {p : Project} (h : p.atlas.Laid) :
    (Resources.collectSprites refs p).atlas.Laid := by
  have hadd : ∀ (keys : List SpriteKey) (a : Atlas), a.Laid → (keys.foldl Atlas.add a).Laid := by
    intro keys
    induction keys with
    | nil => exact fun _ h => h
    | cons key keys ih => exact fun a h => ih _ (h.add key)
  unfold Resources.collectSprites
  split
  · exact h
  · exact hadd _ _ h

/-- The law of steps that leave the atlas alone. -/
private def sameAtlas {σ : Type} (project : σ → Project) : Law σ where
  moves s t := (project t).atlas = (project s).atlas
  fails _ _ := True
  refl _ := rfl
  trans h h' := h'.trans h
  back _ _ := trivial
  fault _ _ := trivial

private theorem sameAtlas_encodeAtlas (image : AtlasImage) (output : String) :
    Obeys (sameAtlas Workspace.project) (encodeAtlas image output) := by
  unfold encodeAtlas
  refine obeys_get.bind fun w => ?_
  split
  · exact obeys_pure _
  · simp only
    split
    · refine obeys_modify fun w => ?_
      change (w.written _ _).project.atlas = w.project.atlas
      unfold Workspace.written Project.write
      split
      · split <;> rfl
      · rfl
    · exact obeys_throw fun _ => trivial

/-- After the atlas was built it either has the layout that was made of the sprites asked for and the
sizes that their images were found to have, or it has kept its layout, and then nothing was done. -/
theorem buildAtlas_ok {b : Bool} (hmerge : w.project.config.spriteMerge = true)
    (h : buildAtlas w = .ok b w') :
    (b = true ∧ ∃ sizes v image,
      imageSizes (w.project.atlas.current.map SpriteKey.name) w = .ok sizes v ∧
      w.project.atlas.build (fun name => sizes.lookup name) = .ok (image, w'.project.atlas)) ∨
    (b = false ∧ w' = w ∧ w.project.atlas.changed = false) := by
  unfold buildAtlas at h
  obtain ⟨v, t, hget, h⟩ := (bind_ok_iff _ _ _ _ _).mp h
  obtain ⟨rfl, rfl⟩ := (get_ok_iff _ _ _).mp hget
  simp only [hmerge, Bool.not_true, Bool.false_or, Bool.not_eq_true'] at h
  split at h
  · rename_i hkept
    obtain ⟨rfl, rfl⟩ := (pure_ok_iff _ _ _ _).mp h
    exact .inr ⟨rfl, rfl, hkept⟩
  · obtain ⟨sizes, v, hsizes, h⟩ := (bind_ok_iff _ _ _ _ _).mp h
    obtain ⟨⟨image, atlas⟩, v', hlift, h⟩ := (bind_ok_iff _ _ _ _ _).mp h
    obtain ⟨hbuild, rfl⟩ := (lift_ok_iff _ _ _ _).mp hlift
    obtain ⟨u, v₁, hset, h⟩ := (bind_ok_iff _ _ _ _ _).mp h
    have hv₁ := (modify_ok_iff _ _ _ _).mp hset
    have hshorten : Obeys (sameAtlas Workspace.project)
        (onProject (modifyGet fun p => p.shorten "bundle.png")) :=
      obeys_on (fun _ _ h => h) (fun _ _ _ => trivial)
        (obeys_modifyGet (L := sameAtlas id) fun _ => rfl)
    obtain ⟨output, v₂, hshort, h⟩ := (bind_ok_iff _ _ _ _ _).mp h
    obtain ⟨u', v₃, hpng, h⟩ := (bind_ok_iff _ _ _ _ _).mp h
    obtain ⟨u'', v₄, hencode, h⟩ := (bind_ok_iff _ _ _ _ _).mp h
    obtain ⟨rfl, rfl⟩ := (pure_ok_iff _ _ _ _).mp h
    have hv₃ := (modify_ok_iff _ _ _ _).mp hpng
    have hatlas : v₄.project.atlas = atlas := calc
      v₄.project.atlas = v₃.project.atlas := (sameAtlas_encodeAtlas _ _).ok hencode
      _ = v₂.project.atlas := by rw [← hv₃]
      _ = v₁.project.atlas := hshorten.ok hshort
      _ = atlas := by rw [← hv₁]
    exact .inl ⟨rfl, sizes, v, image, hsizes, by rw [hatlas, hbuild]⟩

/-- After the atlas was built it is what would be made now of the sprites asked for, if there are any: the
sizes are those that the images are found to have, and where the layout was kept, the sprites are in it
with these sizes. -/
theorem atlas_upToDate {b : Bool} {sizeOf : String → Option (Nat × Nat)}
    (hmerge : w.project.config.spriteMerge = true) (hlaid : w.project.atlas.Laid)
    (hsprites : w.project.atlas.current ≠ []) (h : buildAtlas w = .ok b w')
    (hread : ∀ sizes v, imageSizes (w.project.atlas.current.map SpriteKey.name) w = .ok sizes v →
      (fun name => sizes.lookup name) = sizeOf)
    (hkept : b = false → ∀ key ∈ w.project.atlas.current, ∀ area,
      w.project.atlas.query key = some area →
        Atlas.sized? sizeOf key = some ⟨key, area.width, area.height⟩) :
    w'.project.atlas.Laid ∧
      ∃ image, w'.project.atlas.build sizeOf = .ok (image, w'.project.atlas) := by
  rcases buildAtlas_ok hmerge h with ⟨rfl, sizes, v, image, hsizes, hbuild⟩ | ⟨rfl, rfl, hsame⟩
  · rw [hread sizes v hsizes] at hbuild
    exact ⟨hlaid.build hbuild, image, Atlas.build_again hbuild⟩
  · refine ⟨hlaid, ?_⟩
    cases hbuilt : w'.project.atlas.built with
    | none =>
      -- Without a layout an atlas is kept only if no sprite is asked for.
      unfold Atlas.changed at hsame
      rw [hbuilt] at hsame
      exact absurd (by simpa using hsame) hsprites
    | some placed => exact hlaid.build_of_kept hbuilt hsame (hkept rfl)

end Session

end Bundler

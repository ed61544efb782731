/-
The layout of the atlas as a packing.

Sprites are placed in rows from left to right, and a sprite that would stand out over the limit opens a
new row below the highest sprite of the open one. What carries this through all sprites is where the
areas are that were placed already: those of the rows above end above the open row, and those of the open
row end left of the next sprite and not below the row (`Atlas.Shelved`). So the next area is apart from
all of them, in the open row as well as in a new one (`Atlas.Shelved.push`).

Nothing of this depends on the limit, as long as no sprite is wider. Nor does the layout overflow if the
widths and the heights of the sprites add up to positions (`Atlas.exists_layout`). The main statements are
`Atlas.build_packs`, by which a build places the sprites that can be read, each once, in areas apart from
each other, in an image that is the box around them, and `Atlas.build_discovered`, by which the image and
all places depend on the set of the sprites alone.
-/
import Bundler.Proofs.AtlasImages
import Mathlib.Algebra.Order.BigOperators.Group.List
import Mathlib.Algebra.Order.Ring.Nat

set_option autoImplicit false

namespace Bundler

/-! ## Areas -/

namespace Placement

variable {p q : Placement}

/-- The points of an area. Its right and its lower edge do not belong to it. -/
def Covers (p : Placement) (x y : Nat) : Prop :=
  p.x ≤ x ∧ x < p.x + p.width ∧ p.y ≤ y ∧ y < p.y + p.height

/-- Two areas have no point in common. -/
def Apart (p q : Placement) : Prop := ∀ x y, p.Covers x y → ¬q.Covers x y

theorem apart_of_left (h : p.x + p.width ≤ q.x) : p.Apart q := by
  rintro x y ⟨-, hright, -⟩ ⟨hleft, -⟩
  omega

theorem apart_of_above (h : p.y + p.height ≤ q.y) : p.Apart q := by
  rintro x y ⟨-, -, -, hbottom⟩ ⟨-, -, htop, -⟩
  omega

end Placement

namespace AtlasImage

variable {image : AtlasImage}

/-- The image is the box around its areas: all are inside, and each edge of the image is the edge of one.
Without areas it is empty. -/
structure IsBox (image : AtlasImage) : Prop where
  inside : ∀ s ∈ image.sprites,
    s.2.x + s.2.width ≤ image.width ∧ s.2.y + s.2.height ≤ image.height
  left : image.sprites ≠ [] → ∃ s ∈ image.sprites, s.2.x = 0
  top : image.sprites ≠ [] → ∃ s ∈ image.sprites, s.2.y = 0
  right : image.sprites ≠ [] → ∃ s ∈ image.sprites, s.2.x + s.2.width = image.width
  bottom : image.sprites ≠ [] → ∃ s ∈ image.sprites, s.2.y + s.2.height = image.height
  empty : image.sprites = [] → image.width = 0 ∧ image.height = 0

/-- An image with one more sprite. -/
def push (image : AtlasImage) (key : SpriteKey) (area : Placement) : AtlasImage where
  width := max image.width (area.x + area.width)
  height := max image.height (area.y + area.height)
  sprites := image.sprites ++ [(key, area)]

/-- Pushing a sprite keeps a box. The first sprite has to touch the left and the upper edge. -/
theorem IsBox.push (h : image.IsBox) (key : SpriteKey) {area : Placement}
    (hfirst : image.sprites = [] → area.x = 0 ∧ area.y = 0) : (image.push key area).IsBox := by
  have hlast : (key, area) ∈ (image.push key area).sprites :=
    List.mem_append_right _ (List.mem_singleton_self _)
  have hold : ∀ s ∈ image.sprites, s ∈ (image.push key area).sprites :=
    fun _ hs => List.mem_append_left _ hs
  -- an edge of the new image is one of the new area, or it was the edge of an area before
  have hnil : image.sprites = [] ∨ image.sprites ≠ [] := Decidable.em _
  refine ⟨?_, fun _ => ?_, fun _ => ?_, fun _ => ?_, fun _ => ?_, fun habsurd => ?_⟩
  · intro s hs
    simp only [AtlasImage.push]
    rcases List.mem_append.mp hs with hs | hs
    · have hinside := h.inside s hs
      omega
    · obtain rfl := List.mem_singleton.mp hs
      exact ⟨Nat.le_max_right _ _, Nat.le_max_right _ _⟩
  · rcases hnil with hempty | hsome
    · exact ⟨_, hlast, (hfirst hempty).1⟩
    · obtain ⟨s, hs, hx⟩ := h.left hsome
      exact ⟨s, hold s hs, hx⟩
  · rcases hnil with hempty | hsome
    · exact ⟨_, hlast, (hfirst hempty).2⟩
    · obtain ⟨s, hs, hy⟩ := h.top hsome
      exact ⟨s, hold s hs, hy⟩
  · rcases Nat.le_total image.width (area.x + area.width) with hle | hge
    · exact ⟨_, hlast, (Nat.max_eq_right hle).symm⟩
    · rcases hnil with hempty | hsome
      · have hzero := (h.empty hempty).1
        exact ⟨_, hlast, by simp only [AtlasImage.push]; omega⟩
      · obtain ⟨s, hs, hright⟩ := h.right hsome
        exact ⟨s, hold s hs, hright.trans (Nat.max_eq_left hge).symm⟩
  · rcases Nat.le_total image.height (area.y + area.height) with hle | hge
    · exact ⟨_, hlast, (Nat.max_eq_right hle).symm⟩
    · rcases hnil with hempty | hsome
      · have hzero := (h.empty hempty).2
        exact ⟨_, hlast, by simp only [AtlasImage.push]; omega⟩
      · obtain ⟨s, hs, hbottom⟩ := h.bottom hsome
        exact ⟨s, hold s hs, hbottom.trans (Nat.max_eq_left hge).symm⟩
  · exact absurd habsurd (by simp [AtlasImage.push])

end AtlasImage

namespace Atlas

/-! ## Rows -/

namespace Row

/-- The row that a sprite goes to: the open one, or a new one below it. -/
def opened (limit : Nat) (row : Row) (s : Sized) : Row :=
  if 0 < row.x ∧ limit < row.x + s.width then ⟨0, row.y + row.height, 0⟩ else row

/-- The area of the next sprite in a row. -/
def area (row : Row) (s : Sized) : Placement := ⟨row.x, row.y, s.width, s.height⟩

/-- A row behind a sprite. -/
def behind (row : Row) (s : Sized) : Row := ⟨row.x + s.width, row.y, max row.height s.height⟩

variable {limit : Nat} {row : Row} {s : Sized}

theorem x_opened_le : (row.opened limit s).x ≤ row.x := by
  unfold opened
  split
  · exact Nat.zero_le _
  · exact Nat.le_refl _

/-- The bottom of the open row is where a new row starts. -/
theorem bottom_opened : (row.opened limit s).y + (row.opened limit s).height = row.y + row.height := by
  unfold opened
  split <;> rfl

/-- There is room for a sprite in the row it goes to. -/
theorem room_opened (hs : s.width ≤ limit) : (row.opened limit s).x + s.width ≤ limit := by
  unfold opened
  split
  · rwa [Nat.zero_add]
  · rename_i hroom
    omega

end Row

variable {limit : Nat} {image : AtlasImage} {row : Row} {s : Sized} {sprites : List Sized}

theorem sum_of_lt {a b : Nat} (h : a + b < bound) : sum a b = .ok (a + b) := if_pos h

/-- Where the numbers are positions, a sprite is placed in the row it goes to. -/
theorem place_of_lt (hx : row.x + s.width < bound) (hy : row.y + row.height < bound) :
    place limit row s = .ok ((row.opened limit s).area s, (row.opened limit s).behind s) := by
  have hplace : ∀ r : Row, r.x + s.width < bound → placeAt s r = .ok (r.area s, r.behind s) := by
    intro r hr
    rw [placeAt, sum_of_lt hr]
    rfl
  rw [place_eq]
  unfold Row.opened
  by_cases hstart : 0 < row.x
  · rw [if_pos hstart, sum_of_lt hx]
    by_cases hroom : limit < row.x + s.width
    · rw [if_pos ⟨hstart, hroom⟩, ← hplace ⟨0, row.y + row.height, 0⟩ (by simp only; omega), sum_of_lt hy]
      simp only [Except.map, bind, Except.bind, hroom, decide_true, if_true]
    · rw [if_neg fun h => hroom h.2, ← hplace row hx]
      simp only [Except.map, bind, Except.bind, hroom, decide_false, Bool.false_eq_true, if_false]
  · rw [if_neg hstart, if_neg fun h => hstart h.1, ← hplace row hx]
    rfl

/-- One step of a layout: the sprite is pushed to the image. -/
theorem layout_cons (hx : row.x + s.width < bound) (hy : row.y + row.height + s.height < bound)
    (hbottom : row.y + row.height ≤ image.height) :
    layout limit image row (s :: sprites)
      = layout limit (image.push s.key ((row.opened limit s).area s)) ((row.opened limit s).behind s)
          sprites := by
  have hopened : (row.opened limit s).y + (row.opened limit s).height = row.y + row.height :=
    Row.bottom_opened
  have hsum : sum (row.opened limit s).y (max (row.opened limit s).height s.height)
      = .ok ((row.opened limit s).y + max (row.opened limit s).height s.height) :=
    sum_of_lt (by omega)
  -- the row is inside of the image, so only the sprite itself can make the image higher
  have hheight : max image.height ((row.opened limit s).y + max (row.opened limit s).height s.height)
      = max image.height ((row.opened limit s).y + s.height) := by omega
  rw [layout, place_of_lt hx (by omega)]
  simp only [bind, Except.bind, Row.behind]
  rw [hsum]
  simp only [hheight]
  rfl

/-! ## Layouts -/

/-- What holds while sprites are placed. Each area that was placed ends above the open row, or it is in
the open row and ends left of the next sprite. -/
structure Shelved (limit : Nat) (image : AtlasImage) (row : Row) : Prop where
  apart : image.sprites.Pairwise fun s t => s.2.Apart t.2
  placed : ∀ s ∈ image.sprites, s.2.y + s.2.height ≤ row.y ∨
    s.2.x + s.2.width ≤ row.x ∧ s.2.y + s.2.height ≤ row.y + row.height
  box : image.IsBox
  bottom : row.y + row.height ≤ image.height
  narrow : image.width ≤ limit
  start : image.sprites = [] → row.x = 0 ∧ row.y = 0

theorem shelved_start (limit : Nat) : Shelved limit ⟨0, 0, []⟩ ⟨0, 0, 0⟩ where
  apart := .nil
  placed _ hs := absurd hs List.not_mem_nil
  box :=
    { inside := fun _ hs => absurd hs List.not_mem_nil
      left := fun h => absurd rfl h
      top := fun h => absurd rfl h
      right := fun h => absurd rfl h
      bottom := fun h => absurd rfl h
      empty := fun _ => ⟨rfl, rfl⟩ }
  bottom := Nat.le_refl 0
  narrow := Nat.zero_le limit
  start _ := ⟨rfl, rfl⟩

/-- A new row is below all areas. -/
theorem Shelved.opened (h : Shelved limit image row) (s : Sized) :
    Shelved limit image (row.opened limit s) := by
  unfold Row.opened
  split
  · rename_i hfull
    refine ⟨h.apart, fun t ht => .inl ?_, h.box, h.bottom, h.narrow, fun hempty => ?_⟩
    · have hplaced := h.placed t ht
      simp only
      omega
    · have hstart := (h.start hempty).1
      omega
  · exact h

/-- The next area is right of the areas in its row and below the others. -/
theorem Shelved.push (h : Shelved limit image row) (hroom : row.x + s.width ≤ limit) :
    Shelved limit (image.push s.key (row.area s)) (row.behind s) := by
  refine ⟨?_, fun t ht => ?_, h.box.push s.key h.start, ?_, ?_, fun hempty => ?_⟩
  · refine List.pairwise_append.mpr ⟨h.apart, List.pairwise_singleton _ _, fun t ht u hu => ?_⟩
    obtain rfl := List.mem_singleton.mp hu
    rcases h.placed t ht with habove | ⟨hleft, -⟩
    · exact Placement.apart_of_above habove
    · exact Placement.apart_of_left hleft
  · unfold Row.behind
    rcases List.mem_append.mp ht with ht | ht
    · have hplaced := h.placed t ht
      simp only
      omega
    · obtain rfl := List.mem_singleton.mp ht
      simp only [Row.area]
      omega
  · have hbottom := h.bottom
    simp only [Row.behind, Row.area, AtlasImage.push]
    omega
  · have hnarrow := h.narrow
    simp only [Row.area, AtlasImage.push]
    omega
  · exact absurd hempty (by simp [AtlasImage.push])

/-- The widths of sprites, one beside the other. -/
def totalWidth (sprites : List Sized) : Nat := (sprites.map Sized.width).sum

/-- The heights of sprites, one below the other. -/
def totalHeight (sprites : List Sized) : Nat := (sprites.map Sized.height).sum

/-- A layout goes through to the end if the sprites that are left could stand in one row behind the
cursor, and in one column below the open row. -/
theorem layout_shelved (h : Shelved limit image row) (hwide : ∀ s ∈ sprites, s.width ≤ limit)
    (hx : row.x + totalWidth sprites < bound)
    (hy : row.y + row.height + totalHeight sprites < bound) :
    ∃ image' row', layout limit image row sprites = .ok image' ∧ Shelved limit image' row' ∧
      sizes image'.sprites = sizes image.sprites ++ sprites := by
  induction sprites generalizing image row with
  | nil => exact ⟨image, row, rfl, h, (List.append_nil _).symm⟩
  | cons s sprites ih =>
    simp only [totalWidth, totalHeight, List.map_cons, List.sum_cons] at hx hy
    have hnext := (h.opened s).push (Row.room_opened (hwide s List.mem_cons_self))
    -- to the right a new row starts again, and below it takes what the open one has taken already
    have hleft : (row.opened limit s).x ≤ row.x := Row.x_opened_le
    have hopened : (row.opened limit s).y + (row.opened limit s).height = row.y + row.height :=
      Row.bottom_opened
    obtain ⟨image', row', hlayout, hend, hsizes⟩ :=
      ih hnext (fun t ht => hwide t (List.mem_cons_of_mem _ ht))
        (by simp only [Row.behind, totalWidth]; omega) (by simp only [Row.behind, totalHeight]; omega)
    refine ⟨image', row', ?_, hend, ?_⟩
    · rw [layout_cons (by omega) (by omega) h.bottom]
      exact hlayout
    · rw [hsizes]
      simp [sizes, AtlasImage.push, Row.area]

/-- An image packs sprites within a limit: it has each of them in its size, no two areas overlap, and it
is the box around them and no wider than the limit. -/
structure Packs (limit : Nat) (sprites : List Sized) (image : AtlasImage) : Prop where
  sizes : (sizes image.sprites).Perm sprites
  apart : image.sprites.Pairwise fun s t => s.2.Apart t.2
  box : image.IsBox
  narrow : image.width ≤ limit

/-- Sprites are packed within every limit that none of them exceeds. -/
theorem exists_layout (hwide : ∀ s ∈ sprites, s.width ≤ limit) (hx : totalWidth sprites < bound)
    (hy : totalHeight sprites < bound) :
    ∃ image, layout limit ⟨0, 0, []⟩ ⟨0, 0, 0⟩ sprites = .ok image ∧ Packs limit sprites image := by
  obtain ⟨image, row, hlayout, hend, hsizes⟩ :=
    layout_shelved (shelved_start limit) hwide (by simpa using hx) (by simpa using hy)
  exact ⟨image, hlayout, .of_eq hsizes, hend.apart, hend.box, hend.narrow⟩

/-! ## The limit of a row -/

/-- The areas of sprites, all together. -/
def totalArea (sprites : List Sized) : Nat := (sprites.map fun s => s.width * s.height).sum

theorem totalArea_le (sprites : List Sized) :
    totalArea sprites ≤ totalWidth sprites * totalHeight sprites := by
  induction sprites with
  | nil => exact Nat.zero_le _
  | cons s sprites ih =>
    simp only [totalArea, totalWidth, totalHeight, List.map_cons, List.sum_cons] at ih ⊢
    rw [Nat.add_mul, Nat.mul_add, Nat.mul_add]
    omega

/-- The area is found if it fits 64 bits. -/
theorem area_of_lt (h : totalArea sprites < pow2 64) : area sprites = .ok (totalArea sprites) := by
  suffices hfrom : ∀ (sprites : List Sized) (total : Nat), total + totalArea sprites < pow2 64 →
      sprites.foldlM (fun total s =>
        let total := total + s.width * s.height
        if total < pow2 64 then .ok total else .error .overflow) total
          = (.ok (total + totalArea sprites) : Except Fault Nat) by
    have hzero := hfrom sprites 0 (by rwa [Nat.zero_add])
    rwa [Nat.zero_add] at hzero
  intro sprites
  induction sprites with
  | nil => exact fun _ _ => rfl
  | cons s sprites ih =>
    intro total hlt
    simp only [totalArea, List.map_cons, List.sum_cons, ← Nat.add_assoc] at hlt ⊢
    rw [List.foldlM_cons, if_pos (by omega)]
    exact ih _ hlt

theorem le_foldl_max (sprites : List Sized) (w : Nat) :
    w ≤ sprites.foldl (fun w s => max w s.width) w ∧
      ∀ s ∈ sprites, s.width ≤ sprites.foldl (fun w s => max w s.width) w := by
  induction sprites generalizing w with
  | nil => exact ⟨Nat.le_refl w, fun _ hs => absurd hs List.not_mem_nil⟩
  | cons t sprites ih =>
    obtain ⟨hstart, hall⟩ := ih (max w t.width)
    refine ⟨by simp only [List.foldl_cons]; omega, fun s hs => ?_⟩
    rcases List.mem_cons.mp hs with rfl | hs
    · simp only [List.foldl_cons]
      omega
    · exact hall s hs

/-- The limit of a row is found, and no sprite is wider. -/
theorem exists_rowLimit (hx : totalWidth sprites < bound) (hy : totalHeight sprites < bound) :
    ∃ limit, rowLimit sprites = .ok limit ∧ ∀ s ∈ sprites, s.width ≤ limit := by
  have harea : totalArea sprites < pow2 64 := calc
    totalArea sprites ≤ totalWidth sprites * totalHeight sprites := totalArea_le sprites
    _ < bound * bound := Nat.mul_lt_mul_of_lt_of_lt hx hy
    _ = pow2 64 := by decide +kernel
  unfold rowLimit
  rw [area_of_lt harea]
  refine ⟨_, rfl, fun s hs => ?_⟩
  exact Nat.le_trans ((le_foldl_max sprites 0).2 s hs) (Nat.le_max_left _ _)

/-! ## Builds -/

variable {a a' : Atlas} {sizeOf : String → Option (Nat × Nat)}

/-- The sprites asked for whose images can be read, in their sizes. -/
def readable (a : Atlas) (sizeOf : String → Option (Nat × Nat)) : List Sized :=
  a.current.filterMap (sized? sizeOf)

/-- An atlas was built: its layout packs the sprites that can be read, and it answers with it. -/
structure Placed (limit : Nat) (sizeOf : String → Option (Nat × Nat)) (a : Atlas) (image : AtlasImage)
    (a' : Atlas) : Prop extends Packs limit (a.readable sizeOf) image where
  keys : (image.sprites.map Prod.fst).Perm (a.current.filter fun key => (sizeOf key.name).isSome)
  once : (image.sprites.map Prod.fst).Nodup
  /-- The width and the height are those asked for, or what the image has from the offset on. -/
  sized : ∀ s ∈ image.sprites, ∃ size, sizeOf s.1.name = some size ∧
    s.2.width = s.1.width.getD (size.1 - s.1.x.getD 0) ∧
    s.2.height = s.1.height.getD (size.2 - s.1.y.getD 0)
  query : ∀ key area, a'.query key = some area ↔ (key, area) ∈ image.sprites
  current : a'.current = a.current
  changed : a'.changed = false ↔ ∀ key ∈ a.current, (sizeOf key.name).isSome = true

theorem keys_sizes (placed : List (SpriteKey × Placement)) :
    placed.map Prod.fst = (sizes placed).map Sized.key := by
  simp [sizes, Function.comp_def]

theorem keys_readable (a : Atlas) (sizeOf : String → Option (Nat × Nat)) :
    (a.readable sizeOf).map Sized.key = a.current.filter fun key => (sizeOf key.name).isSome := by
  unfold readable
  rw [List.map_filterMap, ← List.filterMap_eq_filter]
  refine List.filterMap_congr fun key _ => ?_
  cases hsize : sizeOf key.name with
  | none => simp [sized?, Option.guard, hsize]
  | some size => simp [sized?, sizedOf, Option.guard, hsize]

/-- In a layout without repetitions each sprite is found at its place. -/
theorem lookup_eq_some_iff {placed : List (SpriteKey × Placement)} (hnodup : (placed.map Prod.fst).Nodup)
    {key : SpriteKey} {area : Placement} : placed.lookup key = some area ↔ (key, area) ∈ placed := by
  constructor
  · intro hlookup
    obtain ⟨before, behind, rfl, -⟩ := List.lookup_eq_some_iff.mp hlookup
    exact List.mem_append_right _ List.mem_cons_self
  · exact fun hmem => lookup_of_mem hnodup hmem

/-- A layout that packs the sprites of an atlas is one that the atlas answers with. -/
theorem Packs.placed (h : Packs limit (a.readable sizeOf) image) (hset : a.current.Nodup)
    (hbuild : a.build sizeOf = .ok (image, a')) : Placed limit sizeOf a image a' := by
  have hkeys : (image.sprites.map Prod.fst).Perm (a.current.filter fun key => (sizeOf key.name).isSome) := by
    rw [keys_sizes, ← keys_readable]
    exact h.sizes.map Sized.key
  have honce : (image.sprites.map Prod.fst).Nodup := hkeys.nodup_iff.mpr (hset.filter _)
  refine ⟨h, hkeys, honce, fun s hs => ?_, fun key area => ?_, ?_, changed_of_build hbuild⟩
  · have hsized : (⟨s.1, s.2.width, s.2.height⟩ : Sized) ∈ a.readable sizeOf :=
      h.sizes.mem_iff.mp (List.mem_map.mpr ⟨s, hs, rfl⟩)
    obtain ⟨key, -, hkey⟩ := List.mem_filterMap.mp hsized
    obtain ⟨size, hsize, heq⟩ := Option.map_eq_some_iff.mp hkey
    obtain ⟨hname, hwidth, hheight⟩ := Sized.mk.inj heq
    subst hname
    exact ⟨size, hsize, hwidth.symm, hheight.symm⟩
  · obtain ⟨-, rfl⟩ := build_ok_iff.mp hbuild
    exact lookup_eq_some_iff honce
  · rw [(build_ok_iff.mp hbuild).2]

/-- **A layout is a packing.** If the widths and the heights of the sprites that can be read add up to
positions, a layout is found within each limit that no sprite exceeds, and so it is within the limit that a
build takes. It has just the sprites that can be read, each once and in its size, in areas that do not
overlap, and it is the box around them and no wider than the limit. The atlas answers with these areas, and
it takes its layout for current just if all sprites asked for could be read. -/
theorem build_packs (a : Atlas) (sizeOf : String → Option (Nat × Nat)) (hset : a.current.Nodup)
    (hwidths : totalWidth (a.readable sizeOf) < bound)
    (hheights : totalHeight (a.readable sizeOf) < bound) :
    (∀ limit, (∀ s ∈ a.readable sizeOf, s.width ≤ limit) →
      ∃ image, layout limit ⟨0, 0, []⟩ ⟨0, 0, 0⟩ ((a.readable sizeOf).mergeSort before) = .ok image ∧
        Packs limit (a.readable sizeOf) image) ∧
    ∃ limit image a', rowLimit ((a.readable sizeOf).mergeSort before) = .ok limit ∧
      a.build sizeOf = .ok (image, a') ∧ Placed limit sizeOf a image a' := by
  have hsorted : ((a.readable sizeOf).mergeSort before).Perm (a.readable sizeOf) :=
    List.mergeSort_perm _ _
  have hx : totalWidth ((a.readable sizeOf).mergeSort before) < bound := by
    unfold totalWidth at hwidths ⊢
    rwa [(hsorted.map _).sum_nat]
  have hy : totalHeight ((a.readable sizeOf).mergeSort before) < bound := by
    unfold totalHeight at hheights ⊢
    rwa [(hsorted.map _).sum_nat]
  have hall : ∀ limit, (∀ s ∈ a.readable sizeOf, s.width ≤ limit) →
      ∃ image, layout limit ⟨0, 0, []⟩ ⟨0, 0, 0⟩ ((a.readable sizeOf).mergeSort before) = .ok image ∧
        Packs limit (a.readable sizeOf) image := by
    intro limit hwide
    obtain ⟨image, hlayout, hpacks⟩ :=
      exists_layout (fun s hs => hwide s (hsorted.mem_iff.mp hs)) hx hy
    exact ⟨image, hlayout, hpacks.sizes.trans hsorted, hpacks.apart, hpacks.box, hpacks.narrow⟩
  obtain ⟨limit, hlimit, hwide⟩ := exists_rowLimit hx hy
  obtain ⟨image, hlayout, hpacks⟩ := hall limit fun s hs => hwide s (hsorted.mem_iff.mpr hs)
  have harrange : arrange (a.readable sizeOf) = .ok image := by
    change rowLimit ((a.readable sizeOf).mergeSort before) >>= _ = _
    rw [hlimit]
    exact hlayout
  have hbuild : a.build sizeOf = .ok (image, { a with built := some image.sprites }) :=
    build_ok_iff.mpr ⟨harrange, rfl⟩
  exact ⟨hall, limit, image, _, hlimit, hbuild, hpacks.placed hset hbuild⟩

/-- Two sprites side by side, one of them larger than its image, a third without a width below them, and one
that cannot be read. -/
theorem build_packs_fourSprites :
    let a : Atlas := ⟨[⟨"x.png", none, none, none, none, none⟩, ⟨"x.png", none, some 9, some 5, some 2, none⟩,
      ⟨"x.png", some "red", none, none, some 8, some 1⟩, ⟨"gone.png", none, none, none, none, none⟩], none⟩
    let sizeOf : String → Option (Nat × Nat) := fun name => if name = "x.png" then some (4, 4) else none
    (a.current.Nodup ∧ totalWidth (a.readable sizeOf) < bound ∧ totalHeight (a.readable sizeOf) < bound) ∧
    ∃ limit image a', rowLimit ((a.readable sizeOf).mergeSort before) = .ok limit ∧
      a.build sizeOf = .ok (image, a') ∧ Placed limit sizeOf a image a' := by
  intro a sizeOf
  have hset : a.current.Nodup := by decide +kernel
  have hwidths : totalWidth (a.readable sizeOf) < bound := by decide +kernel
  have hheights : totalHeight (a.readable sizeOf) < bound := by decide +kernel
  exact ⟨⟨hset, hwidths, hheights⟩, (build_packs a sizeOf hset hwidths hheights).2⟩

/-! ## The order of discovery -/

theorem mem_add {key k : SpriteKey} : k ∈ (a.add key).current ↔ k ∈ a.current ∨ k = key := by
  unfold Atlas.add
  split
  · rename_i hold
    have hmem : key ∈ a.current := List.contains_iff_mem.mp hold
    constructor
    · exact .inl
    · rintro (hk | rfl)
      · exact hk
      · exact hmem
  · simp

/-- Asking for sprites one after the other asks for the set of them. -/
theorem mem_foldl_add {keys : List SpriteKey} {k : SpriteKey} :
    k ∈ (keys.foldl add a).current ↔ k ∈ a.current ∨ k ∈ keys := by
  induction keys generalizing a with
  | nil => simp
  | cons key keys ih => rw [List.foldl_cons, ih, mem_add, List.mem_cons, or_assoc]

theorem nodup_foldl_add (h : a.current.Nodup) (keys : List SpriteKey) :
    (keys.foldl add a).current.Nodup := by
  induction keys generalizing a with
  | nil => exact h
  | cons key keys ih => exact ih (nodup_add h key)

/-- A build looks at the sprites asked for, in whatever order, and not at the last layout. -/
theorem build_perm {b : Atlas} (h : a.current.Perm b.current) (sizeOf : String → Option (Nat × Nat)) :
    (a.build sizeOf).map (fun built => (built.1, built.2.query))
      = (b.build sizeOf).map fun built => (built.1, built.2.query) := by
  have harrange : arrange (a.readable sizeOf) = arrange (b.readable sizeOf) :=
    arrange_perm (h.filterMap _)
  unfold build
  change (arrange (a.readable sizeOf) >>= _).map _ = (arrange (b.readable sizeOf) >>= _).map _
  rw [harrange]
  cases arrange (b.readable sizeOf) <;> rfl

/-- **A layout does not depend on the order of discovery.** When the same set of sprites is asked for after a
new beginning, in any order and any number of times, a build makes the same image or meets the same fault,
and each sprite has the same place, whatever layout there was before. -/
theorem build_discovered (a b : Atlas) (keys keys' : List SpriteKey)
    (sizeOf : String → Option (Nat × Nat)) (hsame : ∀ key, key ∈ keys ↔ key ∈ keys') :
    ((keys.foldl add a.begin).build sizeOf).map (fun built => (built.1, built.2.query))
      = ((keys'.foldl add b.begin).build sizeOf).map fun built => (built.1, built.2.query) := by
  have hnodup : ∀ (a : Atlas) (keys : List SpriteKey), (keys.foldl add a.begin).current.Nodup :=
    fun a keys => nodup_foldl_add (a := a.begin) .nil keys
  refine build_perm ((List.perm_ext_iff_of_nodup (hnodup a keys) (hnodup b keys')).mpr fun key => ?_) sizeOf
  rw [mem_foldl_add, mem_foldl_add, hsame key]
  rfl

/-- The same sprites asked for in another order, one of them twice, after another layout. -/
theorem build_discovered_again :
    let x : SpriteKey := ⟨"x.png", none, none, none, none, none⟩
    let y : SpriteKey := ⟨"y.png", none, none, none, none, none⟩
    let sizeOf : String → Option (Nat × Nat) := fun name => if name = "x.png" then some (4, 4) else some (9, 2)
    let first := ([x, y, x].foldl add empty.begin).build sizeOf
    let second := ([y, x].foldl add (begin ⟨[x], some [(x, ⟨7, 7, 1, 1⟩)]⟩)).build sizeOf
    (∀ key, key ∈ [x, y, x] ↔ key ∈ [y, x]) ∧
    first.map (fun built => (built.1, built.2.query)) = second.map (fun built => (built.1, built.2.query)) ∧
    first.map Prod.fst = .ok ⟨9, 6, [(x, ⟨0, 0, 4, 4⟩), (y, ⟨0, 4, 9, 2⟩)]⟩ := by
  intro x y sizeOf first second
  have hsame : ∀ key, key ∈ [x, y, x] ↔ key ∈ [y, x] := by
    intro key
    simp only [List.mem_cons, List.not_mem_nil, or_false]
    exact ⟨fun h => by rcases h with h | h | h <;> simp [h], fun h => by rcases h with h | h <;> simp [h]⟩
  have hbefore : before ⟨x, 4, 4⟩ ⟨y, 9, 2⟩ = true := by decide +kernel
  have hsorted : [(⟨x, 4, 4⟩ : Sized), ⟨y, 9, 2⟩].mergeSort before = [⟨x, 4, 4⟩, ⟨y, 9, 2⟩] :=
    List.mergeSort_of_pairwise (List.pairwise_pair.mpr hbefore)
  have hfirst : arrange [⟨x, 4, 4⟩, ⟨y, 9, 2⟩] = .ok ⟨9, 6, [(x, ⟨0, 0, 4, 4⟩), (y, ⟨0, 4, 9, 2⟩)]⟩ := by
    unfold arrange
    rw [hsorted]
    decide +kernel
  refine ⟨hsame, build_discovered empty ⟨[x], some [(x, ⟨7, 7, 1, 1⟩)]⟩ _ _ sizeOf hsame, ?_⟩
  change (arrange [⟨x, 4, 4⟩, ⟨y, 9, 2⟩] >>= _).map _ = _
  rw [hfirst]
  rfl

end Atlas

end Bundler

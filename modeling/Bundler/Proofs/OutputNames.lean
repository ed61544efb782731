/-
The names under which a build writes.

Some names a build makes up itself: those of the bundle, its style sheet and its image, and short names,
which are a word and the extension of some name (`ShortNames.Own`). All other output goes under a name
that was found. What a project notes for its output is of one of the two kinds (`Project.Named`): a script
that is taken over keeps its name, and an asset keeps its name or has one that was made up.

A resolver may change the short names in any way while it is asked, so it has to be one that only asks for
them (`Resolver.Tidy`).
-/
import Bundler.Proofs.Answers
import Bundler.Project

set_option autoImplicit false

namespace Bundler

namespace ShortNames

/-! ## Names that are made up -/

/-- A name that a build makes up: one that stands for itself, or a word with the extension of a name. -/
def Own (path : String) : Prop :=
  path ∈ reserved ∨ ∃ n name, path = candidate n (Text.lower (Path.extension name))

/-- Short names that are all made up, and that lie in no directory. -/
structure Sound (s : ShortNames) : Prop where
  directory : s.directory = none
  assigned : ∀ e ∈ s.assigned.toList, Own e.2

variable {s : ShortNames} {name : String}

theorem sound_ofConfig {c : Config} (h : c.outputSubDir = none) : (ofConfig c).Sound where
  directory := by
    unfold ofConfig
    rw [h]
    rfl
  assigned e he := by
    have hself : ∀ e ∈ (OrderedMap.ofList (reserved.map fun n => (n, n))).toList, e.2 ∈ reserved := by
      decide
    unfold ofConfig at he
    cases hmerged : (c.bundle == .merged) with
    | true =>
      simp only [hmerged, if_true] at he
      exact .inl (hself e he)
    | false =>
      simp only [hmerged, Bool.false_eq_true, if_false] at he
      exact absurd he List.not_mem_nil

/-- What is asked for is made up, and so are all short names afterwards. -/
theorem Sound.shortName (h : s.Sound) (name : String) :
    (s.shortName name).2.Sound ∧ (s.enabled = true → Own (s.shortName name).1) := by
  unfold ShortNames.shortName
  split
  · rename_i hdisabled
    exact ⟨h, fun henabled => absurd henabled (by simpa using hdisabled)⟩
  · cases hkey : s.assigned.get? (Text.lower name) with
    | some short =>
      simp only [hkey]
      exact ⟨h, fun _ => h.assigned _ (OrderedMap.mem_of_get? hkey)⟩
    | none =>
      simp only [hkey]
      refine ⟨⟨h.directory, fun e he => ?_⟩, fun _ => .inr ⟨_, name, rfl⟩⟩
      rcases OrderedMap.mem_insert he with rfl | hold
      · exact .inr ⟨_, name, rfl⟩
      · exact h.assigned e hold

theorem Sound.shorten (h : s.Sound) (name : String) : (s.shorten name).2.Sound := by
  rw [shorten_snd]
  exact (h.shortName name).1

/-- Where names are shortened, the output name of a name is made up. -/
theorem Sound.own_shorten (h : s.Sound) (henabled : s.enabled = true) (name : String) :
    Own (s.shorten name).1 := by
  unfold ShortNames.shorten
  simp only [henabled, Bool.not_true, Bool.false_eq_true, if_false]
  have hdirectory : (s.shortName name).2.directory = none :=
    (keeps_shortName s name).directory.trans h.directory
  unfold inDirectory
  rw [hdirectory]
  exact (h.shortName name).2 henabled

theorem shorten_of_not_enabled (h : s.enabled = false) (name : String) : (s.shorten name).1 = name := by
  unfold ShortNames.shorten
  rw [h]
  rfl

/-- The output names of the bundle, its style sheet and its image are made up. -/
theorem Sound.own_shorten_reserved (h : s.Sound) (hname : name ∈ reserved) : Own (s.shorten name).1 := by
  cases henabled : s.enabled with
  | true => exact h.own_shorten henabled name
  | false =>
    rw [shorten_of_not_enabled henabled]
    exact .inl hname

end ShortNames

namespace Resolver

/-- A resolver that only asks for short names. -/
def Tidy (r : Resolver) : Prop :=
  ∀ config asset short, short.Sound → (r.claim config asset short).2.Sound

theorem tidy_of_readyMade {r : Resolver} (h : r.ReadyMade) : r.Tidy := by
  intro config asset short hshort
  rcases h with ⟨_, _, _, rfl⟩ | ⟨_, ending, _, _, rfl⟩
  · exact hshort
  · unfold appending
    simp only
    split
    · exact (hshort.shortName asset).1
    · exact hshort

/-- Tidy resolvers leave the short names sound. -/
theorem sound_ask {resolvers : List Resolver} (h : ∀ r ∈ resolvers, r.Tidy) (config : Config)
    (asset : String) {short : ShortNames} (hshort : short.Sound) :
    (ask resolvers config asset short).2.Sound := by
  change (claims config asset resolvers short).2.Sound
  induction resolvers generalizing short with
  | nil => exact hshort
  | cons r rs ih =>
    rw [claims_cons]
    exact ih (fun q hq => h q (List.mem_cons_of_mem r hq))
      (h r List.mem_cons_self config asset short hshort)

end Resolver

namespace Project

/-! ## Names in a project -/

/-- What an asset may be called where it is delivered. -/
def IsOutput (name output : String) : Prop := ShortNames.Own output ∨ output = name

/-- A project in which all output has its own name or one that is made up. -/
structure Named (p : Project) : Prop where
  resolvers : ∀ r ∈ p.resolvers, r.Tidy
  sound : p.shortNames.Sound
  bundleJs : ∀ output ∈ p.bundleJs, ShortNames.Own output
  depJs : ∀ e ∈ p.depJs.toList, e.2 = e.1
  depAssets : ∀ e ∈ p.depAssets.toList, IsOutput e.1 e.2

variable {p : Project} {name output : String}

theorem Named.congr {p' : Project} (h : p.Named) (hresolvers : p'.resolvers = p.resolvers)
    (hshort : p'.shortNames = p.shortNames) (hbundle : p'.bundleJs = p.bundleJs)
    (hjs : p'.depJs = p.depJs) (hassets : p'.depAssets = p.depAssets) : p'.Named where
  resolvers := hresolvers ▸ h.resolvers
  sound := hshort ▸ h.sound
  bundleJs := hbundle ▸ h.bundleJs
  depJs := hjs ▸ h.depJs
  depAssets := hassets ▸ h.depAssets

theorem Named.of_shortNames {s : ShortNames} (h : p.Named) (hs : s.Sound) :
    ({ p with shortNames := s } : Project).Named :=
  ⟨h.resolvers, hs, h.bundleJs, h.depJs, h.depAssets⟩

theorem Named.shortName (h : p.Named) (name : String) : (p.shortName name).2.Named :=
  h.of_shortNames (h.sound.shortName name).1

theorem Named.shorten (h : p.Named) (name : String) : (p.shorten name).2.Named :=
  h.of_shortNames (h.sound.shorten name)

/-- A name that is shortened may be called by what comes of it. -/
theorem Named.isOutput_shorten (h : p.Named) (name : String) : IsOutput name (p.shorten name).1 := by
  cases henabled : p.shortNames.enabled with
  | true => exact .inl (h.sound.own_shorten henabled name)
  | false => exact .inr (ShortNames.shorten_of_not_enabled henabled name)

theorem Named.addAsset (h : p.Named) (houtput : IsOutput name output) :
    (p.addAsset name output).Named := by
  refine ⟨h.resolvers, h.sound, h.bundleJs, h.depJs, fun e he => ?_⟩
  rcases OrderedMap.mem_insert he with rfl | hold
  · exact houtput
  · exact h.depAssets e hold

theorem Named.addDepJs (h : p.Named) (file : String) : (p.addDepJs file).Named := by
  refine ⟨h.resolvers, h.sound, h.bundleJs, fun e he => ?_, h.depAssets⟩
  rcases OrderedMap.mem_insert he with rfl | hold
  · rfl
  · exact h.depJs e hold

/-- The name of the bundle is made up anew in each cycle. -/
private theorem named_beginCycle (hresolvers : ∀ r ∈ p.resolvers, r.Tidy) (hsound : p.shortNames.Sound)
    (hjs : ∀ e ∈ p.depJs.toList, e.2 = e.1) (hassets : ∀ e ∈ p.depAssets.toList, IsOutput e.1 e.2) :
    p.beginCycle.Named := by
  unfold Project.beginCycle
  simp only
  split
  · exact ⟨hresolvers, hsound, fun _ hnone => absurd hnone (by simp), hjs, hassets⟩
  · refine ⟨hresolvers, hsound.shorten "bundle.js", fun output houtput => ?_, hjs, hassets⟩
    obtain rfl := Option.some.inj houtput
    exact hsound.own_shorten_reserved (by decide)

theorem Named.beginCycle (h : p.Named) : p.beginCycle.Named :=
  named_beginCycle h.resolvers h.sound h.depJs h.depAssets

/-- A project is named where a build begins anew and the output goes to no directory of its own. -/
theorem named_beginAnew (hresolvers : ∀ r ∈ p.resolvers, r.Tidy) (hdir : p.config.outputSubDir = none) :
    p.clearMaps.beginCycle.Named :=
  named_beginCycle hresolvers (ShortNames.sound_ofConfig hdir) (fun _ he => absurd he List.not_mem_nil)
    fun _ he => absurd he List.not_mem_nil

/-- A project in which nothing was found yet is named, if its resolvers are ready-made ones. -/
theorem named_ofConfig {c : Config} (hdir : c.outputSubDir = none) (dir : String)
    {resolvers : List Resolver} (h : ∀ r ∈ resolvers, r.ReadyMade) :
    ({ Project.ofConfig c dir with resolvers } : Project).Named where
  resolvers r hr := Resolver.tidy_of_readyMade (h r hr)
  sound := ShortNames.sound_ofConfig hdir
  bundleJs _ hnone := absurd hnone (by simp [Project.ofConfig])
  depJs _ he := absurd he List.not_mem_nil
  depAssets _ he := absurd he List.not_mem_nil

end Project

end Bundler

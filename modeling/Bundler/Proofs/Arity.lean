/-
The law of the resolvers: what an asset call becomes depends on how many of them claim its asset.

All scripts of a program are collected first, then the answers that were due are looked at, and then one
script after the other is edited. An asset is met once for each call that mentions it, in several files,
and the values of all assets are kept in one map under their names. What carries the law through the
collection is that the claims on a name are settled when it is met first (`Resources.Collects`): each
time a name is met its value is set to what those claims make of it, and nothing sets the value of
another name. The answers that were due add the values of the names with one claim
(`Resources.settle_values`), and the edits put the values into the calls (`Resources.apply_assets`).

The main statement is `Resources.arity_law`: every asset call becomes what the number of claims on its
asset says, and the messages are one for each call whose asset is claimed more than once, whose
resolver fails or whose name is not known, and no others. A cycle collects the scripts of its program
in this way (`Session.collectProgram_ok`).
-/
import Bundler.Proofs.Answers
import Bundler.Proofs.Laws
import Bundler.Proofs.Sites

set_option autoImplicit false

namespace Bundler

open Step

/-- Both questions about the extension of a name have an answer. -/
def Path.Testable (name : String) : Prop :=
  (∃ css, Path.isCss name = .ok css) ∧ ∃ js, Path.isJs name = .ok js

instance : DecidablePred Path.Testable := fun name =>
  have hanswer (x : Except Fault Bool) : Decidable (∃ b, x = .ok b) :=
    match x with
    | .ok b => .isTrue ⟨b, rfl⟩
    | .error _ => .isFalse nofun
  have := hanswer (Path.isCss name)
  have := hanswer (Path.isJs name)
  inferInstanceAs (Decidable (_ ∧ _))

/-- What the resolvers of a project say about a name when they are asked with some short names. -/
def Project.answersAt (p : Project) (short : ShortNames) (name : String) : List (String × Resolution) :=
  (Resolver.claims p.config name p.resolvers short).1

namespace Resources

/-! ## What there is to collect -/

/-- A script of the program with what it refers to. -/
structure Source where
  file : String
  script : Script
  refs : References

/-- What a script refers to was gathered from it. -/
def Source.Gathered (s : Source) : Prop :=
  ∃ deps resolve, References.gather s.script deps resolve = .ok s.refs

/-- Collects the references of scripts one after the other. -/
def collectAll : List Source → Step Project Collected
  | [] => return .none
  | s :: ss => do
    let first ← collect s.file s.script s.refs
    return first.append (← collectAll ss)

/-- A call that mentions an asset: where it is, and the name of the asset, if it is known. -/
structure AssetCall where
  file : String
  span : Span
  name : Option String

/-- The asset calls at some places of a script. -/
def assetCalls (file : String) (script : Script) (sites : List (Nat × Option String)) :
    List AssetCall :=
  sites.map fun site => ⟨file, (script.calls[site.1]?.map Call.span).getD .none, site.2⟩

/-- The asset calls of a script. -/
def Source.assetCalls (s : Source) : List AssetCall :=
  Resources.assetCalls s.file s.script s.refs.assets

namespace AssetCall

variable (answers : String → List (String × Resolution)) (a : AssetCall)

/-- What is said about an asset call when it is collected. -/
def complaint : Option Diagnostic :=
  match a.name with
  | none => some ⟨.warning, a.file, a.span, Diagnostic.dynamicAsset,
      "Used b.asset without compile time constant - ignoring"⟩
  | some name =>
    if 2 ≤ (answers name).length then
      some ⟨.error, a.file, a.span, Diagnostic.multipleResolvers,
        "Multiple plugins handled asset " ++ name⟩
    else none

/-- The answer that is due for an asset call. -/
def due : Option Pending :=
  match a.name with
  | none => none
  | some name =>
    match answers name with
    | [(_, answer)] => some ⟨a.file, a.span, name, answer⟩
    | _ => none

/-- What is said about an asset call when the answers that were due are looked at. -/
def failure : Option Diagnostic :=
  match a.due answers with
  | none => none
  | some pending =>
    match pending.answer.settle with
    | .ok _ => none
    | .error message => some ⟨.error, a.file, a.span, Diagnostic.resolverFailed, message⟩

end AssetCall

/-! ## Collecting -/

/-- The default name of an asset that is collected while the short names go from `s` to `t`: style
sheets and scripts keep their names, and the others get the short name that was given then. -/
inductive DefaultName (config : Config) (resolvers : List Resolver) (s t : ShortNames)
    (name : String) : String → Prop
  | kept (h : Path.isCss name = .ok true ∨ Path.isJs name = .ok true) :
      DefaultName config resolvers s t name name
  | shortened (u : ShortNames) (hcss : Path.isCss name = .ok false)
      (hjs : Path.isJs name = .ok false) (before : Resolver.Later config resolvers s u)
      (after : Resolver.Later config resolvers (u.shorten name).2 t) :
      DefaultName config resolvers s t name (u.shorten name).1

/-- What collecting asset calls does to a project. The claims on a name are those that are made when it
is asked about at any time behind the collection. -/
structure Collects (calls : List AssetCall) (p : Project) (found : Collected) (q : Project) : Prop where
  config : q.config = p.config
  resolvers : q.resolvers = p.resolvers
  later : Resolver.Later p.config p.resolvers p.shortNames q.shortNames
  said : ∀ t, Resolver.Later p.config p.resolvers q.shortNames t →
    found.diagnostics = calls.filterMap (AssetCall.complaint (p.answersAt t)) ∧
      found.pending = calls.filterMap (AssetCall.due (p.answersAt t))
  others : ∀ name, (∀ a ∈ calls, a.name ≠ some name) →
    q.assetValues.get? name = p.assetValues.get? name ∧ q.depAssets.get? name = p.depAssets.get? name
  unclaimed : ∀ t, Resolver.Later p.config p.resolvers q.shortNames t → ∀ a ∈ calls, ∀ name,
    a.name = some name → p.answersAt t name = [] → ∃ output, q.assetValues.get? name = some output ∧
      q.depAssets.get? name = some output ∧
      DefaultName p.config p.resolvers p.shortNames q.shortNames name output
  claimed : ∀ t, Resolver.Later p.config p.resolvers q.shortNames t → ∀ name,
    (p.answersAt t name).length = 1 → q.assetValues.get? name = p.assetValues.get? name
  conflicting : ∀ t, Resolver.Later p.config p.resolvers q.shortNames t → ∀ a ∈ calls, ∀ name,
    a.name = some name → 2 ≤ (p.answersAt t name).length → q.assetValues.get? name = some name

variable {p q r : Project} {start s t u : ShortNames} {config : Config} {resolvers : List Resolver}
  {name output : String}

theorem DefaultName.mono (h : DefaultName config resolvers s t name output)
    (hbefore : Resolver.Later config resolvers start s)
    (hafter : Resolver.Later config resolvers t u) :
    DefaultName config resolvers start u name output := by
  cases h with
  | kept h => exact .kept h
  | shortened v hcss hjs before after =>
    exact .shortened v hcss hjs (hbefore.trans before) (after.trans hafter)

/-- Where no short name is taken back, the default name is what the short names say in the end. -/
theorem DefaultName.eq_shorten (h : DefaultName config resolvers s t name output)
    (hkeeping : Resolver.Keeping config resolvers) (hcss : Path.isCss name = .ok false)
    (hjs : Path.isJs name = .ok false) : output = (t.shorten name).1 := by
  cases h with
  | kept h =>
    rw [hcss, hjs] at h
    simp at h
  | shortened v _ _ _ after => exact (after.keeps hkeeping).shorten_eq.symm

/-- Nothing that matters for assets changes. -/
theorem Collects.nil (hconfig : q.config = p.config) (hresolvers : q.resolvers = p.resolvers)
    (hshort : q.shortNames = p.shortNames) (hvalues : q.assetValues = p.assetValues)
    (hassets : q.depAssets = p.depAssets) : Collects [] p .none q where
  config := hconfig
  resolvers := hresolvers
  later := by
    rw [hshort]
    exact .refl
  said _ _ := ⟨rfl, rfl⟩
  others name _ := ⟨by rw [hvalues], by rw [hassets]⟩
  unclaimed _ _ a ha := absurd ha List.not_mem_nil
  claimed _ _ name _ := by rw [hvalues]
  conflicting _ _ a ha := absurd ha List.not_mem_nil

/-- One part is collected behind the other. A name that the second part mentions has its value from
there, any other from the first. -/
theorem Collects.append {calls calls' : List AssetCall} {found found' : Collected}
    (h : Collects calls p found q) (h' : Collects calls' q found' r) :
    Collects (calls ++ calls') p (found.append found') r := by
  have hanswers : ∀ t, q.answersAt t = p.answersAt t := fun t => by
    funext name
    unfold Project.answersAt
    rw [h.config, h.resolvers]
  have hlater := h'.later
  rw [h.config, h.resolvers] at hlater
  have hback : ∀ t, Resolver.Later p.config p.resolvers r.shortNames t →
      Resolver.Later p.config p.resolvers q.shortNames t := fun t ht => hlater.trans ht
  have hforth : ∀ t, Resolver.Later p.config p.resolvers r.shortNames t →
      Resolver.Later q.config q.resolvers r.shortNames t := fun t ht => by
    rwa [h.config, h.resolvers]
  refine ⟨h'.config.trans h.config, h'.resolvers.trans h.resolvers, h.later.trans hlater,
    fun t ht => ?_, fun name hname => ?_, fun t ht a ha name hname hnone => ?_,
    fun t ht name hone => ?_, fun t ht a ha name hname htwo => ?_⟩
  · obtain ⟨hsaid, hdue⟩ := h.said t (hback t ht)
    obtain ⟨hsaid', hdue'⟩ := h'.said t (hforth t ht)
    rw [hanswers] at hsaid' hdue'
    simp only [Collected.append, hsaid, hsaid', hdue, hdue', List.filterMap_append, and_self]
  · obtain ⟨hvalue, hasset⟩ := h.others name fun a ha => hname a (List.mem_append_left _ ha)
    obtain ⟨hvalue', hasset'⟩ := h'.others name fun a ha => hname a (List.mem_append_right _ ha)
    exact ⟨hvalue'.trans hvalue, hasset'.trans hasset⟩
  · by_cases hmem : ∃ b ∈ calls', b.name = some name
    · obtain ⟨b, hb, hbname⟩ := hmem
      obtain ⟨output, hvalue, hasset, hdefault⟩ :=
        h'.unclaimed t (hforth t ht) b hb name hbname (by rw [hanswers, hnone])
      rw [h.config, h.resolvers] at hdefault
      exact ⟨output, hvalue, hasset, hdefault.mono h.later .refl⟩
    · have hfirst : a ∈ calls := (List.mem_append.mp ha).resolve_right fun hb => hmem ⟨a, hb, hname⟩
      obtain ⟨output, hvalue, hasset, hdefault⟩ := h.unclaimed t (hback t ht) a hfirst name hname hnone
      obtain ⟨hvalue', hasset'⟩ := h'.others name fun b hb hbname => hmem ⟨b, hb, hbname⟩
      exact ⟨output, hvalue'.trans hvalue, hasset'.trans hasset, hdefault.mono .refl hlater⟩
  · exact (h'.claimed t (hforth t ht) name (by rw [hanswers, hone])).trans
      (h.claimed t (hback t ht) name hone)
  · by_cases hmem : ∃ b ∈ calls', b.name = some name
    · obtain ⟨b, hb, hbname⟩ := hmem
      exact h'.conflicting t (hforth t ht) b hb name hbname (by rw [hanswers]; exact htwo)
    · have hfirst : a ∈ calls := (List.mem_append.mp ha).resolve_right fun hb => hmem ⟨a, hb, hname⟩
      rw [(h'.others name fun b hb hbname => hmem ⟨b, hb, hbname⟩).1]
      exact h.conflicting t (hback t ht) a hfirst name hname htwo

/-- The resolvers of a project are consistent from some short names on, and its own were made from
those. This is what holds between one asset call and the next. -/
structure Answering (start : ShortNames) (p : Project) : Prop where
  consistent : Resolver.Consistent p.config p.resolvers start
  later : Resolver.Later p.config p.resolvers start p.shortNames

theorem Collects.answering {calls : List AssetCall} {found : Collected} (h : Collects calls p found q)
    (hp : Answering start p) : Answering start q where
  consistent := by
    rw [h.config, h.resolvers]
    exact hp.consistent
  later := by
    rw [h.config, h.resolvers]
    exact hp.later.trans h.later

/-- What is done for one call is right if it fits the claims on the name of its asset. -/
private theorem Collects.single {file : String} {span : Span} {found : Collected}
    {claims : List (String × Resolution)} (hconfig : q.config = p.config)
    (hresolvers : q.resolvers = p.resolvers)
    (hlater : Resolver.Later p.config p.resolvers p.shortNames q.shortNames)
    (hsame : ∀ t, Resolver.Later p.config p.resolvers q.shortNames t → p.answersAt t name = claims)
    (hsaid : found.diagnostics =
      [⟨file, span, some name⟩].filterMap (AssetCall.complaint fun _ => claims))
    (hdue : found.pending = [⟨file, span, some name⟩].filterMap (AssetCall.due fun _ => claims))
    (hothers : ∀ other, name ≠ other → q.assetValues.get? other = p.assetValues.get? other ∧
      q.depAssets.get? other = p.depAssets.get? other)
    (hunclaimed : claims = [] → ∃ output, q.assetValues.get? name = some output ∧
      q.depAssets.get? name = some output ∧
      DefaultName p.config p.resolvers p.shortNames q.shortNames name output)
    (hclaimed : claims.length = 1 → q.assetValues.get? name = p.assetValues.get? name)
    (hconflicting : 2 ≤ claims.length → q.assetValues.get? name = some name) :
    Collects [⟨file, span, some name⟩] p found q := by
  refine ⟨hconfig, hresolvers, hlater, fun t ht => ?_, fun other hother => ?_,
    fun t ht a ha n hn hnone => ?_, fun t ht n hone => ?_, fun t ht a ha n hn htwo => ?_⟩
  · simp only [hsaid, hdue, List.filterMap, AssetCall.complaint, AssetCall.due, hsame t ht, and_self]
  · exact hothers other fun heq =>
      hother ⟨file, span, some name⟩ (List.mem_singleton.mpr rfl) (congrArg some heq)
  · obtain rfl := List.mem_singleton.mp ha
    obtain rfl : name = n := Option.some.inj hn
    exact hunclaimed (by rwa [← hsame t ht])
  · by_cases heq : name = n
    · subst heq
      exact hclaimed (by rwa [← hsame t ht])
    · exact (hothers n heq).1
  · obtain rfl := List.mem_singleton.mp ha
    obtain rfl : name = n := Option.some.inj hn
    exact hconflicting (by rwa [← hsame t ht])

/-- An asset that nobody claims gets its default name. -/
private theorem defaultName_ok (p : Project) (htestable : Path.Testable name) :
    ∃ output q, defaultName name p = .ok output q ∧
      (q = p ∧ output = name ∧ (Path.isCss name = .ok true ∨ Path.isJs name = .ok true) ∨
        q = (p.shorten name).2 ∧ output = (p.shortNames.shorten name).1 ∧
          Path.isCss name = .ok false ∧ Path.isJs name = .ok false) := by
  obtain ⟨⟨css, hcss⟩, js, hjs⟩ := htestable
  have hopen : defaultName name p =
      (if css || js then pure name else modifyGet fun p => p.shorten name : Step Project String) p := by
    unfold defaultName
    rw [hcss, hjs]
    rfl
  rw [hopen]
  cases css with
  | true => exact ⟨name, p, rfl, .inl ⟨rfl, rfl, .inl hcss⟩⟩
  | false =>
    cases js with
    | true => exact ⟨name, p, rfl, .inl ⟨rfl, rfl, .inr hjs⟩⟩
    | false => exact ⟨_, _, rfl, .inr ⟨rfl, rfl, hcss, hjs⟩⟩

section

variable {file : String} {span : Span} {short : ShortNames}

/-- What no resolver claims gets its default name. -/
private theorem collectAsset_unclaimed
    (h : Resolver.ask p.resolvers p.config name p.shortNames = (.unclaimed, short)) :
    collectAsset file span name p = (do
      let output ← defaultName name
      modify fun p => { p.addAsset name output with assetValues := p.assetValues.insert name output }
      return .none : Step Project Collected) { p with shortNames := short } := by
  unfold collectAsset
  refine (bind_of_ok (a := Resolver.Outcome.unclaimed)
    (t := { p with shortNames := short }) ?_).trans rfl
  refine (modifyGet_ok_iff _ _ _ _).mpr ?_
  rw [h]
  exact ⟨rfl, rfl⟩

/-- The one answer to an asset is what is found. -/
private theorem collectAsset_resolved {resolver : String} {answer : Resolution}
    (h : Resolver.ask p.resolvers p.config name p.shortNames = (.resolved resolver answer, short)) :
    collectAsset file span name p =
      .ok ⟨[], [⟨file, span, name, answer⟩]⟩ { p with shortNames := short } := by
  unfold collectAsset
  refine (bind_of_ok (a := Resolver.Outcome.resolved resolver answer)
    (t := { p with shortNames := short }) ?_).trans rfl
  refine (modifyGet_ok_iff _ _ _ _).mpr ?_
  rw [h]
  exact ⟨rfl, rfl⟩

/-- What several resolvers claim keeps its name, which is reported. -/
private theorem collectAsset_conflict {resolvers : List String}
    (h : Resolver.ask p.resolvers p.config name p.shortNames = (.conflict resolvers, short)) :
    collectAsset file span name p =
      .ok (.say ⟨.error, file, span, Diagnostic.multipleResolvers,
          "Multiple plugins handled asset " ++ name⟩)
        { p with shortNames := short, assetValues := p.assetValues.insert name name } := by
  unfold collectAsset
  refine (bind_of_ok (a := Resolver.Outcome.conflict resolvers)
    (t := { p with shortNames := short }) ?_).trans rfl
  refine (modifyGet_ok_iff _ _ _ _).mpr ?_
  rw [h]
  exact ⟨rfl, rfl⟩

end

/-- An asset call with a known name is collected. The claims that are made now are the ones that are
made whenever the name is asked about again. -/
private theorem collectAsset_ok (hp : Answering start p) (file : String) (span : Span)
    (htestable : Path.Testable name) :
    ∃ found q, collectAsset file span name p = .ok found q ∧
      Collects [⟨file, span, some name⟩] p found q := by
  obtain ⟨claims, hclaims⟩ : ∃ claims, p.answersAt p.shortNames name = claims := ⟨_, rfl⟩
  have hasked : ∀ r ∈ p.resolvers, r ∈ p.resolvers := fun _ hr => hr
  obtain ⟨short, hshort⟩ :
      ∃ short, (Resolver.claims p.config name p.resolvers p.shortNames).2 = short := ⟨_, rfl⟩
  have hfirst : Resolver.Later p.config p.resolvers p.shortNames short :=
    hshort ▸ Resolver.later_claims name hasked
  have hsame : ∀ t, Resolver.Later p.config p.resolvers short t → p.answersAt t name = claims := by
    intro t ht
    rw [← hclaims]
    exact hp.consistent.claims_again hasked hp.later (by rwa [hshort])
  have hask : Resolver.ask p.resolvers p.config name p.shortNames
      = (Resolver.Outcome.ofClaims claims, short) := by
    rw [← hclaims, ← hshort]
    rfl
  rcases claims with _ | ⟨⟨resolver, answer⟩, _ | ⟨second, rest⟩⟩
  · rw [collectAsset_unclaimed hask]
    obtain ⟨output, q, hdefault, hcases⟩ := defaultName_ok { p with shortNames := short } htestable
    refine ⟨.none, { q.addAsset name output with
      assetValues := q.assetValues.insert name output }, ?_, ?_⟩
    · rw [bind_of_ok hdefault]
      rfl
    -- In both cases the project is what it was, up to the short names.
    obtain ⟨t, ht, hq, hname⟩ : ∃ t, Resolver.Later p.config p.resolvers short t ∧
        q = { p with shortNames := t } ∧
        DefaultName p.config p.resolvers p.shortNames t name output := by
      rcases hcases with ⟨rfl, rfl, htest⟩ | ⟨rfl, rfl, hcss, hjs⟩
      · exact ⟨short, .refl, rfl, .kept htest⟩
      · exact ⟨_, Resolver.Later.refl.shorten name, rfl, .shortened short hcss hjs hfirst .refl⟩
    subst hq
    refine .single rfl rfl (hfirst.trans ht) (fun u hu => hsame u (ht.trans hu)) rfl rfl
      (fun other hne => ?_) (fun _ => ⟨output, ?_, ?_, hname⟩) (by simp) (by simp)
    · simp [Project.addAsset, OrderedMap.get?_insert, hne]
    · simp [OrderedMap.get?_insert]
    · simp [Project.addAsset, OrderedMap.get?_insert]
  · exact ⟨_, _, collectAsset_resolved hask, .single rfl rfl hfirst hsame rfl rfl
      (fun _ _ => ⟨rfl, rfl⟩) (by simp) (fun _ => rfl) (by simp)⟩
  · refine ⟨_, _, collectAsset_conflict hask, .single rfl rfl hfirst hsame ?_ rfl
      (fun other hne => ⟨?_, rfl⟩) (by simp) (by simp) fun _ => ?_⟩
    · simp [AssetCall.complaint, Collected.say]
    · simp [OrderedMap.get?_insert, hne]
    · simp [OrderedMap.get?_insert]

/-- An asset call is collected. -/
def collectSite (file : String) (span : Span) : Option String → Step Project Collected
  | some name => collectAsset file span name
  | none => return .say ⟨.warning, file, span, Diagnostic.dynamicAsset,
      "Used b.asset without compile time constant - ignoring"⟩

private theorem collectAssets_cons (file : String) (script : Script) (call : Nat)
    (name : Option String) (sites : List (Nat × Option String)) :
    collectAssets file script ((call, name) :: sites) = (do
      let first ← collectSite file ((script.calls[call]?.map Call.span).getD .none) name
      return first.append (← collectAssets file script sites)) := by
  cases name <;> rfl

private theorem collectSite_ok (hp : Answering start p) (file : String) (span : Span)
    (site : Option String) (htestable : ∀ name ∈ site, Path.Testable name) :
    ∃ found q, collectSite file span site p = .ok found q ∧
      Collects [⟨file, span, site⟩] p found q := by
  cases site with
  | none =>
    refine ⟨_, p, rfl, rfl, rfl, .refl, fun _ _ => ⟨rfl, rfl⟩, fun _ _ => ⟨rfl, rfl⟩,
      fun _ _ a ha n hn => ?_, fun _ _ _ _ => rfl, fun _ _ a ha n hn => ?_⟩
    · obtain rfl := List.mem_singleton.mp ha
      cases hn
    · obtain rfl := List.mem_singleton.mp ha
      cases hn
  | some name => exact collectAsset_ok hp file span (htestable name rfl)

/-- The asset calls of a script are collected one after the other. -/
private theorem collectAssets_ok (file : String) (script : Script) :
    ∀ (sites : List (Nat × Option String)) (p : Project), Answering start p →
      (∀ site ∈ sites, ∀ name ∈ site.2, Path.Testable name) →
      ∃ found q, collectAssets file script sites p = .ok found q ∧
        Collects (assetCalls file script sites) p found q
  | [], p, _, _ => ⟨.none, p, rfl, .nil rfl rfl rfl rfl rfl⟩
  | (call, site) :: sites, p, hp, htestable => by
    obtain ⟨first, q, hfirst, hcollects⟩ := collectSite_ok hp file
      ((script.calls[call]?.map Call.span).getD .none) site (htestable _ List.mem_cons_self)
    obtain ⟨rest, r, hrest, hcollects'⟩ := collectAssets_ok file script sites q
      (hcollects.answering hp) fun site hsite => htestable site (List.mem_cons_of_mem _ hsite)
    refine ⟨first.append rest, r, ?_, hcollects.append hcollects'⟩
    rw [collectAssets_cons, bind_of_ok hfirst, bind_of_ok hrest]
    rfl

private theorem collect_ok (source : Source) (hp : Answering start p)
    (htestable : ∀ site ∈ source.refs.assets, ∀ name ∈ site.2, Path.Testable name) :
    ∃ found q, collect source.file source.script source.refs p = .ok found q ∧
      Collects source.assetCalls p found q := by
  have hbefore : Collects [] p .none
      (collectMessages source.file source.refs (collectSprites source.refs p)) := by
    unfold collectMessages collectSprites
    refine Collects.nil ?_ ?_ ?_ ?_ ?_
    all_goals
      split
      · split <;> rfl
      · split <;> rfl
  obtain ⟨found, q, hok, hcollects⟩ := collectAssets_ok source.file source.script source.refs.assets _
    (hbefore.answering hp) htestable
  exact ⟨found, q, hok, hbefore.append hcollects⟩

/-- All scripts are collected. -/
theorem collectAll_ok : ∀ (sources : List Source) (p : Project), Answering start p →
    (∀ s ∈ sources, ∀ site ∈ s.refs.assets, ∀ name ∈ site.2, Path.Testable name) →
    ∃ found q, collectAll sources p = .ok found q ∧
      Collects (sources.flatMap Source.assetCalls) p found q
  | [], p, _, _ => ⟨.none, p, rfl, .nil rfl rfl rfl rfl rfl⟩
  | source :: sources, p, hp, htestable => by
    obtain ⟨first, q, hfirst, hcollects⟩ :=
      collect_ok source hp (htestable source List.mem_cons_self)
    obtain ⟨rest, r, hrest, hcollects'⟩ := collectAll_ok sources q (hcollects.answering hp)
      fun s hs => htestable s (List.mem_cons_of_mem _ hs)
    refine ⟨first.append rest, r, ?_, ?_⟩
    · rw [collectAll, bind_of_ok hfirst, bind_of_ok hrest]
      rfl
    · rw [List.flatMap_cons]
      exact hcollects.append hcollects'

/-! ## The answers that were due -/

/-- Looking at answers changes the values of their assets only. A name whose answers are failures
keeps its value, and one whose answers are all one value gets that value. -/
theorem settle_values (pending : List Pending) (p : Project) :
    (settle p pending).1 = { p with assetValues := (settle p pending).1.assetValues } ∧
    (∀ name, (∀ a ∈ pending, a.name = name → ∃ message, a.answer.settle = .error message) →
      (settle p pending).1.assetValues.get? name = p.assetValues.get? name) ∧
    ∀ name value, (∃ a ∈ pending, a.name = name) →
      (∀ a ∈ pending, a.name = name → a.answer.settle = .ok value) →
      (settle p pending).1.assetValues.get? name = some value := by
  induction pending generalizing p with
  | nil => exact ⟨rfl, fun _ _ => rfl, fun _ _ ⟨a, ha, _⟩ => absurd ha List.not_mem_nil⟩
  | cons a as ih =>
    obtain ⟨hrest, hkept, hset⟩ := ih (settleOne p a).1
    have hopen : (settle p (a :: as)).1 = (settle (settleOne p a).1 as).1 := rfl
    have hone : (settleOne p a).1 = { p with assetValues := (settleOne p a).1.assetValues } := by
      unfold settleOne
      split <;> rfl
    have hother : ∀ name, (a.name = name → ∃ message, a.answer.settle = .error message) →
        (settleOne p a).1.assetValues.get? name = p.assetValues.get? name := by
      intro name hname
      unfold settleOne
      cases hanswer : a.answer.settle with
      | error message => rfl
      | ok value =>
        have hne : a.name ≠ name := fun heq => by
          obtain ⟨message, herror⟩ := hname heq
          rw [hanswer] at herror
          cases herror
        simp [OrderedMap.get?_insert, hne]
    rw [hopen]
    refine ⟨by rw [hrest, hone], fun name hname => ?_, fun name value hex hall => ?_⟩
    · rw [hkept name fun b hb => hname b (List.mem_cons_of_mem _ hb)]
      exact hother name (hname a List.mem_cons_self)
    · have hlater : ∀ b ∈ as, b.name = name → b.answer.settle = .ok value := fun b hb =>
        hall b (List.mem_cons_of_mem _ hb)
      by_cases hmem : ∃ b ∈ as, b.name = name
      · exact hset name value hmem hlater
      · -- The last answer for the name is the first of the list.
        obtain ⟨b, hb, hbname⟩ := hex
        have hab : b = a := (List.mem_cons.mp hb).resolve_right fun hb => hmem ⟨b, hb, hbname⟩
        subst hab
        rw [hkept name fun c hc hcname => absurd ⟨c, hc, hcname⟩ hmem]
        unfold settleOne
        rw [hall b List.mem_cons_self hbname]
        simp [OrderedMap.get?_insert, hbname]

/-- A failure is said where it is due. -/
private theorem settle_said (p : Project) (answers : String → List (String × Resolution)) :
    ∀ calls : List AssetCall, (settle p (calls.filterMap (AssetCall.due answers))).2
      = calls.filterMap (AssetCall.failure answers) := by
  intro calls
  induction calls generalizing p with
  | nil => rfl
  | cons a calls ih =>
    cases hdue : a.due answers with
    | none =>
      have hfailure : a.failure answers = none := by simp only [AssetCall.failure, hdue]
      rw [List.filterMap_cons_none hdue, List.filterMap_cons_none hfailure]
      exact ih p
    | some pending =>
      have hplace : pending.file = a.file ∧ pending.span = a.span := by
        unfold AssetCall.due at hdue
        cases hname : a.name with
        | none => simp [hname] at hdue
        | some name =>
          simp only [hname] at hdue
          split at hdue
          · cases hdue
            exact ⟨rfl, rfl⟩
          · cases hdue
      rw [List.filterMap_cons_some hdue]
      change (settleOne p pending).2 ++ (settle (settleOne p pending).1 _).2 = _
      rw [ih]
      unfold settleOne
      cases hanswer : pending.answer.settle with
      | ok value =>
        have hfailure : a.failure answers = none := by simp only [AssetCall.failure, hdue, hanswer]
        rw [List.filterMap_cons_none hfailure]
        rfl
      | error message =>
        have hfailure : a.failure answers = some ⟨.error, a.file, a.span, Diagnostic.resolverFailed,
            message⟩ := by simp only [AssetCall.failure, hdue, hanswer]
        rw [List.filterMap_cons_some hfailure, hplace.1, hplace.2]
        rfl

/-! ## The law -/

/-- A script has a call that mentions an asset. -/
def Source.Mentions (s : Source) (call : Nat) (name : Option String) (c : Call) : Prop :=
  (call, name) ∈ s.refs.assets ∧ s.script.calls[call]? = some c

/-- What the asset calls of a script have become, where a project `p` was collected and is `settled`
now. The claims on an asset are the ones that its resolvers make now, which are those they made when
they were asked for the first time. -/
structure Arity (p settled : Project) (s : Source) (e : Editing) : Prop where
  /-- Nobody claims the asset: it has its default name and is delivered under it. -/
  unclaimed : ∀ call name c, s.Mentions call (some name) c → p.answersAt settled.shortNames name = [] →
    ∃ output, DefaultName p.config p.resolvers p.shortNames settled.shortNames name output ∧
      settled.depAssets.get? name = some output ∧ e.script.calls[call]? = some (c.withValue output)
  /-- One resolver claims it, now or later, and has a value for it. -/
  resolved : ∀ call name c resolver answer value, s.Mentions call (some name) c →
    p.answersAt settled.shortNames name = [(resolver, answer)] → answer.settle = .ok value →
    e.script.calls[call]? = some (c.withValue value)
  /-- One resolver claims it and fails. -/
  failed : ∀ call name c resolver answer message, s.Mentions call (some name) c →
    p.answersAt settled.shortNames name = [(resolver, answer)] → answer.settle = .error message →
    e.script.calls[call]? = some c
  /-- Several resolvers claim it: it has its own name. -/
  conflicting : ∀ call name c, s.Mentions call (some name) c →
    2 ≤ (p.answersAt settled.shortNames name).length → e.script.calls[call]? = some (c.withValue name)
  /-- The name is known at run time only. -/
  dynamic : ∀ call c, s.Mentions call none c → e.script.calls[call]? = some c

/-- The values that assets have when the answers that were due have been looked at. -/
private theorem values_settled {calls : List AssetCall} {found : Collected}
    (hfresh : p.assetValues = .empty) (h : Collects calls p found q) {a : AssetCall} (ha : a ∈ calls)
    (hname : a.name = some name) :
    (p.answersAt q.shortNames name = [] →
      ∃ output, DefaultName p.config p.resolvers p.shortNames q.shortNames name output ∧
        q.depAssets.get? name = some output ∧
        (settle q found.pending).1.assetValues.get? name = some output) ∧
    (∀ resolver answer value, p.answersAt q.shortNames name = [(resolver, answer)] →
      answer.settle = .ok value → (settle q found.pending).1.assetValues.get? name = some value) ∧
    (∀ resolver answer message, p.answersAt q.shortNames name = [(resolver, answer)] →
      answer.settle = .error message → (settle q found.pending).1.assetValues.get? name = none) ∧
    (2 ≤ (p.answersAt q.shortNames name).length →
      (settle q found.pending).1.assetValues.get? name = some name) := by
  obtain ⟨-, hdue⟩ := h.said q.shortNames .refl
  rw [hdue]
  obtain ⟨-, hkept, hset⟩ :=
    settle_values (calls.filterMap (AssetCall.due (p.answersAt q.shortNames))) q
  have hanswer : ∀ b ∈ calls.filterMap (AssetCall.due (p.answersAt q.shortNames)), b.name = name →
      ∃ resolver, p.answersAt q.shortNames name = [(resolver, b.answer)] := by
    intro b hb hbname
    obtain ⟨c, -, hc⟩ := List.mem_filterMap.mp hb
    unfold AssetCall.due at hc
    cases hcname : c.name with
    | none => simp [hcname] at hc
    | some n =>
      simp only [hcname] at hc
      split at hc
      · rename_i resolver answer hclaims
        cases hc
        exact ⟨resolver, by rw [← hbname]; exact hclaims⟩
      · cases hc
  -- Without exactly one claim nothing is due, and the value is the one that was collected.
  have hnone : (p.answersAt q.shortNames name).length ≠ 1 →
      (settle q (calls.filterMap (AssetCall.due (p.answersAt q.shortNames)))).1.assetValues.get? name
        = q.assetValues.get? name := by
    intro hlength
    refine hkept name fun b hb hbname => ?_
    obtain ⟨resolver, hone⟩ := hanswer b hb hbname
    rw [hone] at hlength
    exact absurd rfl hlength
  refine ⟨fun hempty => ?_, fun resolver answer value hone hok => ?_,
    fun resolver answer message hone herror => ?_, fun htwo => ?_⟩
  · obtain ⟨output, hvalue, hasset, hdefault⟩ := h.unclaimed q.shortNames .refl a ha name hname hempty
    exact ⟨output, hdefault, hasset, (hnone (by simp [hempty])).trans hvalue⟩
  · refine hset name value ⟨⟨a.file, a.span, name, answer⟩, List.mem_filterMap.mpr ⟨a, ha, ?_⟩, rfl⟩
      fun b hb hbname => ?_
    · simp only [AssetCall.due, hname, hone]
    · obtain ⟨resolver', hone'⟩ := hanswer b hb hbname
      rw [hone] at hone'
      cases hone'
      exact hok
  · rw [hkept name fun b hb hbname => ?_, h.claimed q.shortNames .refl name (by rw [hone]; rfl), hfresh]
    · rfl
    · obtain ⟨resolver', hone'⟩ := hanswer b hb hbname
      rw [hone] at hone'
      cases hone'
      exact ⟨message, herror⟩
  · rw [hnone (by omega)]
    exact h.conflicting q.shortNames .refl a ha name hname htwo

/-- The law of the resolvers. Let resolvers be consistent from the start of the collection on, and no
asset have a value yet, as when a cycle begins. Then all scripts are collected and the answers that were
due are looked at, and whatever happens to the project besides the values of assets until a script is
edited, and whatever was edited in the script besides its calls: the edits come to an end, each asset
call becomes what the number of claims on its asset says, and the messages are those of the asset calls,
in order. -/
theorem arity_law {p : Project} {sources : List Source} (hfresh : p.assetValues = .empty)
    (hconsistent : Resolver.Consistent p.config p.resolvers p.shortNames)
    (hgathered : ∀ s ∈ sources, s.Gathered)
    (htestable : ∀ s ∈ sources, ∀ site ∈ s.refs.assets, ∀ name ∈ site.2, Path.Testable name) :
    ∃ found collected, collectAll sources p = .ok found collected ∧
    ∃ settled said, settle collected found.pending = (settled, said) ∧
      found.diagnostics ++ said =
        (sources.flatMap Source.assetCalls).filterMap
          (AssetCall.complaint (p.answersAt settled.shortNames)) ++
        (sources.flatMap Source.assetCalls).filterMap
          (AssetCall.failure (p.answersAt settled.shortNames)) ∧
      ∀ s ∈ sources, ∀ (later : Project) (before : Editing),
        later.assetValues = settled.assetValues → before.script.calls = s.script.calls →
        ∃ e after, apply s.file s.refs before later = .ok e after ∧
          after.assetValues = settled.assetValues ∧ Arity p settled s e := by
  obtain ⟨found, q, hcollect, hcollects⟩ := collectAll_ok sources p ⟨hconsistent, .refl⟩ htestable
  obtain ⟨hsettled, -, -⟩ := settle_values found.pending q
  obtain ⟨settled, hsame⟩ : ∃ settled, (settle q found.pending).1 = settled := ⟨_, rfl⟩
  have hshort : settled.shortNames = q.shortNames := by rw [← hsame, hsettled]
  have hassets : settled.depAssets = q.depAssets := by rw [← hsame, hsettled]
  refine ⟨found, q, hcollect, settled, (settle q found.pending).2, by rw [← hsame], ?_, ?_⟩
  · obtain ⟨hsaid, hdue⟩ := hcollects.said q.shortNames .refl
    rw [hshort, hsaid, hdue, settle_said]
  · intro s hs later before hvalues hcalls
    obtain ⟨deps, resolve, hgather⟩ := hgathered s hs
    have hrefs := References.gatheredFrom_of_gather hgather
    rw [← hcalls] at hrefs
    obtain ⟨e, after, happly, hafter, hset⟩ := apply_assets s.file later hrefs
    refine ⟨e, after, happly, hafter.trans hvalues, ?_⟩
    have hcall : ∀ call name c, s.Mentions call name c → e.script.calls[call]?
        = some (((name.bind settled.assetValues.get?).map c.withValue).getD c) := by
      intro call name c hmentions
      rw [← hvalues]
      exact hset call name c hmentions.1 (by rw [hcalls]; exact hmentions.2)
    have hvalue : ∀ call name c, s.Mentions call (some name) c → _ := fun call name c hmentions =>
      values_settled hfresh hcollects (a := ⟨s.file, (s.script.calls[call]?.map Call.span).getD .none,
        some name⟩) (List.mem_flatMap.mpr ⟨s, hs, List.mem_map.mpr ⟨_, hmentions.1, rfl⟩⟩) rfl
    rw [hsame, ← hshort, ← hassets] at hvalue
    refine ⟨fun call name c hmentions hnone => ?_,
      fun call name c resolver answer value hmentions hone hok => ?_,
      fun call name c resolver answer message hmentions hone herror => ?_,
      fun call name c hmentions htwo => ?_, fun call c hmentions => ?_⟩
    · obtain ⟨output, hdefault, hasset, hoption⟩ := (hvalue call name c hmentions).1 hnone
      exact ⟨output, hdefault, hasset, by simp [hcall call _ c hmentions, hoption]⟩
    · have hoption := (hvalue call name c hmentions).2.1 resolver answer value hone hok
      simp [hcall call _ c hmentions, hoption]
    · have hoption := (hvalue call name c hmentions).2.2.1 resolver answer message hone herror
      simp [hcall call _ c hmentions, hoption]
    · have hoption := (hvalue call name c hmentions).2.2.2 htwo
      simp [hcall call _ c hmentions, hoption]
    · exact hcall call none c hmentions

/-- Two files that share an asset. -/
def twoFiles : List Source :=
  let ask (args : List Expr) : Call := ⟨some "b", "asset", args, .none, none, false⟩
  [⟨"a.ts", ⟨"a.ts", "", [], [ask [.str "logo.png"], ask [.str "x.dat", .bool true], ask [.raw "name"]],
        [], []⟩,
      ⟨[], [⟨0, .asset (some "logo.png")⟩, ⟨1, .asset (some "x.dat")⟩, ⟨2, .asset none⟩]⟩⟩,
    ⟨"b.ts", ⟨"b.ts", "", [], [ask [.str "x.tar.gz"], ask [.str "logo.png"], ask [.str "x.txt"]], [], []⟩,
      ⟨[], [⟨0, .asset (some "x.tar.gz")⟩, ⟨1, .asset (some "logo.png")⟩,
        ⟨2, .asset (some "x.txt")⟩]⟩⟩]

/-- A project with short names and four resolvers, two of which claim the same names. -/
def disputed : Project :=
  { Project.ofConfig { Config.default with bundle := .merged } "" with
    resolvers :=
      [.appending "data" ".dat" "data/" fun name => .deferred (.ok name),
        .fixed "archives" ".gz" (.ready (.ok "x")), .fixed "tars" ".tar.gz" (.deferred (.error "no tar")),
        .fixed "texts" ".txt" (.deferred (.error "no text"))] }

/-- The short names of that project when the two files have been collected. -/
def disputedNames : ShortNames where
  enabled := true
  directory := none
  assigned := .ofList
    [("bundle.js", "bundle.js"), ("bundle.css", "bundle.css"), ("bundle.png", "bundle.png"),
      ("logo.png", "a.png"), ("x.dat", "b.dat")]
  counter := 2

theorem arity_law_twoFiles :
    ∃ found collected settled said a b inA inB, collectAll twoFiles disputed = .ok found collected ∧
      settle collected found.pending = (settled, said) ∧
      (found.diagnostics ++ said).map (fun d => (d.severity, d.file, d.code)) =
        [(.warning, "a.ts", Diagnostic.dynamicAsset), (.error, "b.ts", Diagnostic.multipleResolvers),
          (.error, "b.ts", Diagnostic.resolverFailed)] ∧
      (∀ s ∈ twoFiles[0]?, apply s.file s.refs (.start s.script) settled = .ok a inA) ∧
      (∀ s ∈ twoFiles[1]?, apply s.file s.refs (.start s.script) settled = .ok b inB) ∧
      [0, 1, 2].map (fun call => a.script.calls[call]?.map Call.args)
        = [some [.str "a.png"], some [.str "data/b.dat", .bool true], some [.raw "name"]] ∧
      [0, 1, 2].map (fun call => b.script.calls[call]?.map Call.args)
        = [some [.str "x.tar.gz"], some [.str "a.png"], some [.str "x.txt"]] := by
  have hready : ∀ r ∈ disputed.resolvers, r.ReadyMade := by
    change ∀ r ∈ [_, _, _, _], _
    simp only [List.forall_mem_cons]
    exact ⟨.inr ⟨_, _, _, _, rfl⟩, .inl ⟨_, _, _, rfl⟩, .inl ⟨_, _, _, rfl⟩, .inl ⟨_, _, _, rfl⟩, nofun⟩
  have hgathered : ∀ s ∈ twoFiles, s.Gathered := by
    change ∀ s ∈ [_, _], _
    simp only [List.forall_mem_cons]
    exact ⟨⟨[], .ok, rfl⟩, ⟨[], .ok, rfl⟩, nofun⟩
  obtain ⟨found, collected, hcollect, settled, said, hsettle, hsaid, hcalls⟩ :=
    arity_law rfl (Resolver.consistent_of_readyMade hready _) hgathered (by decide +kernel)
  have hnames : settled.shortNames = disputedNames := by
    have h : (match collectAll twoFiles disputed with
        | .ok found p =>
          let short := (settle p found.pending).1.shortNames
          (short.enabled, short.directory, short.assigned, short.counter)
        | .error _ _ => (false, none, .empty, 0))
        = (disputedNames.enabled, disputedNames.directory, disputedNames.assigned,
            disputedNames.counter) := by decide +kernel
    rw [hcollect] at h
    simp only [hsettle, Prod.mk.injEq] at h
    generalize settled.shortNames = short at h ⊢
    cases short
    obtain ⟨rfl, rfl, rfl, rfl⟩ := h
    rfl
  rw [hnames] at hsaid
  obtain ⟨a, inA, happly, -, ha⟩ := hcalls _ List.mem_cons_self settled (.start _) rfl rfl
  obtain ⟨b, inB, happly', -, hb⟩ :=
    hcalls _ (List.mem_cons_of_mem _ List.mem_cons_self) settled (.start _) rfl rfl
  have hlogo (output : String) (h : DefaultName disputed.config disputed.resolvers disputed.shortNames
      settled.shortNames "logo.png" output) : output = "a.png" := by
    rw [h.eq_shorten (Resolver.keeping_of_readyMade hready) rfl rfl, hnames]
    rfl
  obtain ⟨out, hout, -, ha₀⟩ :=
    ha.unclaimed 0 "logo.png" _ ⟨by decide +kernel, rfl⟩ (by rw [hnames]; rfl)
  have ha₁ := ha.resolved 1 "x.dat" _ "data" _ _ ⟨by decide +kernel, rfl⟩ (by rw [hnames]; rfl) rfl
  have ha₂ := ha.dynamic 2 _ ⟨by decide +kernel, rfl⟩
  have hb₀ := hb.conflicting 0 "x.tar.gz" _ ⟨by decide +kernel, rfl⟩ (by rw [hnames]; decide +kernel)
  obtain ⟨out', hout', -, hb₁⟩ :=
    hb.unclaimed 1 "logo.png" _ ⟨by decide +kernel, rfl⟩ (by rw [hnames]; rfl)
  have hb₂ := hb.failed 2 "x.txt" _ "texts" _ _ ⟨by decide +kernel, rfl⟩ (by rw [hnames]; rfl) rfl
  refine ⟨found, collected, settled, said, a, b, inA, inB, hcollect, hsettle, ?_, ?_, ?_, ?_, ?_⟩
  · rw [hsaid]
    rfl
  · rintro _ ⟨⟩
    exact happly
  · rintro _ ⟨⟩
    exact happly'
  · simp only [List.map, ha₀, ha₁, ha₂, hlogo out hout]
    rfl
  · simp only [List.map, hb₀, hb₁, hb₂, hlogo out' hout']
    rfl

end Resources

/-! ## The scripts of a program -/

/-- The scripts that are collected of a program, as they are in the cache: they are all there, read and
looked through, but for the files that only declare. -/
inductive Workspace.Supplies (w : Workspace) : List String → List Resources.Source → Prop
  | nil : w.Supplies [] []
  | declaration {file : String} {files : List String} {sources : List Resources.Source}
      (hfile : Path.isDeclaration file = .ok true) (hfiles : w.Supplies files sources) :
      w.Supplies (file :: files) sources
  | script {file : String} {files : List String} {sources : List Resources.Source} {id : Nat}
      {script : Script} {refs : References} (hfile : Path.isDeclaration file = .ok false)
      (hid : w.cache.find? w.project.dir file = some id)
      (hscript : (w.cache.entry id).script? = some script)
      (hrefs : (w.cache.entry id).references? = some refs) (hfiles : w.Supplies files sources) :
      w.Supplies (file :: files) (⟨file, script, refs⟩ :: sources)

namespace Session

variable {files : List String} {sources : List Resources.Source} {found : Resources.Collected}
  {p : Project}

/-- Collecting a program is collecting its scripts, and nothing but the project changes. -/
theorem collectFrom_ok {w : Workspace} (h : w.Supplies files sources) {s : Session}
    (hcache : s.cache = w.cache) (hdir : s.project.dir = w.project.dir)
    (hok : Resources.collectAll sources s.project = .ok found p) :
    collectFrom files s = .ok found { s with project := p } := by
  induction h generalizing s found p with
  | nil =>
    cases hok
    rfl
  | declaration hfile _ ih =>
    unfold collectFrom
    rw [bind_of_ok ((lift_ok_iff _ _ _ _).mpr ⟨hfile, rfl⟩)]
    exact ih hcache hdir hok
  | @script file files sources id script refs hfile hid hscript hrefs _ ih =>
    obtain ⟨first, q, hfirst, hok⟩ := (bind_ok_iff _ _ _ _ _).mp hok
    obtain ⟨rest, r, hrest, hok⟩ := (bind_ok_iff _ _ _ _ _).mp hok
    cases hok
    have hget : (onWorkspace (Workspace.onCache fun _ dir c => c.get dir file) : Step Session Nat) s
        = .ok id s := by
      refine (on_ok_iff _ _ _ _ _ _).mpr ⟨_, (onCache_ok_iff _ _ _ _).mpr ⟨?_, rfl⟩, ?_⟩
      all_goals rw [hcache, hdir, Cache.get_of_find? hid]
      rw [← hcache]
    have hentry : (onWorkspace (Workspace.entry id) : Step Session Entry) s
        = .ok (w.cache.entry id) s :=
      (on_ok_iff _ _ _ _ _ _).mpr ⟨_, (entry_ok_iff _ _ _ _).mpr ⟨by rw [hcache], rfl⟩, rfl⟩
    have hcollect : (onWorkspace (Workspace.onProject (Resources.collect file script refs)) :
        Step Session Resources.Collected) s = .ok first { s with project := q } :=
      (on_ok_iff _ _ _ _ _ _).mpr ⟨_, (on_ok_iff _ _ _ _ _ _).mpr ⟨_, hfirst, rfl⟩, rfl⟩
    have hquiet : s.project.Quiet q := (Resources.obeys_collect file script refs).ok hfirst
    have hfiles := ih (s := { s with project := q }) hcache (hquiet.dir.trans hdir) hrest
    unfold collectFrom
    rw [bind_of_ok ((lift_ok_iff _ _ _ _).mpr ⟨hfile, rfl⟩)]
    refine (bind_of_ok hget).trans ((bind_of_ok hentry).trans ?_)
    simp only [hscript, hrefs]
    exact (bind_of_ok hcollect).trans (bind_of_ok hfiles)

/-- What is said about the assets of a program is said of its scripts, and the values of the assets are
the ones that they have when the answers that were due have been looked at. -/
theorem collectProgram_ok {s : Session} (h : s.Supplies files sources)
    (hok : Resources.collectAll sources s.project = .ok found p) :
    collectProgram files s = .ok () { s with
      project := (Resources.settle p found.pending).1
      messages := (s.messages.addAll found.diagnostics).addAll
        (Resources.settle p found.pending).2 } := by
  unfold collectProgram
  rw [bind_of_ok (collectFrom_ok h rfl rfl hok)]
  rfl

end Session

end Bundler

/-
How a search for a module ends.

A search always ends with an answer, and of the workspace it changes the cache and the project only
(`ModuleSearch.find_ends`). What it changes of the project is told by its answer (`ModuleSearch.Ending`).
With a module, it is one entry in the table of modules, and its script is noted as one to be taken over
exactly if it is not written by the build (`Project.noted`). Without one, the tables are as they were, and
one line says why. There is one way to end without a module and without a line: a module that is not
found from the importing file, and of which no package description can be read either
(`ModuleSearch.find_silent`).

The directories that are searched lead from that of the importing file up, each the directory of the one
before it, and the last one is its own directory, so none is left out (`ModuleSearch.ancestors_spec`).
Where the cache is in step with the disk, the module is the one that the files there are lead to
(`ModuleSearch.find_ends_resolved`), and its file and its id go together (`ModuleSearch.moduleId_of_named`).
-/
import Bundler.Proofs.Extensions
import Bundler.Proofs.Resolution

set_option autoImplicit false

namespace Bundler

open Workspace Step

namespace ModuleSearch

/-! ## Directories -/

/-- Above a path stands itself, a root, or a path of fewer characters. -/
private theorem dirname_cases (dir : String) :
    Path.dirname dir = dir ∨ Path.dirname dir = "/" ∨ (Path.dirname dir).length < dir.length := by
  have hslashed : (Path.slashed dir.toList).length = dir.length := by
    rw [Path.slashed, List.length_map, String.length_toList]
  unfold Path.dirname Path.dirnameChars
  split
  · by_cases hempty : dir = ""
    · exact .inl hempty.symm
    · exact .inr (.inr (by
        change 0 < dir.length
        exact Nat.pos_of_ne_zero fun h => hempty (String.length_eq_zero_iff.mp h)))
  · exact .inr (.inl rfl)
  · rename_i before behind _ hsplit
    obtain ⟨s, -, heq, -⟩ := Text.of_splitLast?_eq_some hsplit
    rw [heq, List.length_append, List.length_cons] at hslashed
    refine .inr (.inr ?_)
    rw [String.length_ofList]
    omega

/-- Each directory is followed by the one above it, and above the last one stands itself. -/
theorem upwards_spec (steps : Nat) (dir : String) (h : dir.length ≤ steps ∨ dir = "/") :
    (upwards steps dir).head? = some dir ∧
      (upwards steps dir).IsChain (fun below above => above = Path.dirname below) ∧
      ∀ last ∈ (upwards steps dir).getLast?, Path.dirname last = last := by
  induction steps generalizing dir with
  | zero =>
    refine ⟨rfl, .singleton dir, fun last hlast => ?_⟩
    obtain rfl := Option.some.inj hlast
    rcases h with h | rfl
    · rw [String.length_eq_zero_iff.mp (Nat.le_zero.mp h)]
      rfl
    · rfl
  | succ steps ih =>
    unfold upwards
    simp only
    by_cases htop : (Path.dirname dir == dir) = true
    · rw [if_pos htop]
      refine ⟨rfl, .singleton dir, fun last hlast => ?_⟩
      obtain rfl := Option.some.inj hlast
      exact beq_iff_eq.mp htop
    · rw [if_neg htop]
      -- one step up is one character less, but for the step to a root, which is the last one
      have habove : (Path.dirname dir).length ≤ steps ∨ Path.dirname dir = "/" := by
        rcases dirname_cases dir with hself | hroot | hless
        · exact absurd (beq_iff_eq.mpr hself) htop
        · exact .inr hroot
        · rcases h with h | rfl
          · exact .inl (by omega)
          · exact .inr rfl
      obtain ⟨hhead, hchain, hlast⟩ := ih (Path.dirname dir) habove
      cases hrest : upwards steps (Path.dirname dir) with
      | nil =>
        rw [hrest] at hhead
        cases hhead
      | cons above more =>
        rw [hrest] at hhead hchain hlast
        refine ⟨rfl, .cons_cons (Option.some.inj hhead) hchain, fun last h => ?_⟩
        rw [List.getLast?_cons_cons] at h
        exact hlast last h

/-- The directories that are searched are all from the given one upwards. -/
theorem ancestors_spec (dir : String) : (ancestors dir).head? = some dir ∧
    (ancestors dir).IsChain (fun below above => above = Path.dirname below) ∧
    ∀ last ∈ (ancestors dir).getLast?, Path.dirname last = last :=
  upwards_spec dir.length dir (.inl (Nat.le_refl _))

end ModuleSearch

/-! ## What is noted -/

namespace FoundModule

/-- The script of a module. -/
def script (m : FoundModule) : String := m.id ++ ".js"

/-- The file of a module has one of the four extensions behind the name of the module, and the build
writes the script of the first two. -/
def Named (m : FoundModule) : Prop :=
  if m.declarationOnly then m.file = m.id ++ ".d.ts" ∨ m.file = m.id ++ ".js"
  else m.file = m.id ++ ".ts" ∨ m.file = m.id ++ ".tsx"

/-- The name under which a module is noted: that of the module for a relative import, and the specifier
for any other. -/
def key (m : FoundModule) (specifier : String) : String :=
  if Text.startsWith specifier "." then m.id else specifier

end FoundModule

/-- A project in which a module is noted. -/
def Project.noted (p : Project) (key : String) (relative : Bool) (m : FoundModule) : Project :=
  { (if m.declarationOnly then p.addDepJs m.script else p) with
    modules := p.modules.insert key ⟨m.file, m.script, m.declarationOnly, relative⟩ }

namespace ModuleSearch

/-- What a search under a base name comes to. -/
inductive Under (key base : String) (relative : Bool) (p : Project) :
    Option FoundModule → Project → Prop
  | none : Under key base relative p none p
  | some {m : FoundModule} (hid : m.id = base) (hnamed : m.Named) :
    Under key base relative p (some m) (p.noted key relative m)

/-- To ask for a file changes the cache alone. -/
theorem exists?_ends (name : String) (w : Workspace) :
    ∃ b c, exists? name w = .ok b { w with cache := c } :=
  ⟨_, _, rfl⟩

section

variable (key base : String) (relative : Bool)

theorem findSource_ends (exts : List String) (hexts : ∀ ext ∈ exts, ext = ".ts" ∨ ext = ".tsx")
    (w : Workspace) : ∃ found c p', findSource key base (base ++ ".js") relative exts w
        = .ok found { w with cache := c, project := p' } ∧
      Under key base relative w.project found p' := by
  induction exts generalizing w with
  | nil => exact ⟨none, w.cache, w.project, rfl, .none⟩
  | cons ext exts ih =>
    obtain ⟨b, c, hb⟩ := exists?_ends (base ++ ext) w
    unfold findSource
    rw [bind_of_ok hb]
    cases b with
    | true =>
      refine ⟨some ⟨base ++ ext, base, false⟩, c, _, rfl, .some rfl ?_⟩
      rcases hexts ext List.mem_cons_self with rfl | rfl
      · exact .inl rfl
      · exact .inr rfl
    | false =>
      obtain ⟨found, c', p', hrest, hunder⟩ :=
        ih (fun e he => hexts e (List.mem_cons_of_mem ext he)) { w with cache := c }
      exact ⟨found, c', p', hrest, hunder⟩

/-- A script without a source file is taken over, if there is one. -/
private theorem scriptAlone_ends (w : Workspace) : ∃ found c p',
    (do
      if ← exists? (base ++ ".js") then
        return some (← recordTakenOver key base (base ++ ".js") (base ++ ".js") relative)
      return none : Step Workspace (Option FoundModule)) w
        = .ok found { w with cache := c, project := p' } ∧
      Under key base relative w.project found p' := by
  obtain ⟨b, c, hb⟩ := exists?_ends (base ++ ".js") w
  rw [bind_of_ok hb]
  cases b with
  | true => exact ⟨some ⟨base ++ ".js", base, true⟩, c, _, rfl, .some rfl (.inr rfl)⟩
  | false => exact ⟨none, c, w.project, rfl, .none⟩

/-- A search under a base name notes a module with that name, or it changes the cache alone. -/
theorem findAt_ends (w : Workspace) : ∃ found c p',
    findAt key base relative w = .ok found { w with cache := c, project := p' } ∧
      Under key base relative w.project found p' := by
  obtain ⟨found, c, p', hsource, hunder⟩ :=
    findSource_ends key base relative [".ts", ".tsx"] (by simp) w
  unfold findAt
  rw [bind_of_ok hsource]
  cases hunder with
  | some hid hnamed => exact ⟨_, c, _, rfl, .some hid hnamed⟩
  | none =>
    -- without a source file the script is asked for, alone or beside its declarations
    obtain ⟨declared, c₁, hdecl⟩ := exists?_ends (base ++ ".d.ts") { w with cache := c }
    simp only
    rw [bind_of_ok hdecl]
    cases declared with
    | false => exact scriptAlone_ends key base relative { w with cache := c₁ }
    | true =>
      obtain ⟨there, c₂, hscript⟩ := exists?_ends (base ++ ".js") { w with cache := c₁ }
      simp only [if_true]
      rw [bind_of_ok hscript]
      cases there with
      | false => exact scriptAlone_ends key base relative { w with cache := c₂ }
      | true => exact ⟨some ⟨base ++ ".d.ts", base, true⟩, c₂, _, rfl, .some rfl (.inl rfl)⟩

end

/-- A search in directories ends under the base name in one of them, or it changes the cache alone. -/
theorem findIn_ends (specifier : String) (dirs : List String) (w : Workspace) : ∃ found c p',
    findIn specifier dirs w = .ok found { w with cache := c, project := p' } ∧
      (found = none ∧ p' = w.project ∨
        ∃ dir ∈ dirs, Under specifier (Path.join dir specifier) false w.project found p') := by
  induction dirs generalizing w with
  | nil => exact ⟨none, w.cache, w.project, rfl, .inl ⟨rfl, rfl⟩⟩
  | cons dir dirs ih =>
    obtain ⟨found, c, p', hat, hunder⟩ := findAt_ends specifier (Path.join dir specifier) false w
    unfold findIn
    rw [bind_of_ok hat]
    cases hunder with
    | some hid hnamed => exact ⟨_, c, _, rfl, .inr ⟨dir, List.mem_cons_self, .some hid hnamed⟩⟩
    | none =>
      obtain ⟨found, c', p', hrest, hend⟩ := ih { w with cache := c }
      refine ⟨found, c', p', hrest, hend.imp_right ?_⟩
      rintro ⟨dir', hdir', hunder'⟩
      exact ⟨dir', List.mem_cons_of_mem dir hdir', hunder'⟩

/-! ## Imports -/

/-- The description of a package. -/
def packageOf (specifier : String) : String := "node_modules/" ++ specifier ++ "/package.json"

/-- What is said of a module that is not found. -/
def notValid (specifier file : String) : String :=
  "Module " ++ specifier ++ " is not valid in " ++ file

/-- What is said of a package description that cannot be read. -/
def notParsed (specifier : String) (e : Json.ReadError) : String :=
  "Cannot parse " ++ packageOf specifier ++ " " ++ e.message

/-- The project from which a search starts: two slashes in a row in a relative import are pointed out. -/
def noticed (specifier file : String) (p : Project) : Project :=
  if Text.startsWith specifier "." = true ∧ Text.occursIn ['/', '/'] specifier.toList = true then
    p.say ("Import " ++ specifier ++ " contains two slashes in row in " ++ file)
  else p

/-- How a search for an import ends, with a cache and a project. -/
inductive Ending (specifier file : String) (c : Cache) (p : Project) :
    Option FoundModule → Project → Prop
  | found {m : FoundModule} (hnamed : m.Named) :
    Ending specifier file c p (some m)
      (p.noted (m.key specifier) (Text.startsWith specifier ".") m)
  | invalid : Ending specifier file c p none (p.say (notValid specifier file))
  | unparsed (hbare : Text.startsWith specifier "." = false) (e : Json.ReadError) :
    Ending specifier file c p none (p.say (notParsed specifier e))
  | silent (hbare : Text.startsWith specifier "." = false)
    (htext : ∃ i, c.find? p.dir (packageOf specifier) = some i ∧ (c.entry i).text? = none) :
    Ending specifier file c p none p

variable {specifier file : String}

theorem Ending.found_bare {c : Cache} {p : Project} {m : FoundModule}
    (hbare : Text.startsWith specifier "." = false) (hnamed : m.Named) :
    Ending specifier file c p (some m) (p.noted specifier false m) := by
  have hkey : m.key specifier = specifier := by
    unfold FoundModule.key
    rw [if_neg (by simp [hbare])]
  have hfound : Ending specifier file c p (some m)
      (p.noted (m.key specifier) (Text.startsWith specifier ".") m) := .found hnamed
  rwa [hkey, hbare] at hfound

/-- A search under a base name that is the last one to be searched. -/
private theorem findAt_orSay_ends (specifier file key base : String) (relative : Bool)
    (w : Workspace) :
    ∃ found c p', (findAt key base relative >>= orSay specifier file) w
        = .ok found { w with cache := c, project := p' } ∧
      (found = none ∧ p' = w.project.say (notValid specifier file) ∨
        ∃ m, found = some m ∧ m.id = base ∧ m.Named ∧ p' = w.project.noted key relative m) := by
  obtain ⟨found, c, p', hat, hunder⟩ := findAt_ends key base relative w
  rw [bind_of_ok hat]
  cases hunder with
  | none => exact ⟨none, c, _, rfl, .inl ⟨rfl, rfl⟩⟩
  | some hid hnamed => exact ⟨_, c, _, rfl, .inr ⟨_, rfl, hid, hnamed, rfl⟩⟩

/-- A search for a relative import. -/
private theorem findRelative_ends (hrelative : Text.startsWith specifier "." = true) (w : Workspace) :
    ∃ found c p', findRelative specifier file w = .ok found { w with cache := c, project := p' } ∧
      Ending specifier file c (noticed specifier file w.project) found p' := by
  have hrun : ∃ v : Workspace, v = { w with project := noticed specifier file w.project } ∧
      findRelative specifier file w = (findAt (Path.join (Path.dirname file) specifier)
        (Path.join (Path.dirname file) specifier) true >>= orSay specifier file) v := by
    refine ⟨_, rfl, ?_⟩
    unfold findRelative noticed
    by_cases hslashes : Text.occursIn ['/', '/'] specifier.toList = true
    · rw [if_pos hslashes, if_pos ⟨hrelative, hslashes⟩]
      rfl
    · rw [if_neg hslashes, if_neg fun h => hslashes h.2]
  obtain ⟨v, rfl, hrun⟩ := hrun
  obtain ⟨found, c, p', hends, hcases⟩ := findAt_orSay_ends specifier file
    (Path.join (Path.dirname file) specifier) (Path.join (Path.dirname file) specifier) true
    { w with project := noticed specifier file w.project }
  refine ⟨found, c, p', hrun.trans hends, ?_⟩
  rcases hcases with ⟨rfl, rfl⟩ | ⟨m, rfl, hid, hnamed, rfl⟩
  · exact .invalid
  · have hkey : m.key specifier = Path.join (Path.dirname file) specifier := by
      unfold FoundModule.key
      rw [if_pos hrelative, hid]
    rw [← hkey, ← hrelative]
    exact .found hnamed

/-- What was read of a name has an entry. -/
private theorem content_ends (name : String) (w : Workspace) : ∃ i c,
    content name w = .ok i { w with cache := c } ∧ c.find? w.project.dir name = some i := by
  obtain ⟨i, c, hread⟩ : ∃ i c, content name w = .ok i { w with cache := c } := ⟨_, _, rfl⟩
  refine ⟨i, c, hread, ?_⟩
  obtain ⟨v, hexistence, hv⟩ := content_ok hread
  obtain ⟨hfind, -, hproject⟩ := existence_ok hexistence
  rw [show c = v.cache.ensureText v.disk i from congrArg Workspace.cache hv, Cache.find?_eq_keys,
    Cache.keys_ensureText, ← Cache.find?_eq_keys, ← hproject]
  exact hfind

/-- A search for a module by its package. -/
private theorem findPackage_ends (hbare : Text.startsWith specifier "." = false) (w : Workspace) :
    ∃ found c p', findPackage specifier file w = .ok found { w with cache := c, project := p' } ∧
      Ending specifier file c w.project found p' := by
  obtain ⟨i, c, hread, hfind⟩ := content_ends (packageOf specifier) w
  have hentry : entry i { w with cache := c } = .ok (c.entry i) { w with cache := c } := rfl
  unfold findPackage
  rw [show "node_modules/" ++ specifier ++ "/package.json" = packageOf specifier from rfl,
    bind_of_ok hread, bind_of_ok hentry]
  cases htext : (c.entry i).text? with
  | none => exact ⟨none, c, w.project, rfl, .silent hbare ⟨i, hfind, htext⟩⟩
  | some text =>
    simp only
    cases readPackage text with
    | error e => exact ⟨none, c, _, rfl, .unparsed hbare e⟩
    | ok main =>
      obtain ⟨found, c', p', hends, hcases⟩ := findAt_orSay_ends specifier file specifier
        (Path.join ("node_modules/" ++ specifier) (Path.stripExtension (main.getD "index.js"))) false
        { w with cache := c }
      refine ⟨found, c', p', hends, ?_⟩
      rcases hcases with ⟨rfl, rfl⟩ | ⟨m, rfl, -, hnamed, rfl⟩
      · exact .invalid
      · exact .found_bare hbare hnamed

/-- A search ends with an answer. -/
theorem find_ends (specifier file : String) (w : Workspace) : ∃ found c p',
    find specifier file w = .ok found { w with cache := c, project := p' } ∧
      Ending specifier file c (noticed specifier file w.project) found p' := by
  unfold find
  split
  · rename_i hrelative
    exact findRelative_ends hrelative w
  · rename_i hbare
    have hbare' : Text.startsWith specifier "." = false := by simpa using hbare
    have hsame : noticed specifier file w.project = w.project := if_neg fun h => hbare h.1
    rw [hsame]
    obtain ⟨found, c, p', hin, hend⟩ := findIn_ends specifier (ancestors (Path.dirname file)) w
    rw [bind_of_ok hin]
    rcases hend with ⟨rfl, rfl⟩ | ⟨dir, -, hunder⟩
    · exact findPackage_ends hbare' { w with cache := c }
    · cases hunder with
      | none => exact findPackage_ends hbare' { w with cache := c }
      | some _ hnamed => exact ⟨_, c, _, rfl, .found_bare hbare' hnamed⟩

/-! ## What an ending says -/

section

variable {specifier file : String} {c : Cache} {p p' : Project} {m : FoundModule}

/-- A module that is found is one entry in the table of modules, its script is taken over exactly if it is
not written by the build, and nothing else is changed. -/
theorem Ending.of_some (h : Ending specifier file c p (some m) p') :
    m.Named ∧ p' = { p with
      modules := p.modules.insert (m.key specifier)
        ⟨m.file, m.script, m.declarationOnly, Text.startsWith specifier "."⟩
      depJs := if m.declarationOnly then p.depJs.insert m.script m.script else p.depJs } := by
  cases h with
  | found hnamed =>
    refine ⟨hnamed, ?_⟩
    unfold Project.noted
    split <;> rfl

/-- Without a module nothing is noted, and at most one line is said. -/
theorem Ending.of_none (h : Ending specifier file c p none p') :
    (∃ line, p' = p.say line ∧ (line = notValid specifier file ∨ ∃ e, line = notParsed specifier e)) ∨
    p' = p ∧ Text.startsWith specifier "." = false ∧
      ∃ i, c.find? p.dir (packageOf specifier) = some i ∧ (c.entry i).text? = none := by
  cases h with
  | invalid => exact .inl ⟨_, rfl, .inl rfl⟩
  | unparsed _ e => exact .inl ⟨_, rfl, .inr ⟨e, rfl⟩⟩
  | silent hbare htext => exact .inr ⟨rfl, hbare, htext⟩

end

/-! ## What is found -/

/-- A file that the answers lead to is there. -/
theorem Files.has_of_at? {f : Files} {base found : String} (h : f.at? base = some found) :
    f.has found = true := by
  unfold at? at h
  rcases Option.or_eq_some_iff.mp h with hsource | ⟨-, hscript⟩
  · exact List.find?_some hsource
  · by_cases hjs : f.has (base ++ ".js") = true
    · rw [if_pos hjs] at hscript
      by_cases hdeclared : f.has (base ++ ".d.ts") = true
      · rw [if_pos hdeclared] at hscript
        exact Option.some.inj hscript ▸ hdeclared
      · rw [if_neg hdeclared] at hscript
        exact Option.some.inj hscript ▸ hjs
    · rw [if_neg hjs] at hscript
      cases hscript

theorem Files.has_of_resolve {f : Files} {specifier file found : String}
    (h : f.resolve specifier file = some found) : f.has found = true := by
  unfold resolve at h
  split at h
  · exact has_of_at? h
  · rcases Option.or_eq_some_iff.mp h with hin | ⟨-, hpackage⟩
    · obtain ⟨dir, -, hat⟩ := List.exists_of_findSome?_eq_some hin
      exact has_of_at? hat
    · unfold package? at hpackage
      split at hpackage
      · cases hpackage
      · split at hpackage
        · cases hpackage
        · exact has_of_at? hpackage

/-- Where the cache is in step with the disk, a search ends with the module that the files there are lead
to, or with none, and the project says which it was. -/
theorem find_ends_resolved (specifier file : String) {w : Workspace} (hw : w.Searchable) :
    ∃ found c p', find specifier file w = .ok found { w with cache := c, project := p' } ∧
      Ending specifier file c (noticed specifier file w.project) found p' ∧
      ∀ f : Files, f.Describes p'.dir w.disk c → found.map FoundModule.file = f.resolve specifier file ∧
        ∀ m, found = some m → f.has m.file = true := by
  obtain ⟨found, c, p', hrun, hend⟩ := find_ends specifier file w
  refine ⟨found, c, p', hrun, hend, fun f hf => ?_⟩
  have hresolved := find_resolves hw hrun hf
  refine ⟨hresolved, ?_⟩
  rintro m rfl
  exact f.has_of_resolve hresolved.symm

/-- A search for a package without a description says nothing. -/
private theorem findPackage_silent {specifier file : String} {w w' : Workspace}
    {found : Option FoundModule} {f : Files} (hw : w.Searchable)
    (h : findPackage specifier file w = .ok found w')
    (hf : f.Describes w'.project.dir w'.disk w'.cache)
    (htext : f.text? (packageOf specifier) = none) : found = none ∧ w'.project = w.project := by
  unfold findPackage at h
  obtain ⟨i, v, hread, h⟩ := (bind_ok_iff _ _ _ _ _).mp h
  obtain ⟨e, v', he, h⟩ := (bind_ok_iff _ _ _ _ _).mp h
  obtain ⟨rfl, rfl⟩ := (entry_ok_iff _ _ _ _).mp he
  have hv := Frame.moves_of_obeys (obeys_content Frame.looking_looks _) hw.destination hread
  have hmissing (hm : Frame.looks.Moves v w') : (v.cache.entry i).text? = none :=
    (content_answers hw hread (hm.describes hf)).trans htext
  cases hentry : (v.cache.entry i).text? with
  | none =>
    rw [hentry] at h
    obtain ⟨rfl, rfl⟩ := (pure_ok_iff _ _ _ _).mp h
    obtain ⟨u, hexistence, rfl⟩ := content_ok hread
    exact ⟨rfl, (existence_ok hexistence).2.2⟩
  | some text =>
    rw [hentry] at h hmissing
    simp only at h
    -- what follows moves as a search does, so the answers are those of the end
    have hm : Frame.looks.Moves v w' := by
      cases hpackage : readPackage text with
      | error e =>
        rw [hpackage] at h
        exact Frame.moves_of_obeys ((obeys_say Frame.looking_looks _).bind fun _ => obeys_pure _)
          hv.destination h
      | ok main =>
        rw [hpackage] at h
        exact Frame.moves_of_obeys ((obeys_findAt Frame.looking_looks _ _ _).bind fun _ =>
          obeys_orSay Frame.looking_looks _ _ _) hv.destination h
    cases hmissing hm

/-- A module that is not found from the importing file, and whose package has no description, is not
found, and nothing is said about it. -/
theorem find_silent {specifier file : String} {w w' : Workspace} {found : Option FoundModule}
    {f : Files} (hw : w.Searchable) (h : find specifier file w = .ok found w')
    (hf : f.Describes w'.project.dir w'.disk w'.cache)
    (hbare : Text.startsWith specifier "." = false)
    (hin : f.in? specifier (ancestors (Path.dirname file)) = none)
    (htext : f.text? (packageOf specifier) = none) : found = none ∧ w'.project = w.project := by
  obtain ⟨here, c, p', hrun, hend⟩ := findIn_ends specifier (ancestors (Path.dirname file)) w
  have hv := hw.of_moves
    (Frame.moves_of_obeys (obeys_findIn Frame.looking_looks _ _) hw.destination hrun)
  unfold find at h
  rw [if_neg (by simp [hbare]), bind_of_ok hrun] at h
  cases here with
  | some m =>
    obtain ⟨-, rfl⟩ := (pure_ok_iff _ _ _ _).mp h
    have hresolved := findIn_resolves hw hrun hf
    rw [hin] at hresolved
    cases hresolved
  | none =>
    have hsame : p' = w.project := by
      rcases hend with ⟨-, hsame⟩ | ⟨_, -, hunder⟩
      · exact hsame
      · cases hunder
        rfl
    have hsilent := findPackage_silent hv h hf htext
    exact ⟨hsilent.1, hsilent.2.trans hsame⟩

/-- Where there are no files at all, nothing is found and nothing is said. -/
example : answer? (find "missing" "src/a.ts" (start .empty (.ofConfig .default "/p"))) = some none ∧
    (final (find "missing" "src/a.ts" (start .empty (.ofConfig .default "/p")))).project.log = [] := by
  decide +kernel

/-- The name of the file of a module is the name of the module, unless a character is torn. -/
theorem moduleId_of_named {m : FoundModule} (hnamed : m.Named) (hbase : Path.IsBase m.id)
    (htorn : ∀ n ≤ 2, ¬Text.Torn n m.id.toList) : Path.moduleId m.file = .ok m.id := by
  have hext : ∀ ext ∈ Path.extensions, Path.moduleId (m.id ++ ext) = .ok m.id := fun ext hext =>
    hbase.moduleId hext (htorn _ (by
      have hsize := (Path.of_mem_extensions hext).1
      omega))
  unfold FoundModule.Named at hnamed
  split at hnamed
  · rcases hnamed with heq | heq
    · rw [heq]
      exact Path.moduleId_declaration m.id
    · rw [heq]
      exact hext ".js" (by decide)
  · rcases hnamed with heq | heq
    · rw [heq]
      exact hext ".ts" (by decide)
    · rw [heq]
      exact hext ".tsx" (by decide)

end ModuleSearch

end Bundler

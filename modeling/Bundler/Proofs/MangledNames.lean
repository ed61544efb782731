/-
Short names for the modules of a merged bundle.

With short names a module is registered under a number, and the requests of the other modules are
rewritten to the number, one name after the other in the text of the module. A text is taken here as
gaps with requests between them (`Bundle.Requests`), where no request begins inside a gap or inside
another request. Then one replacement renames the requests for one name and leaves all else
(`Bundle.Requests.replaceAll_text`), so what a request becomes is the outcome of one renaming after the
other (`Bundle.renamed_text`).

That outcome is not always the short name. What a name was shortened to may be the name of another
module, and then it is shortened again, or it is the name of a script that was taken over and keeps it.
If no module of the bundle has a short name as its own name, then the modules are registered under
distinct names, and each request is for the name under which its module is registered
(`Bundle.Apart.renames`): the bundle is the one without short names up to the names.
-/
import Bundler.Proofs.MergedOrder
import Bundler.Proofs.ModuleNames

set_option autoImplicit false

namespace Bundler

/-! ## Replacing -/

namespace Text

variable {pattern replacement : List Char}

private theorem replaceFrom_skip (taken cs : List Char) :
    replaceFrom pattern replacement taken.length (taken ++ cs)
      = replaceFrom pattern replacement 0 cs := by
  induction taken with
  | nil => rfl
  | cons c taken ih => exact ih

/-- The pattern at the start of a text is replaced. -/
theorem replaceAll_pattern (hpattern : pattern ≠ []) (cs : List Char) :
    replaceAll pattern replacement (pattern ++ cs)
      = replacement ++ replaceAll pattern replacement cs := by
  cases pattern with
  | nil => exact absurd rfl hpattern
  | cons c pattern =>
    unfold replaceAll
    have hprefix : (c :: pattern).isPrefixOf (c :: (pattern ++ cs)) = true :=
      List.isPrefixOf_iff_prefix.mpr (List.prefix_append (c :: pattern) cs)
    rw [List.cons_append, replaceFrom, if_pos hprefix, List.length_cons, Nat.add_sub_cancel,
      replaceFrom_skip]

/-- A part of a text in which the pattern does not begin stays. -/
theorem replaceAll_append {part cs : List Char}
    (h : ∀ s, s ≠ [] → s <:+ part → ¬pattern <+: s ++ cs) :
    replaceAll pattern replacement (part ++ cs) = part ++ replaceAll pattern replacement cs := by
  induction part with
  | nil => rfl
  | cons c part ih =>
    have hhere : ¬pattern.isPrefixOf (c :: (part ++ cs)) = true := fun hp =>
      h (c :: part) (List.cons_ne_nil _ _) (List.suffix_refl _) (List.isPrefixOf_iff_prefix.mp hp)
    have hrest := ih fun s hs hsuffix => h s hs (hsuffix.trans (List.suffix_cons c part))
    unfold replaceAll at hrest ⊢
    rw [List.cons_append, replaceFrom, if_neg hhere, hrest, List.cons_append]

end Text

/-! ## Requests -/

namespace Bundle

/-- What every request begins with. -/
def opening : List Char := ['r', 'e', 'q', 'u', 'i', 'r', 'e', '(', '"']

/-- A text as requests with gaps between them. -/
structure Requests where
  /-- The requests, each with the gap in front of it. -/
  requests : List (List Char × String)
  /-- The gap behind the last request. -/
  rest : List Char

namespace Requests

/-- The text. -/
def text (r : Requests) : List Char :=
  r.requests.flatMap (fun q => q.1 ++ requireText q.2) ++ r.rest

/-- The requests under other names. -/
def rename (f : String → String) (r : Requests) : Requests :=
  { r with requests := r.requests.map fun q => (q.1, f q.2) }

/-- No request begins inside the request for a name. -/
def Lone (id : String) : Prop := ¬opening <:+: (requireText id).tail

/-- Requests begin where they are listed and nowhere else. -/
structure Exact (r : Requests) : Prop where
  gap : ∀ q ∈ r.requests, ¬opening <:+: q.1
  lone : ∀ q ∈ r.requests, Lone q.2
  rest : ¬opening <:+: r.rest

end Requests

open Requests

variable {id dep short : String}

theorem requireText_eq (id : String) :
    requireText id = opening ++ (id.toList.flatMap Json.escapeChar ++ ['"', ')']) := by
  unfold requireText Json.quote Json.quoteChars
  rw [String.toList_append, String.toList_append, String.toList_ofList]
  simp [opening]

theorem opens_requireText (id : String) : opening <+: requireText id := by
  rw [requireText_eq]
  exact List.prefix_append _ _

/-- What is shorter than the beginning of a request and has one begin inside is a part of it. -/
private theorem opening_reaches {s cs : List Char} (hs : ¬opening <+: s) (h : opening <+: s ++ cs) :
    ∃ t, t ≠ [] ∧ opening = s ++ t ∧ t <+: cs := by
  have hlt : s.length < opening.length := by
    by_contra hge
    exact hs (List.prefix_of_prefix_length_le h (List.prefix_append s cs) (by omega))
  obtain ⟨t, ht⟩ := List.prefix_of_prefix_length_le (List.prefix_append s cs) h (by omega)
  refine ⟨t, ?_, ht.symm, ?_⟩
  · rintro rfl
    rw [List.append_nil] at ht
    rw [ht] at hlt
    exact absurd hlt (lt_irrefl _)
  · rw [← ht] at h
    exact (List.prefix_append_right_inj s).mp h

/-- No request begins in a gap, since what a request begins with does not overlap with itself. -/
private theorem gap_apart {gap cs : List Char} (hgap : ¬opening <:+: gap)
    (hcs : cs = [] ∨ opening <+: cs) (s : List Char) (hne : s ≠ []) (hs : s <:+ gap) :
    ¬opening <+: s ++ cs := by
  intro h
  obtain ⟨t, htne, hopening, ht⟩ :=
    opening_reaches (fun hin => hgap (hin.isInfix.trans hs.isInfix)) h
  rcases hcs with rfl | hcs
  · exact htne (List.prefix_nil.mp ht)
  · have hlength := congrArg List.length hopening
    rw [List.length_append] at hlength
    have hself := List.prefix_of_prefix_length_le ht hcs (by omega)
    have hdrop : t = opening.drop s.length := by rw [hopening, List.drop_left]
    have hpos := List.length_pos_iff.mpr hne
    have hpos' := List.length_pos_iff.mpr htne
    have hoverlap : ∀ k < opening.length, 0 < k → ¬opening.drop k <+: opening := by decide
    exact hoverlap s.length (by omega) hpos (hdrop ▸ hself)

/-- No request begins inside another one, either, since one ends in a character that none begins
with. -/
private theorem request_apart (hlone : Lone id) (cs s : List Char) (hne : s ≠ [])
    (hs : s <:+ (requireText id).tail) : ¬opening <+: s ++ cs := by
  intro h
  obtain ⟨t, -, hopening, -⟩ := opening_reaches (fun hin => hlone (hin.isInfix.trans hs.isInfix)) h
  have hsuffix : s <:+ (opening ++ (id.toList.flatMap Json.escapeChar ++ ['"'])) ++ [')'] := by
    have htail := hs.trans (List.tail_suffix _)
    rw [requireText_eq] at htail
    simpa using htail
  obtain ⟨u, hu⟩ := hsuffix
  have hlast : ')' ∈ s := by
    have hget := congrArg List.getLast? hu
    rw [List.getLast?_append_of_ne_nil _ hne, List.getLast?_concat] at hget
    exact List.mem_of_getLast? hget
  have hmem : ')' ∈ opening := hopening ▸ List.mem_append_left t hlast
  exact absurd hmem (by decide)

/-- The character that the inside of a literal begins with. -/
private def firstChar? : List Char → Option Char
  | [] => none
  | c :: cs =>
    if c == '\\' then
      if cs.head? == some 'u' then Script.coded? (cs.tail.take 4) else cs.head?.bind Script.escaped?
    else some c

private theorem firstChar?_escapeChar (c : Char) (cs : List Char) :
    firstChar? (Json.escapeChar c ++ cs) = some c := by
  rcases Script.escapeChar_cases c with ⟨d, hc, hd, hletter⟩ | ⟨digits, hc, hlength, hcode⟩ |
    ⟨hc, -, hbackslash, -⟩
  · simp [hc, firstChar?, hd, hletter]
  · simp [hc, firstChar?, hlength, hcode]
  · simp [hc, firstChar?, hbackslash]

/-- What is written for a character does not begin with the quote. -/
private theorem escaped_ne_quote (c : Char) (cs ds : List Char) :
    Json.escapeChar c ++ cs ≠ '"' :: ds := by
  rcases Script.escapeChar_cases c with ⟨d, hc, -⟩ | ⟨digits, hc, -⟩ | ⟨hc, hquote, -⟩
  · simp [hc]
  · simp [hc]
  · simp [hc, hquote]

/-- What is written for a text ends where its quote stands, so it is written for this text alone. -/
private theorem escaped_inj : ∀ {as bs cs ds : List Char},
    as.flatMap Json.escapeChar ++ '"' :: cs = bs.flatMap Json.escapeChar ++ '"' :: ds → as = bs
  | [], [], _, _, _ => rfl
  | [], b :: bs, cs, ds, h => by
    rw [List.flatMap_cons, List.append_assoc] at h
    exact absurd h.symm (escaped_ne_quote b _ _)
  | a :: as, [], cs, ds, h => by
    rw [List.flatMap_cons, List.append_assoc] at h
    exact absurd h (escaped_ne_quote a _ _)
  | a :: as, b :: bs, cs, ds, h => by
    rw [List.flatMap_cons, List.flatMap_cons, List.append_assoc, List.append_assoc] at h
    have hsame := congrArg firstChar? h
    rw [firstChar?_escapeChar, firstChar?_escapeChar] at hsame
    obtain rfl := Option.some.inj hsame
    rw [escaped_inj (List.append_cancel_left h)]

/-- A text begins with the request for one name at most. -/
private theorem eq_of_requireText_starts {cs : List Char}
    (h : requireText dep <+: requireText id ++ cs) : dep = id := by
  obtain ⟨ds, hds⟩ := h
  simp only [requireText_eq, List.append_assoc] at hds
  have hquoted : dep.toList.flatMap Json.escapeChar ++ '"' :: ')' :: ds
      = id.toList.flatMap Json.escapeChar ++ '"' :: ')' :: cs := List.append_cancel_left hds
  exact String.toList_inj.mp (escaped_inj hquoted)

/-! ## Renaming -/

namespace Requests

private theorem replaceAll_request (hlone : Lone id) (cs : List Char) :
    Text.replaceAll (requireText dep) (requireText short) (requireText id ++ cs) =
      requireText (if id = dep then short else id) ++
        Text.replaceAll (requireText dep) (requireText short) cs := by
  have hne : ∀ id, requireText id ≠ [] := fun id h => by
    rw [requireText_eq] at h
    cases h
  by_cases heq : id = dep
  · rw [if_pos heq, heq, Text.replaceAll_pattern (hne dep)]
  · rw [if_neg heq]
    refine Text.replaceAll_append fun s hs hsuffix hprefix => ?_
    obtain ⟨c, rest, hc⟩ := List.exists_cons_of_ne_nil (hne id)
    rw [hc] at hsuffix
    rcases List.suffix_cons_iff.mp hsuffix with rfl | hin
    · rw [← hc] at hprefix
      exact heq (eq_of_requireText_starts hprefix).symm
    · have htail : s <:+ (requireText id).tail := by rw [hc]; exact hin
      exact request_apart hlone cs s hs htail ((opens_requireText dep).trans hprefix)

/-- One replacement renames the requests for one name. -/
theorem replaceAll_text {r : Requests} (h : r.Exact) :
    Text.replaceAll (requireText dep) (requireText short) r.text =
      (r.rename fun id => if id = dep then short else id).text := by
  obtain ⟨requests, rest⟩ := r
  induction requests with
  | nil =>
    have hrest : ∀ s, s ≠ [] → s <:+ rest → ¬requireText dep <+: s ++ [] := fun s hs hsuffix hprefix =>
      gap_apart h.rest (.inl rfl) s hs hsuffix ((opens_requireText dep).trans hprefix)
    have hall : Text.replaceAll (requireText dep) (requireText short) (rest ++ []) = rest ++ [] :=
      Text.replaceAll_append hrest
    rwa [List.append_nil] at hall
  | cons q requests ih =>
    have hrequests := ih ⟨fun q hq => h.gap q (List.mem_cons_of_mem _ hq),
      fun q hq => h.lone q (List.mem_cons_of_mem _ hq), h.rest⟩
    have hgap : ∀ (cs : List Char) s, s ≠ [] → s <:+ q.1 →
        ¬requireText dep <+: s ++ (requireText q.2 ++ cs) := fun cs s hs hsuffix hprefix =>
      gap_apart (h.gap q List.mem_cons_self)
        (.inr ((opens_requireText q.2).trans (List.prefix_append _ _))) s hs hsuffix
        ((opens_requireText dep).trans hprefix)
    unfold text rename at hrequests ⊢
    simp only [List.map_cons, List.flatMap_cons, List.append_assoc] at hrequests ⊢
    rw [Text.replaceAll_append (hgap _), replaceAll_request (h.lone q List.mem_cons_self), hrequests]

theorem Exact.rename {r : Requests} (h : r.Exact) {f : String → String}
    (hf : ∀ q ∈ r.requests, Lone (f q.2)) : (r.rename f).Exact where
  gap q hq := by
    obtain ⟨p, hp, rfl⟩ := List.mem_map.mp hq
    exact h.gap p hp
  lone q hq := by
    obtain ⟨p, hp, rfl⟩ := List.mem_map.mp hq
    exact hf p hp
  rest := h.rest

theorem rename_rename (r : Requests) (f g : String → String) :
    (r.rename f).rename g = r.rename (g ∘ f) := by
  simp [rename, Function.comp_def]

end Requests

/-- What the request for a name becomes while the names that a module asks for are shortened one after
the other. -/
def successive (names : List (String × String)) (deps : List String) (id : String) : String :=
  deps.foldl (fun id dep =>
    match names.lookup dep with
    | some short => if id = dep then short else id
    | none => id) id

section Successive

variable {names : List (String × String)} {deps : List String}

theorem successive_cons_none (h : names.lookup dep = none) :
    successive names (dep :: deps) = successive names deps := by
  unfold successive
  simp only [List.foldl_cons, h]

theorem successive_cons_some (h : names.lookup dep = some short) :
    successive names (dep :: deps) =
      successive names deps ∘ fun id => if id = dep then short else id := by
  unfold successive
  funext id
  simp only [List.foldl_cons, h, Function.comp_apply]

end Successive

/-- The requests in a module with short names. -/
theorem renamed_text {names : List (String × String)} {m : Module} {r : Requests} (h : r.Exact)
    (htext : m.js.toList = r.text) (hnames : ∀ id short, names.lookup id = some short → Lone short) :
    renamed names m = (r.rename (successive names m.deps)).text := by
  have hfold : ∀ (deps : List String) (r : Requests), r.Exact → deps.foldl (fun body dep =>
      match names.lookup dep with
      | some short => Text.replaceAll (requireText dep) (requireText short) body
      | none => body) r.text = (r.rename (successive names deps)).text := by
    intro deps
    induction deps with
    | nil =>
      intro r _
      simp [successive, rename]
    | cons dep deps ih =>
      intro r h
      rw [List.foldl_cons]
      cases hshort : names.lookup dep with
      | none =>
        rw [successive_cons_none hshort]
        exact ih r h
      | some short =>
        rw [successive_cons_some hshort, ← rename_rename]
        simp only
        rw [replaceAll_text h]
        refine ih _ (h.rename fun q hq => ?_)
        split
        · exact hnames dep short hshort
        · exact h.lone q hq
  unfold renamed
  rw [htext]
  exact hfold m.deps r h

/-- What a name is shortened to can be shortened again. -/
example : renamed [("b", "0"), ("0", "1")]
    ⟨"a", "require(\"b\");require(\"0\");", none, ["b", "0"], false⟩
    = "require(\"1\");require(\"1\");".toList := by decide

/-! ## Short names -/

section ShortNames

variable {modules : Modules} {order : List String}

private theorem digitChar_of_mem_toDigits (n : Nat) :
    ∀ c ∈ Nat.toDigits 16 n, ∃ k < 16, c = Nat.digitChar k := by
  induction n using Nat.strongRecOn with
  | ind n ih =>
    intro c hc
    rw [Nat.toDigits_eq_if (by decide)] at hc
    split at hc
    · exact ⟨n, ‹_›, List.mem_singleton.mp hc⟩
    · rcases List.mem_append.mp hc with hc | hc
      · exact ih (n / 16) (by omega) c hc
      · exact ⟨n % 16, by omega, List.mem_singleton.mp hc⟩

private theorem toDigits_inj {m n : Nat} (h : Nat.toDigits 16 m = Nat.toDigits 16 n) : m = n := by
  have hdigit : ∀ j < 16, ∀ k < 16, Nat.digitChar j = Nat.digitChar k → j = k := by decide
  have hpos : ∀ k, 0 < (Nat.toDigits 16 k).length := fun _ => Nat.length_toDigits_pos
  induction n using Nat.strongRecOn generalizing m with
  | ind n ih =>
    rw [Nat.toDigits_eq_if (by decide), Nat.toDigits_eq_if (n := n) (by decide)] at h
    split at h
    · split at h
      · exact hdigit m ‹_› n ‹_› (List.singleton_inj.mp h)
      · have hlength := congrArg List.length h
        simp only [List.length_append, List.length_singleton] at hlength
        have := hpos (n / 16)
        omega
    · split at h
      · have hlength := congrArg List.length h
        simp only [List.length_append, List.length_singleton] at hlength
        have := hpos (m / 16)
        omega
      · obtain ⟨hfront, hlast⟩ := List.append_inj' h rfl
        have hhigh := ih (n / 16) (by omega) hfront
        have hlow := hdigit _ (Nat.mod_lt m (by decide)) _ (Nat.mod_lt n (by decide))
          (List.singleton_inj.mp hlast)
        omega

/-- No request begins inside the request for a name without parentheses that is written as it is. -/
private theorem lone_of_plain (h : ∀ c ∈ id.toList, Json.escapeChar c = [c] ∧ c ≠ '(') : Lone id := by
  rintro ⟨before, behind, hin⟩
  have hplain : id.toList.flatMap Json.escapeChar = id.toList :=
    (List.flatMap_congr fun c hc => (h c hc).1).trans (List.flatMap_singleton' _)
  rw [requireText_eq, hplain] at hin
  have htail : (opening ++ (id.toList ++ ['"', ')'])).tail
      = ['e', 'q', 'u', 'i', 'r', 'e'] ++ '(' :: '"' :: (id.toList ++ ['"', ')']) := rfl
  have hfront : before ++ opening ++ behind
      = (before ++ ['r', 'e', 'q', 'u', 'i', 'r', 'e']) ++ '(' :: '"' :: behind := by simp [opening]
  rw [htail, hfront] at hin
  -- The one opening parenthesis is the one behind `require`, and there is not room enough before it.
  have hbehind : '(' ∉ '"' :: (id.toList ++ ['"', ')']) := by
    simpa using fun hmem => (h _ hmem).2 rfl
  have hbefore : '(' ∉ before ++ ['r', 'e', 'q', 'u', 'i', 'r', 'e'] := by
    have hcount := congrArg (List.count '(') hin
    have hnone : List.count '(' ['e', 'q', 'u', 'i', 'r', 'e'] = 0 := by decide
    simp only [List.count_append, List.count_cons_self, List.count_eq_zero.mpr hbehind, hnone] at hcount
    refine List.count_eq_zero.mp ?_
    rw [List.count_append]
    omega
  have hsplit := congrArg (Text.splitWhere (· == '(')) hin
  have hother : ∀ c ∈ before ++ ['r', 'e', 'q', 'u', 'i', 'r', 'e'], (c == '(') = false :=
    fun c hc => beq_eq_false_iff_ne.mpr fun heq => hbefore (heq ▸ hc)
  rw [Text.splitWhere_append (by rfl) _ hother, Text.splitWhere_append (by rfl) _ (by simp)] at hsplit
  have hlength := congrArg List.length (List.cons.inj hsplit).1
  simp at hlength

/-- A short name is a numeral, and the number tells the module. -/
private theorem lookup_shortNames (h : (shortNames modules order).lookup id = some short) :
    id ∈ order ∧ short ∈ (shortNames modules order).map Prod.snd ∧ Lone short ∧
      ∀ id', (shortNames modules order).lookup id' = some short → id = id' := by
  obtain ⟨own, hsub, hown⟩ : ∃ own : List String, (∀ id ∈ own, id ∈ order) ∧
      shortNames modules order = own.zipIdx.map fun p => (p.1, String.ofList (Nat.toDigits 16 p.2)) :=
    ⟨_, fun _ => List.mem_of_mem_filter, rfl⟩
  have hnumeral : ∀ {id}, (shortNames modules order).lookup id = some short →
      (id, short) ∈ shortNames modules order ∧
        ∃ n, short = String.ofList (Nat.toDigits 16 n) ∧ own[n]? = some id := by
    intro id h
    obtain ⟨front, back, heq, -⟩ := List.lookup_eq_some_iff.mp h
    have hmem : (id, short) ∈ shortNames modules order := by
      rw [heq]
      exact List.mem_append_right _ List.mem_cons_self
    refine ⟨hmem, ?_⟩
    rw [hown] at hmem
    obtain ⟨⟨id', n⟩, hn, hpair⟩ := List.mem_map.mp hmem
    cases hpair
    exact ⟨n, rfl, List.mem_zipIdx_iff_getElem?.mp hn⟩
  obtain ⟨hmem, n, rfl, hget⟩ := hnumeral h
  refine ⟨hsub _ (List.mem_of_getElem? hget), List.mem_map.mpr ⟨_, hmem, rfl⟩, ?_,
    fun id' h' => ?_⟩
  · refine lone_of_plain fun c hc => ?_
    rw [String.toList_ofList] at hc
    obtain ⟨k, hk, rfl⟩ := digitChar_of_mem_toDigits n c hc
    have hdigit : ∀ k < 16, Json.escapeChar (Nat.digitChar k) = [Nat.digitChar k] ∧
        Nat.digitChar k ≠ '(' := by decide
    exact hdigit k hk
  · obtain ⟨-, n', hsame, hget'⟩ := hnumeral h'
    obtain rfl := toDigits_inj (String.ofList_inj.mp hsame)
    rw [hget] at hget'
    exact Option.some.inj hget'

/-- No module of a bundle has the short name of one as its own name. -/
def Apart (modules : Modules) (order : List String) : Prop :=
  ∀ id ∈ order, id ∉ (shortNames modules order).map Prod.snd

/-- Where no short name is shortened again, one name after the other is each name for itself. -/
private theorem successive_eq {names : List (String × String)}
    (h : ∀ id short, names.lookup id = some short → names.lookup short = none) (deps : List String)
    (id : String) :
    successive names deps id = if id ∈ deps then registeredName names id else id := by
  have hkept : ∀ (deps : List String) id, names.lookup id = none → successive names deps id = id := by
    intro deps id hnone
    induction deps with
    | nil => rfl
    | cons dep deps ih =>
      cases hshort : names.lookup dep with
      | none => rw [successive_cons_none hshort, ih]
      | some short =>
        have hne : id ≠ dep := by
          rintro rfl
          rw [hnone] at hshort
          cases hshort
        rw [successive_cons_some hshort, Function.comp_apply, if_neg hne, ih]
  induction deps with
  | nil => rfl
  | cons dep deps ih =>
    by_cases hid : id = dep
    · subst hid
      rw [if_pos List.mem_cons_self]
      unfold registeredName
      cases hshort : names.lookup id with
      | none =>
        rw [successive_cons_none hshort]
        exact hkept deps id hshort
      | some short =>
        rw [successive_cons_some hshort, Function.comp_apply, if_pos rfl]
        exact hkept deps short (h id short hshort)
    · have hmem : id ∈ dep :: deps ↔ id ∈ deps := by simp [hid]
      simp only [hmem]
      rw [← ih]
      cases hshort : names.lookup dep with
      | none => rw [successive_cons_none hshort]
      | some short => rw [successive_cons_some hshort, Function.comp_apply, if_neg hid]

/-- A bundle with short names is the one without them up to the names, if no module has a short name as
its own: distinct modules are registered under distinct names, and a module asks for each of the others
under the name that it is registered as. -/
theorem Apart.renames (h : Apart modules order) :
    (∀ id ∈ order, ∀ id' ∈ order, registeredName (shortNames modules order) id =
      registeredName (shortNames modules order) id' → id = id') ∧
    ∀ (m : Module) (r : Requests), r.Exact → m.js.toList = r.text →
      renamed (shortNames modules order) m = (r.rename fun id =>
        if id ∈ m.deps then registeredName (shortNames modules order) id else id).text := by
  refine ⟨fun id hid id' hid' hsame => ?_, fun m r hexact htext => ?_⟩
  · unfold registeredName at hsame
    cases hshort : (shortNames modules order).lookup id with
    | none =>
      cases hshort' : (shortNames modules order).lookup id' with
      | none => simpa [hshort, hshort'] using hsame
      | some short =>
        simp only [hshort, hshort', Option.getD_none, Option.getD_some] at hsame
        exact absurd (hsame ▸ (lookup_shortNames hshort').2.1) (h id hid)
    | some short =>
      obtain ⟨-, hin, -, hone⟩ := lookup_shortNames hshort
      cases hshort' : (shortNames modules order).lookup id' with
      | none =>
        simp only [hshort, hshort', Option.getD_none, Option.getD_some] at hsame
        exact absurd (hsame ▸ hin) (h id' hid')
      | some short' =>
        simp only [hshort, hshort', Option.getD_some] at hsame
        exact hone id' (hsame ▸ hshort')
  · rw [renamed_text hexact htext fun id short hshort => (lookup_shortNames hshort).2.2.1]
    congr 2
    funext id
    refine successive_eq (fun id short hshort => ?_) m.deps id
    -- A short name that was shortened again would be the name of a module.
    by_contra hagain
    obtain ⟨again, hagain⟩ := Option.ne_none_iff_exists'.mp hagain
    exact h short (lookup_shortNames hagain).1 (lookup_shortNames hshort).2.1

end ShortNames

end Bundle

end Bundler

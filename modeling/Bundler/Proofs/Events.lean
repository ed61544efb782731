/-
What the events of a ledger tell about its entries.

A look that no clearing has followed left its result in the entry, so whoever looks again knows nothing. A
read that came to something left its time and its content there, and as long as no look has seen another
state of the file they make the content current. That is what events tell about an entry (`Event.Tells`).
Each change that a ledger makes to an entry keeps it, together with the event that it writes down.

The law of events (`Event.Lawful`) says when the disk may be asked: for a time only if the last answer was
forgotten, and for a content only in another state than the one that was read last. It looks back at all
events that are there, and what they tell about an entry is all that is needed for the next one
(`Event.Tells.lawful_look`, `Event.Tells.lawful_read`).
-/
import Bundler.Proofs.Ledgers

set_option autoImplicit false

namespace Bundler

/-! ## Events behind each other -/

/-- What stands behind an element of a list with one more at its end. -/
private theorem split_concat {α : Type} {xs before behind : List α} {x e : α}
    (h : xs ++ [x] = before ++ e :: behind) :
    (behind = [] ∧ e = x ∧ before = xs) ∨ ∃ rest, behind = rest ++ [x] ∧ xs = before ++ e :: rest := by
  rcases List.eq_nil_or_concat behind with rfl | ⟨rest, y, rfl⟩
  · obtain ⟨rfl, hx⟩ := List.append_inj' h rfl
    exact .inl ⟨rfl, (List.singleton_inj.mp hx).symm, rfl⟩
  · rw [List.concat_eq_append] at h ⊢
    rw [← List.cons_append, ← List.append_assoc] at h
    obtain ⟨rfl, hx⟩ := List.append_inj' h rfl
    rw [List.singleton_inj.mp hx]
    exact .inr ⟨rest, rfl, rfl⟩

/-- What an entry has of a content that was read at a time, as long as no other state was seen since. -/
structure Shape.Holds (shape : Shape) (e : Entry) (time : Stamp) : Prop where
  found : ∃ t, time = .at t
  readAt : shape.time e = time
  there : shape.isThere e = true
  current : e.current.isSet = true → e.current = time

/-- Then the content is current when the file was looked at. -/
theorem Shape.Holds.isCurrent {shape : Shape} {e : Entry} {time : Stamp} (h : shape.Holds e time)
    (hset : e.current.isSet = true) : shape.isCurrent e = true := by
  have hcurrent := h.current hset
  obtain ⟨t, ht⟩ := h.found
  have hfound : e.found = true := by
    unfold Entry.found
    rw [hcurrent, ht]
    rfl
  have htime := h.readAt.trans hcurrent.symm
  cases shape with
  | text => exact Entry.isTextCurrent_iff.mpr ⟨hfound, htime, Option.isSome_iff_exists.mp h.there⟩
  | bytes => exact Entry.isBufferCurrent_iff.mpr ⟨hfound, htime, Option.isSome_iff_exists.mp h.there⟩

namespace Event

variable {events : List Event} {event : Event} {id : Nat} {e : Entry} {shape : Shape}

/-- An event that says something about the file of an entry, as all clearings do. -/
def Concerns (id : Nat) : Event → Prop
  | .look i _ | .read _ i _ _ => i = id
  | .clear => True

/-- The last look at a file since the last clearing, and what it saw. -/
def LastLook (events : List Event) (id : Nat) (seen : Stamp) : Prop :=
  ∃ before behind, events = before ++ look id seen :: behind ∧ clear ∉ behind ∧
    ∀ s, look id s ∉ behind

/-- What events tell about an entry. -/
structure Tells (events : List Event) (id : Nat) (e : Entry) : Prop where
  /-- What is known of the file was seen by the last look. -/
  seen : e.current.isSet = true → LastLook events id e.current
  /-- A look that was not forgotten is known. -/
  known : ∀ before seen behind, events = before ++ look id seen :: behind → clear ∉ behind →
    e.current.isSet = true
  /-- A content that was read is there, as long as no other state was seen. -/
  holds : ∀ shape before time behind, events = before ++ read shape id time true :: behind →
    (∀ s, look id s ∈ behind → s = time) → shape.Holds e time

/-- The law of events: a file is looked at only if the last look was forgotten, and read only in the state
that the last look saw, which is another one than the last content was read in. -/
def Lawful (before : List Event) : Event → Prop
  | .look id _ => ∀ front seen between, before = front ++ look id seen :: between → clear ∈ between
  | .read shape id time done => LastLook before id time ∧ (∃ t, time = .at t) ∧
      (done = true → ∀ front time' between, before = front ++ read shape id time' true :: between →
        ∃ seen, look id seen ∈ between ∧ seen ≠ time')
  | .clear => True

/-- Every event obeys the law of events. -/
def Orderly (events : List Event) : Prop :=
  ∀ before event behind, events = before ++ event :: behind → Lawful before event

theorem Orderly.concat (h : Orderly events) (hlaw : Lawful events event) : Orderly (events ++ [event]) := by
  intro before e behind heq
  rcases split_concat heq with ⟨-, rfl, rfl⟩ | ⟨rest, -, rfl⟩
  · exact hlaw
  · exact h before e rest rfl

theorem LastLook.concat {seen : Stamp} (h : LastLook events id seen) (hclear : event ≠ clear)
    (hlook : ∀ s, event ≠ look id s) : LastLook (events ++ [event]) id seen := by
  obtain ⟨before, behind, rfl, hnone, hlast⟩ := h
  refine ⟨before, behind ++ [event], by simp, fun hmem => ?_, fun s hmem => ?_⟩
  · rcases List.mem_append.mp hmem with hmem | hmem
    · exact hnone hmem
    · exact hclear (List.mem_singleton.mp hmem).symm
  · rcases List.mem_append.mp hmem with hmem | hmem
    · exact hlast s hmem
    · exact hlook s (List.mem_singleton.mp hmem).symm

/-! ## What is told about an entry -/

namespace Tells

/-- Nothing is told about a file that no event concerns. -/
theorem blank (fullName key : String) (h : ∀ event ∈ events, event.Concerns id → event = clear) :
    Tells events id (.blank fullName key) where
  seen hset := absurd hset Bool.false_ne_true
  known before s behind heq _ := by
    have hmem : look id s ∈ events := heq ▸ by simp
    cases h _ hmem rfl
  holds shape before time behind heq _ := by
    have hmem : read shape id time true ∈ events := heq ▸ by simp
    cases h _ hmem rfl

/-- Events about other files tell nothing new. -/
theorem concat_other (h : Tells events id e) (hother : ¬event.Concerns id) :
    Tells (events ++ [event]) id e where
  seen hset := by
    refine (h.seen hset).concat (fun heq => hother ?_) fun s heq => hother ?_
    · rw [heq]
      trivial
    · rw [heq]
      rfl
  known before s behind heq hclear := by
    rcases split_concat heq with ⟨-, rfl, -⟩ | ⟨rest, rfl, heq'⟩
    · exact absurd rfl hother
    · exact h.known before s rest heq' fun hmem => hclear (List.mem_append_left _ hmem)
  holds shape before time behind heq hsame := by
    rcases split_concat heq with ⟨-, rfl, -⟩ | ⟨rest, rfl, heq'⟩
    · exact absurd rfl hother
    · exact h.holds shape before time rest heq' fun s hmem => hsame s (List.mem_append_left _ hmem)

/-- Other values of an entry than those of its file and its contents do not matter. -/
theorem congr {e' : Entry} (h : Tells events id e) (hcurrent : e'.current = e.current)
    (htime : ∀ shape : Shape, shape.time e' = shape.time e)
    (hthere : ∀ shape : Shape, shape.isThere e' = shape.isThere e) : Tells events id e' where
  seen hset := by
    rw [hcurrent] at hset ⊢
    exact h.seen hset
  known := by
    rw [hcurrent]
    exact h.known
  holds shape before time behind heq hsame := by
    obtain ⟨hfound, hread, hcontent, hstate⟩ := h.holds shape before time behind heq hsame
    exact ⟨hfound, (htime shape).trans hread, (hthere shape).trans hcontent, hcurrent ▸ hstate⟩

/-- After a look the entry knows what was seen. -/
theorem after_look {seen : Stamp} (h : Tells events id e) (hseen : seen.isSet = true) :
    Tells (events ++ [look id seen]) id { e with current := seen } where
  seen _ := ⟨events, [], by simp, List.not_mem_nil, fun _ => List.not_mem_nil⟩
  known _ _ _ _ _ := hseen
  holds shape before time behind heq hsame := by
    rcases split_concat heq with ⟨-, heq, -⟩ | ⟨rest, rfl, heq'⟩
    · cases heq
    · obtain ⟨hfound, hread, hcontent, -⟩ := h.holds shape before time rest heq' fun s hmem =>
        hsame s (List.mem_append_left _ hmem)
      refine ⟨hfound, ?_, ?_, fun _ => hsame seen (by simp)⟩
      · cases shape <;> exact hread
      · cases shape <;> exact hcontent

/-- A clearing forgets what was seen and keeps what was read. -/
theorem after_clear (h : Tells events id e) : Tells (events ++ [clear]) id { e with current := .unset } where
  seen hset := absurd hset Bool.false_ne_true
  known before s behind heq hclear := by
    rcases split_concat heq with ⟨-, heq, -⟩ | ⟨rest, rfl, -⟩
    · cases heq
    · exact absurd (by simp) hclear
  holds shape before time behind heq hsame := by
    rcases split_concat heq with ⟨-, heq, -⟩ | ⟨rest, rfl, heq'⟩
    · cases heq
    · obtain ⟨hfound, hread, hcontent, -⟩ := h.holds shape before time rest heq' fun s hmem =>
        hsame s (List.mem_append_left _ hmem)
      refine ⟨hfound, ?_, ?_, fun hset => absurd hset Bool.false_ne_true⟩
      · cases shape <;> exact hread
      · cases shape <;> exact hcontent

/-- A content that is not current was read in a state that a later look did not see. -/
theorem exists_look {before behind : List Event} {time : Stamp} (h : Tells events id e)
    (hset : e.current.isSet = true) (hcurrent : shape.isCurrent e = false)
    (heq : events = before ++ read shape id time true :: behind) :
    ∃ seen, look id seen ∈ behind ∧ seen ≠ time := by
  by_contra hnone
  have hholds := h.holds shape before time behind heq fun s hmem => by
    by_contra hne
    exact hnone ⟨s, hmem, hne⟩
  rw [hholds.isCurrent hset] at hcurrent
  cases hcurrent

/-- What is kept as one shape does not change what is kept as the other. -/
private theorem time_of_ne {other : Shape} {e' : Entry} (hne : other ≠ shape)
    (he : e' = shape.lost e ∨ ∃ bytes, e' = shape.kept bytes e) :
    other.time e' = other.time e ∧ other.isThere e' = other.isThere e := by
  cases shape with
  | text =>
    cases other with
    | text => exact absurd rfl hne
    | bytes => rcases he with rfl | ⟨bytes, rfl⟩ <;> exact ⟨rfl, rfl⟩
  | bytes =>
    cases other with
    | text => rcases he with rfl | ⟨bytes, rfl⟩ <;> exact ⟨rfl, rfl⟩
    | bytes => exact absurd rfl hne

private theorem holds_of_ne {other : Shape} {time : Stamp} {e' : Entry} (hne : other ≠ shape)
    (h : other.Holds e time) (hcurrent : e'.current = e.current)
    (he : e' = shape.lost e ∨ ∃ bytes, e' = shape.kept bytes e) : other.Holds e' time := by
  obtain ⟨hfound, hread, hcontent, hstate⟩ := h
  obtain ⟨htime, hthere⟩ := time_of_ne hne he
  exact ⟨hfound, htime.trans hread, hthere.trans hcontent, hcurrent ▸ hstate⟩

/-- A content that was not current can be lost. -/
theorem after_loss (h : Tells events id e) (hset : e.current.isSet = true)
    (hcurrent : shape.isCurrent e = false) : Tells events id (shape.lost e) where
  seen := by
    rw [Shape.lost_current]
    exact h.seen
  known := by
    rw [Shape.lost_current]
    exact h.known
  holds other before time behind heq hsame := by
    have hholds := h.holds other before time behind heq hsame
    by_cases hshape : other = shape
    · subst hshape
      rw [hholds.isCurrent hset] at hcurrent
      cases hcurrent
    · exact holds_of_ne hshape hholds (shape.lost_current e) (.inl rfl)

/-- A read, whatever comes of it. -/
private theorem after_read {done : Bool} {e' : Entry} (h : Tells events id e) (hfound : e.found = true)
    (hcurrent : shape.isCurrent e = false)
    (he : e' = shape.lost e ∧ done = false ∨ ∃ bytes, e' = shape.kept bytes e) :
    Tells (events ++ [read shape id e.current done]) id e' := by
  obtain ⟨t, ht⟩ := Entry.at_of_found hfound
  have hset : e.current.isSet = true := by
    rw [ht]
    rfl
  have hstate : e'.current = e.current := by
    rcases he with ⟨rfl, -⟩ | ⟨bytes, rfl⟩
    · exact shape.lost_current e
    · exact shape.kept_current bytes e
  refine ⟨fun _ => ?_, fun _ _ _ _ _ => hstate ▸ hset, fun other before time behind heq hsame => ?_⟩
  · rw [hstate]
    exact (h.seen hset).concat (fun heq => by cases heq) fun s heq => by cases heq
  · rcases split_concat heq with ⟨-, heq, -⟩ | ⟨rest, rfl, heq'⟩
    · -- the read itself, which came to something
      cases heq
      rcases he with ⟨-, hdone⟩ | ⟨bytes, rfl⟩
      · cases hdone
      · refine ⟨⟨t, ht⟩, ?_, ?_, fun _ => hstate⟩
        · cases shape <;> rfl
        · cases shape <;> rfl
    · have hsame' : ∀ s, look id s ∈ rest → s = time := fun s hmem =>
        hsame s (List.mem_append_left _ hmem)
      by_cases hshape : other = shape
      · subst hshape
        obtain ⟨s, hmem, hne⟩ := h.exists_look hset hcurrent heq'
        exact absurd (hsame' s hmem) hne
      · exact holds_of_ne hshape (h.holds other before time rest heq' hsame') hstate (he.imp_left And.left)

theorem after_read_kept (h : Tells events id e) (hfound : e.found = true) (hcurrent : shape.isCurrent e = false)
    (bytes : Bytes) :
    Tells (events ++ [read shape id e.current true]) id (shape.kept bytes e) :=
  h.after_read hfound hcurrent (.inr ⟨bytes, rfl⟩)

theorem after_read_lost (h : Tells events id e) (hfound : e.found = true) (hcurrent : shape.isCurrent e = false) :
    Tells (events ++ [read shape id e.current false]) id (shape.lost e) :=
  h.after_read hfound hcurrent (.inl ⟨rfl, rfl⟩)

/-- A look is lawful where nothing is known. -/
theorem lawful_look (h : Tells events id e) (hunset : e.current = .unset) (seen : Stamp) :
    Lawful events (look id seen) := by
  intro front s between heq
  by_contra hclear
  have hset := h.known front s between heq hclear
  rw [hunset] at hset
  cases hset

/-- A read is lawful where the file was found and the content is not current. -/
theorem lawful_read (h : Tells events id e) (hfound : e.found = true) (hcurrent : shape.isCurrent e = false)
    (done : Bool) : Lawful events (read shape id e.current done) := by
  obtain ⟨t, ht⟩ := Entry.at_of_found hfound
  have hset : e.current.isSet = true := by
    rw [ht]
    rfl
  exact ⟨h.seen hset, ⟨t, ht⟩, fun _ front time between heq => h.exists_look hset hcurrent heq⟩

end Tells

end Event

end Bundler

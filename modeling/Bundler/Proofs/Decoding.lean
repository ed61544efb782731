/-
What a reader of mappings accepts, and where it stops.

The numbers of a segment are differences, so what a segment says are sums: its generated column is the
sum of the first numbers on its line, and the numbers of its origin are the sums of the numbers of all
segments up to it (`SourceMap.total`). A position is a segment with all that these sums are made of
(`SourceMap.Position`). A reader goes on as long as the positions are admitted: the segment has one, four
or five numbers, no sum but that of the name is negative, and every sum is a word. So either all positions
are admitted, and what is read is exactly their sums, or the reader stops at the first one that is not
(`SourceMap.decodeMappings_cases`). It stops with a refusal of the segment, unless a sum has left the
words: then it stops with an overflow, which is no refusal.

Nothing else goes wrong. A piece that is not empty holds a number, if it can be read at all, so the first
number is always there. And the loop that reads the letters keeps within the words although it shifts by
sixty bits: what it adds has no bit in common with what it has (`Vlq.decodeWords_eq`).
-/
import Bundler.Proofs.Mappings

set_option autoImplicit false

namespace Bundler

namespace Vlq

/-! ## The loop of a reader on words -/

/-- The opposite of a word, which the least word does not have. -/
def negateWord (v : Int) : Except Fault Int :=
  if v = -signedBound then .error .overflow else .ok (-v)

/-- The integer whose sign is in the lowest bit of a word, the magnitude being a word first. -/
def unzigzagWord (w : Int) : Except Fault Int :=
  if w % 2 = 1 then negateWord (w / 2) else .ok (w / 2)

/-- The loop that reads letters on words: the bits of each letter are added at their place. -/
def decodeWords (value : Int) (shift : Nat) : List Char → Except Fault (Option (List Int))
  | [] => .ok (if shift = 0 then some [] else none)
  | c :: cs =>
    match digitValue? c with
    | none => .ok none
    | some d => do
      let value ← addWords value (toWord (d % 32 * pow2 shift))
      if 32 ≤ d then
        if 60 < shift + 5 then return none else decodeWords value (shift + 5) cs
      else
        let v ← unzigzagWord value
        return (← decodeWords 0 0 cs).map (v :: ·)

theorem isWord_iff {v : Int} :
    isWord v = true ↔ -9223372036854775808 ≤ v ∧ v < 9223372036854775808 := by
  have hbound : signedBound = 9223372036854775808 := rfl
  unfold isWord
  rw [hbound, Bool.and_eq_true, decide_eq_true_iff, decide_eq_true_iff]

theorem addWords_of_isWord {a b : Int} (h : isWord (a + b) = true) : addWords a b = .ok (a + b) :=
  if_pos h

/-- A natural number with a sign bit as a word. -/
private theorem toWord_eq (n : Nat) :
    toWord n = if n % 18446744073709551616 < 9223372036854775808
      then ((n % 18446744073709551616 : Nat) : Int)
      else ((n % 18446744073709551616 : Nat) : Int) - 18446744073709551616 := by
  have hword : pow2 64 = 18446744073709551616 := rfl
  have hbound : signedBound = 9223372036854775808 := rfl
  unfold toWord
  simp only [hword, hbound]
  split <;> split <;> omega

theorem isWord_toWord (n : Nat) : isWord (toWord n) = true := by
  rw [isWord_iff, toWord_eq]
  split <;> omega

private theorem pow2_le {m n : Nat} (h : m ≤ n) : pow2 m ≤ pow2 n :=
  Nat.pow_le_pow_right (by decide) h

/-- Five more bits make a number of as many bits more. -/
private theorem lt_pow2_add_five {value shift d : Nat} (hvalue : value < pow2 shift) (hd : d < 32) :
    value + d * pow2 shift < pow2 (shift + 5) := by
  have hstep : pow2 (shift + 5) = 32 * pow2 shift := by
    change 2 ^ (shift + 5) = 32 * 2 ^ shift
    rw [Nat.pow_add, Nat.mul_comm]
  have hbits : d * pow2 shift ≤ 31 * pow2 shift := Nat.mul_le_mul_right _ (by omega)
  omega

/-- Five more bits are added to those below them, without an overflow. -/
private theorem addWords_bits {value shift d : Nat} (hvalue : value < pow2 shift)
    (hshift : shift % 5 = 0) (hlast : shift ≤ 60) (hd : d < 32) :
    addWords value (toWord (d * pow2 shift)) = .ok (toWord (value + d * pow2 shift)) := by
  have hsum : (value : Int) + toWord (d * pow2 shift) = toWord (value + d * pow2 shift) := by
    by_cases hend : shift = 60
    · -- the bits of the last letter may reach the sign and go beyond it
      subst hend
      have hpow : pow2 60 = 1152921504606846976 := rfl
      rw [hpow] at hvalue ⊢
      rw [toWord_eq, toWord_eq]
      split <;> split <;> omega
    · have hbelow : value + d * pow2 shift < pow2 63 :=
        Nat.lt_of_lt_of_le (lt_pow2_add_five hvalue hd) (pow2_le (by omega))
      rw [toWord_of_lt (by omega), toWord_of_lt hbelow]
      omega
  rw [addWords_of_isWord (by rw [hsum]; exact isWord_toWord _), hsum]

/-- The magnitude of a word has an opposite, for it is half of a word. -/
theorem unzigzagWord_eq {w : Int} (h : isWord w = true) : unzigzagWord w = .ok (unzigzag w) := by
  have hlow := (isWord_iff.mp h).1
  have hbound : signedBound = 9223372036854775808 := rfl
  unfold unzigzagWord unzigzag negateWord
  rw [hbound]
  by_cases hodd : w % 2 = 1
  · rw [if_pos hodd, if_pos hodd, if_neg (by omega)]
  · rw [if_neg hodd, if_neg hodd]

/-- The loop on words does not overflow, and reads what a reader without bounds reads. -/
private theorem decodeWords_eq_decodeFrom :
    ∀ (cs : List Char) {value shift : Nat}, value < pow2 shift → shift % 5 = 0 → shift ≤ 60 →
      decodeWords value shift cs = .ok (decodeFrom value shift cs)
  | [], value, shift, _, _, _ => rfl
  | c :: cs, value, shift, hvalue, hshift, hlast => by
    rw [decodeWords, decodeFrom]
    cases digitValue? c with
    | none => rfl
    | some d =>
      -- what was read fits below the shift, so the bits of the letter go where there are none yet
      have hlow : d % 32 < 32 := Nat.mod_lt d (by decide)
      simp only [addWords_bits hvalue hshift hlast hlow]
      change (if 32 ≤ d then _ else _) = _
      by_cases hmore : 32 ≤ d
      · rw [if_pos hmore, if_pos hmore]
        by_cases hlong : 60 < shift + 5
        · rw [if_pos hlong, if_pos hlong]
          rfl
        · rw [if_neg hlong, if_neg hlong]
          have hnext := lt_pow2_add_five hvalue hlow
          rw [toWord_of_lt (Nat.lt_of_lt_of_le hnext (pow2_le (by omega)))]
          exact decodeWords_eq_decodeFrom cs hnext (by omega) (by omega)
      · rw [if_neg hmore, if_neg hmore, unzigzagWord_eq (isWord_toWord _)]
        have hrest := decodeWords_eq_decodeFrom cs (pow2_pos 0) rfl (Nat.zero_le 60)
        change (decodeWords 0 0 cs >>= fun rest => pure (rest.map _)) = _
        rw [show decodeWords 0 0 cs = _ from hrest]
        rfl

/-- Letters are read on words without an overflow. -/
theorem decodeWords_eq (cs : List Char) : decodeWords 0 0 cs = .ok (decode? cs) :=
  decodeWords_eq_decodeFrom cs (pow2_pos 0) rfl (Nat.zero_le _)

/-- Letters that can be read hold a number. -/
theorem eq_nil_of_decodeFrom : ∀ {cs : List Char} {value shift : Nat},
    decodeFrom value shift cs = some [] → cs = [] ∧ shift = 0
  | [], value, shift, h => by
    unfold decodeFrom at h
    split at h
    · exact ⟨rfl, ‹_›⟩
    · cases h
  | c :: cs, value, shift, h => by
    unfold decodeFrom at h
    split at h
    · cases h
    · simp only at h
      split at h
      · split at h
        · cases h
        · exact absurd (eq_nil_of_decodeFrom h).2 (by omega)
      · obtain ⟨vs, -, hvs⟩ := Option.map_eq_some_iff.mp h
        cases hvs

end Vlq

namespace SourceMap

open Vlq

/-! ## Sums -/

/-- The sum of the numbers with an index in some segments; a segment without such a number adds
nothing. -/
def total (i : Nat) : List (List Int) → Int
  | [] => 0
  | values :: segments => values.getD i 0 + total i segments

theorem total_concat (i : Nat) (segments : List (List Int)) (values : List Int) :
    total i (segments ++ [values]) = total i segments + values.getD i 0 := by
  induction segments with
  | nil => simp [total]
  | cons first segments ih => simp only [List.cons_append, total, ih, Int.add_assoc]

/-- The numbers behind some segments. -/
def Running.of (segments : List (List Int)) : Running :=
  ⟨total 1 segments, total 2 segments, total 3 segments, total 4 segments⟩

/-- The numbers behind one more segment. -/
def Running.plus (r : Running) (values : List Int) : Running :=
  ⟨r.source + values.getD 1 0, r.line + values.getD 2 0, r.column + values.getD 3 0,
    r.name + values.getD 4 0⟩

theorem Running.of_concat (segments : List (List Int)) (values : List Int) :
    Running.of (segments ++ [values]) = (Running.of segments).plus values := by
  simp only [Running.of, Running.plus, total_concat]

/-- Numbers that are words. -/
structure Running.Fits (r : Running) : Prop where
  source : isWord r.source = true
  line : isWord r.line = true
  column : isWord r.column = true
  name : isWord r.name = true

instance (r : Running) : Decidable r.Fits :=
  decidable_of_iff (isWord r.source = true ∧ isWord r.line = true ∧ isWord r.column = true ∧
      isWord r.name = true)
    ⟨fun ⟨hsource, hline, hcolumn, hname⟩ => ⟨hsource, hline, hcolumn, hname⟩,
      fun h => ⟨h.source, h.line, h.column, h.name⟩⟩

/-- Numbers that name a place in a source. Nothing is asked of the name. -/
structure Running.Valid (r : Running) : Prop where
  source : 0 ≤ r.source
  line : 0 ≤ r.line
  column : 0 ≤ r.column

instance (r : Running) : Decidable r.Valid :=
  decidable_of_iff (0 ≤ r.source ∧ 0 ≤ r.line ∧ 0 ≤ r.column)
    ⟨fun ⟨hsource, hline, hcolumn⟩ => ⟨hsource, hline, hcolumn⟩,
      fun h => ⟨h.source, h.line, h.column⟩⟩

theorem Running.fits_nil : (Running.of []).Fits := ⟨rfl, rfl, rfl, rfl⟩

/-- A segment among those before it, each as its numbers. -/
structure Position where
  /-- The segments of all lines, up to this one. -/
  all : List (List Int)
  /-- The segments of its line, up to this one. -/
  line : List (List Int)
  /-- Its own numbers. -/
  values : List Int

namespace Position

/-- The position behind some segments, of which the last ones stand on its line. -/
def behind (all line : List (List Int)) (values : List Int) : Position :=
  ⟨all ++ [values], line ++ [values], values⟩

/-- The generated column: the sum of the first numbers on the line. -/
def column (p : Position) : Int := total 0 p.line

/-- The numbers of the origin: the sums of the numbers of all segments. -/
def running (p : Position) : Running := .of p.all

/-- A position at which a sum leaves the words. Only a segment with an origin adds to other sums than
that of the column. -/
def Overflows (p : Position) : Prop :=
  ¬isWord p.column = true ∨ (p.values.length = 4 ∨ p.values.length = 5) ∧ ¬p.running.Fits

/-- A position that a reader goes beyond. -/
structure Admitted (p : Position) : Prop where
  length : p.values.length = 1 ∨ p.values.length = 4 ∨ p.values.length = 5
  column : 0 ≤ p.column
  valid : p.running.Valid
  columnFits : isWord p.column = true
  fits : p.running.Fits

instance (p : Position) : Decidable p.Overflows :=
  inferInstanceAs (Decidable (_ ∨ _))

instance (p : Position) : Decidable p.Admitted :=
  decidable_of_iff ((p.values.length = 1 ∨ p.values.length = 4 ∨ p.values.length = 5) ∧
      0 ≤ p.column ∧ p.running.Valid ∧ isWord p.column = true ∧ p.running.Fits)
    ⟨fun ⟨hlength, hcolumn, hvalid, hcolumnFits, hfits⟩ =>
      ⟨hlength, hcolumn, hvalid, hcolumnFits, hfits⟩,
      fun h => ⟨h.length, h.column, h.valid, h.columnFits, h.fits⟩⟩

/-- The segment with the sums of its position. -/
def segment (p : Position) : Segment :=
  ⟨p.column.toNat,
    if p.values.length = 1 then none
    else some ⟨p.running.source.toNat, p.running.line.toNat, p.running.column.toNat,
      if p.values.length = 5 then some (toUnsigned p.running.name) else none⟩⟩

end Position

/-- An origin whose numbers are the sums of the numbers of some segments. The sum of the name may be
negative, and then it is read as an unsigned word. -/
structure Origin.Sums (o : Origin) (all : List (List Int)) : Prop where
  source : (o.source : Int) = total 1 all
  line : (o.line : Int) = total 2 all
  column : (o.column : Int) = total 3 all
  name : ∀ n, o.name = some n → n = toUnsigned (total 4 all)
  exact : ∀ n, o.name = some n → 0 ≤ total 4 all → (n : Int) = total 4 all

/-- A segment whose numbers are sums: its column on its line, its origin on all lines. -/
structure Segment.Sums (s : Segment) (all line : List (List Int)) : Prop where
  column : (s.column : Int) = total 0 line
  origin : ∀ o, s.origin = some o → o.Sums all

private theorem toUnsigned_of_nonneg {v : Int} (hword : isWord v = true) (h : 0 ≤ v) :
    (toUnsigned v : Int) = v := by
  have hlt := (isWord_iff.mp hword).2
  have hpow : pow2 64 = 18446744073709551616 := rfl
  unfold toUnsigned
  rw [hpow]
  omega

theorem Position.Admitted.sums {p : Position} (h : p.Admitted) : p.segment.Sums p.all p.line where
  column := Int.toNat_of_nonneg h.column
  origin o ho := by
    unfold Position.segment at ho
    simp only at ho
    split at ho
    · cases ho
    · cases ho
      have hname (n : Nat) (hn : (if p.values.length = 5 then
          some (toUnsigned p.running.name) else none) = some n) : n = toUnsigned p.running.name :=
        (Option.some.inj (Option.ite_none_right_eq_some.mp hn).2).symm
      exact ⟨Int.toNat_of_nonneg h.valid.source, Int.toNat_of_nonneg h.valid.line,
        Int.toNat_of_nonneg h.valid.column, hname,
        fun n hn hpos => by rw [hname n hn]; exact toUnsigned_of_nonneg h.fits.name hpos⟩

/-! ## One segment -/

section Segment

/-- What a reader makes of sums that are words. -/
def settle (r : Running) (column : Int) (name : Option (Option Nat)) (text : List Char) :
    Except Failure (Running × Int × Segment) :=
  if column < 0 || r.source < 0 || r.line < 0 || r.column < 0 then badSegment text
  else .ok (r, column, ⟨column.toNat,
    name.map fun name => ⟨r.source.toNat, r.line.toNat, r.column.toNat, name⟩⟩)

private theorem bind_addWords {α : Type} (a b : Int) (f : Int → Except Failure α) :
    ((liftM (addWords a b) : Except Failure Int) >>= f)
      = if isWord (a + b) = true then f (a + b) else .error (.fault .overflow) := by
  unfold addWords
  split <;> rfl

variable {r : Running} {generated first source line column name : Int} {text : List Char}

private theorem decodeSegment_one (h : decode? text = some [first]) :
    decodeSegment r generated text
      = if isWord (generated + first) = true then settle r (generated + first) none text
        else .error (.fault .overflow) := by
  unfold decodeSegment
  rw [h]
  simp only [bind_addWords]
  rfl

private theorem decodeSegment_four (hname : isWord r.name = true)
    (h : decode? text = some [first, source, line, column]) :
    decodeSegment r generated text
      = if isWord (generated + first) = true ∧ (r.plus [first, source, line, column]).Fits then
          settle (r.plus [first, source, line, column]) (generated + first) (some none) text
        else .error (.fault .overflow) := by
  have hplus : r.plus [first, source, line, column]
      = ⟨r.source + source, r.line + line, r.column + column, r.name⟩ := by
    simp [Running.plus]
  rw [hplus]
  unfold decodeSegment
  rw [h]
  simp only [bind_addWords, ← ite_and]
  refine (if_congr ?_ rfl rfl).trans rfl
  exact ⟨fun ⟨hfirst, hsource, hline, hcolumn⟩ => ⟨hfirst, hsource, hline, hcolumn, hname⟩,
    fun ⟨hfirst, hfits⟩ => ⟨hfirst, hfits.source, hfits.line, hfits.column⟩⟩

private theorem decodeSegment_five
    (h : decode? text = some [first, source, line, column, name]) :
    decodeSegment r generated text
      = if isWord (generated + first) = true ∧ (r.plus [first, source, line, column, name]).Fits then
          settle (r.plus [first, source, line, column, name]) (generated + first)
            (some (some (toUnsigned (r.plus [first, source, line, column, name]).name))) text
        else .error (.fault .overflow) := by
  unfold decodeSegment
  rw [h]
  simp only [bind_addWords, ← ite_and]
  refine (if_congr ?_ rfl rfl).trans rfl
  exact ⟨fun ⟨hfirst, hsource, hline, hcolumn, hname⟩ => ⟨hfirst, hsource, hline, hcolumn, hname⟩,
    fun ⟨hfirst, hfits⟩ => ⟨hfirst, hfits.source, hfits.line, hfits.column, hfits.name⟩⟩

/-- A segment with another count of numbers is refused once its first number is added. -/
private theorem decodeSegment_other {more : List Int} (h : decode? text = some (first :: more))
    (hlength : ¬(more.length = 0 ∨ more.length = 3 ∨ more.length = 4)) :
    decodeSegment r generated text
      = if isWord (generated + first) = true then badSegment text
        else .error (.fault .overflow) := by
  unfold decodeSegment
  rw [h]
  simp only [bind_addWords]
  match more, hlength with
  | [], hother => exact absurd (.inl rfl) hother
  | [_], _ => rfl
  | [_, _], _ => rfl
  | [_, _, _], hother => exact absurd (.inr (.inl rfl)) hother
  | [_, _, _, _], hother => exact absurd (.inr (.inr rfl)) hother
  | _ :: _ :: _ :: _ :: _ :: _, _ => rfl

/-- What a reader makes of a position whose sums are words. -/
def settleAt (p : Position) (text : List Char) : Except Failure (Running × Int × Segment) :=
  if p.Admitted then .ok (p.running, p.column, p.segment) else badSegment text

/-- What a reader makes of a position. -/
def verdict (p : Position) (text : List Char) : Except Failure (Running × Int × Segment) :=
  if p.Overflows then .error (.fault .overflow) else settleAt p text

variable {all row : List (List Int)} {values : List Int}

private theorem settle_eq {p : Position} {name : Option (Option Nat)}
    (hlength : p.values.length = 1 ∨ p.values.length = 4 ∨ p.values.length = 5)
    (hcolumn : isWord p.column = true) (hfits : p.running.Fits)
    (hsegment : (⟨p.column.toNat, name.map fun name =>
      ⟨p.running.source.toNat, p.running.line.toNat, p.running.column.toNat, name⟩⟩ : Segment)
        = p.segment) :
    settle p.running p.column name text
      = settleAt p text := by
  unfold settle settleAt
  rw [hsegment]
  by_cases hp : p.Admitted
  · rw [if_pos hp, if_neg]
    obtain ⟨-, hcol, ⟨hsrc, hlin, hcl⟩, -, -⟩ := hp
    simp only [Bool.or_eq_true, decide_eq_true_eq]
    omega
  · rw [if_neg hp, if_pos]
    by_contra hnot
    simp only [Bool.or_eq_true, decide_eq_true_eq, not_or, Int.not_lt] at hnot
    obtain ⟨⟨⟨hcol, hsrc⟩, hlin⟩, hcl⟩ := hnot
    exact hp ⟨hlength, hcol, ⟨hsrc, hlin, hcl⟩, hcolumn, hfits⟩

private theorem verdict_of_length {p : Position}
    (hlength : ¬(p.values.length = 4 ∨ p.values.length = 5)) :
    verdict p text
      = if isWord p.column = true then settleAt p text else .error (.fault .overflow) := by
  unfold verdict
  by_cases hcolumn : isWord p.column = true
  · rw [if_pos hcolumn, if_neg fun h => h.elim (· hcolumn) fun h => hlength h.1]
  · rw [if_neg hcolumn, if_pos (.inl hcolumn)]

private theorem verdict_of_origin {p : Position}
    (hlength : p.values.length = 4 ∨ p.values.length = 5) :
    verdict p text
      = if isWord p.column = true ∧ p.running.Fits then settleAt p text
        else .error (.fault .overflow) := by
  unfold verdict
  by_cases hfits : isWord p.column = true ∧ p.running.Fits
  · rw [if_pos hfits, if_neg fun h => h.elim (· hfits.1) fun h => h.2 hfits.2]
  · rw [if_neg hfits, if_pos]
    by_cases hcolumn : isWord p.column = true
    · exact .inr ⟨hlength, fun h => hfits ⟨hcolumn, h⟩⟩
    · exact .inl hcolumn

private theorem decodeSegment_other_eq {p : Position} {more : List Int}
    (h : decode? text = some (first :: more)) (hvalues : p.values = first :: more)
    (hcolumn : p.column = generated + first)
    (hlength : ¬(more.length = 0 ∨ more.length = 3 ∨ more.length = 4)) :
    decodeSegment r generated text = verdict p text := by
  have hcount : p.values.length = more.length + 1 := by rw [hvalues]; rfl
  have hrefused : ¬p.Admitted := fun hp => hlength (by have := hp.length; omega)
  rw [decodeSegment_other h hlength, verdict_of_length (by omega), hcolumn, settleAt,
    if_neg hrefused]

/-- Behind numbers that are words, a reader gives the verdict on the position that a segment makes. -/
theorem decodeSegment_eq_verdict (hfits : (Running.of all).Fits)
    (h : decode? text = some values) (hne : values ≠ []) :
    decodeSegment (.of all) (total 0 row) text
      = verdict (.behind all row values) text := by
  have hcolumn : (Position.behind all row values).column
      = total 0 row + values.getD 0 0 := total_concat 0 row values
  have hrunning : (Position.behind all row values).running = (Running.of all).plus values :=
    Running.of_concat all values
  have hvalues : (Position.behind all row values).values = values := rfl
  generalize Position.behind all row values = p at hcolumn hrunning hvalues
  -- one case for each count of numbers that is read, and the others, which are refused
  match values, hne with
  | [first], _ =>
    have hsame : p.running = .of all := by simp [hrunning, Running.plus]
    replace hcolumn : p.column = total 0 row + first := hcolumn
    rw [decodeSegment_one h, verdict_of_length (by simp [hvalues]), ← hcolumn, ← hsame]
    rw [← hsame] at hfits
    refine ite_congr rfl (fun hword => ?_) fun _ => rfl
    exact settle_eq (.inl (by simp [hvalues])) hword hfits (by simp [Position.segment, hvalues])
  | [first, source, line, column], _ =>
    have hlength : p.values.length = 4 ∨ p.values.length = 5 := by simp [hvalues]
    replace hcolumn : p.column = total 0 row + first := hcolumn
    rw [decodeSegment_four hfits.name h, verdict_of_origin hlength, ← hcolumn, ← hrunning]
    refine ite_congr rfl (fun ⟨hword, hsums⟩ => ?_) fun _ => rfl
    exact settle_eq (.inr hlength) hword hsums (by simp [Position.segment, hvalues])
  | [first, source, line, column, name], _ =>
    have hlength : p.values.length = 4 ∨ p.values.length = 5 := by simp [hvalues]
    replace hcolumn : p.column = total 0 row + first := hcolumn
    rw [decodeSegment_five h, verdict_of_origin hlength, ← hcolumn, ← hrunning]
    refine ite_congr rfl (fun ⟨hword, hsums⟩ => ?_) fun _ => rfl
    exact settle_eq (.inr hlength) hword hsums (by simp [Position.segment, hvalues])
  | [first, _], _ => exact decodeSegment_other_eq h hvalues hcolumn (by simp)
  | [first, _, _], _ => exact decodeSegment_other_eq h hvalues hcolumn (by simp)
  | first :: _ :: _ :: _ :: _ :: _ :: _, _ =>
    exact decodeSegment_other_eq h hvalues hcolumn (by simp)

/-- A reader stops at a piece: with an overflow if a sum leaves the words, and else with a refusal. -/
def StopsAt {α : Type} (all line : List (List Int)) (text : List Char) (x : Except Failure α) : Prop :=
  (x = .error (.fault .overflow) ∧
    ∃ values, decode? text = some values ∧ (Position.behind all line values).Overflows) ∨
  (x = badSegment text ∧
    ∀ values, decode? text = some values →
      ¬(Position.behind all line values).Admitted ∧ ¬(Position.behind all line values).Overflows)

theorem StopsAt.bind {α β : Type} {x : Except Failure α} {row : List (List Int)}
    (h : StopsAt all row text x) (f : α → Except Failure β) :
    StopsAt all row text (x >>= f) := by
  rcases h with ⟨rfl, h⟩ | ⟨rfl, h⟩
  · exact .inl ⟨rfl, h⟩
  · exact .inr ⟨rfl, h⟩

/-- A reader goes beyond a piece with the sums behind it, or it stops there. -/
theorem decodeSegment_cases (row : List (List Int)) (hfits : (Running.of all).Fits)
    (hne : text ≠ []) :
    (∃ values, decode? text = some values ∧ (Position.behind all row values).Admitted ∧
      decodeSegment (.of all) (total 0 row) text
        = .ok (.of (all ++ [values]), total 0 (row ++ [values]),
          (Position.behind all row values).segment)) ∨
    StopsAt all row text (decodeSegment (.of all) (total 0 row) text) := by
  cases h : decode? text with
  | none =>
    refine .inr (.inr ⟨?_, fun values hvalues => by rw [h] at hvalues; cases hvalues⟩)
    unfold decodeSegment
    rw [h]
  | some values =>
    have hvalues : values ≠ [] := fun hnil => hne (eq_nil_of_decodeFrom (hnil ▸ h)).1
    rw [decodeSegment_eq_verdict hfits h hvalues, verdict, settleAt]
    by_cases hover : (Position.behind all row values).Overflows
    · rw [if_pos hover]
      exact .inr (.inl ⟨rfl, values, h, hover⟩)
    · rw [if_neg hover]
      by_cases hadmitted : (Position.behind all row values).Admitted
      · rw [if_pos hadmitted]
        exact .inl ⟨values, rfl, hadmitted, rfl⟩
      · rw [if_neg hadmitted]
        refine .inr (.inr ⟨rfl, fun values' h' => ?_⟩)
        cases h.symm.trans h'
        exact ⟨hadmitted, hover⟩

end Segment

/-! ## One line -/

/-- The positions that segments make on a line, behind others. -/
def positionsOn (all line : List (List Int)) : List (List Int) → List Position
  | [] => []
  | values :: segments =>
    .behind all line values :: positionsOn (all ++ [values]) (line ++ [values]) segments

/-- A reader stops on a line, at the first of its pieces that is not admitted. -/
def StopsOn {α : Type} (all line : List (List Int)) (texts : List (List Char))
    (x : Except Failure α) : Prop :=
  ∃ before text after segments, texts = before ++ text :: after ∧
    before.map decode? = segments.map some ∧ (∀ p ∈ positionsOn all line segments, p.Admitted) ∧
    StopsAt (all ++ segments) (line ++ segments) text x

variable {α β : Type} {all line : List (List Int)} {texts : List (List Char)}
  {x : Except Failure α}

theorem StopsOn.bind (h : StopsOn all line texts x) (f : α → Except Failure β) :
    StopsOn all line texts (x >>= f) := by
  obtain ⟨before, text, after, segments, htexts, hbefore, hadmitted, hstop⟩ := h
  exact ⟨before, text, after, segments, htexts, hbefore, hadmitted, hstop.bind f⟩

theorem StopsAt.stopsOn {text : List Char} (h : StopsAt all line text x) :
    StopsOn all line (text :: texts) x :=
  ⟨[], text, texts, [], rfl, rfl, List.forall_mem_nil _, by simpa using h⟩

theorem StopsOn.cons {text : List Char} {values : List Int} (hvalues : decode? text = some values)
    (hadmitted : (Position.behind all line values).Admitted)
    (h : StopsOn (all ++ [values]) (line ++ [values]) texts x) : StopsOn all line (text :: texts) x := by
  obtain ⟨before, last, after, segments, rfl, hbefore, hothers, hstop⟩ := h
  refine ⟨text :: before, last, after, values :: segments, rfl, by simp [hvalues, hbefore], ?_,
    by simpa using hstop⟩
  intro p hp
  rcases List.mem_cons.mp hp with rfl | hp
  · exact hadmitted
  · exact hothers p hp

/-- A reader goes to the end of a line with the sums of its segments, or it stops on it. -/
theorem decodeLine_cases (line : List (List Int)) (htexts : ∀ text ∈ texts, text ≠ [])
    (hfits : (Running.of all).Fits) :
    (∃ segments, texts.map decode? = segments.map some ∧
      (∀ p ∈ positionsOn all line segments, p.Admitted) ∧ (Running.of (all ++ segments)).Fits ∧
      decodeLine (.of all) (total 0 line) texts
        = .ok (.of (all ++ segments), (positionsOn all line segments).map Position.segment)) ∨
    StopsOn all line texts (decodeLine (.of all) (total 0 line) texts) := by
  induction texts generalizing all line with
  | nil =>
    rw [show all = all ++ [] from (List.append_nil all).symm] at hfits
    exact .inl ⟨[], rfl, List.forall_mem_nil _, hfits, by rw [List.append_nil]; rfl⟩
  | cons text texts ih =>
    rcases decodeSegment_cases line hfits (htexts text List.mem_cons_self) with
      ⟨values, hvalues, hadmitted, hsegment⟩ | hstop
    · have heq : decodeLine (.of all) (total 0 line) (text :: texts)
          = decodeLine (.of (all ++ [values])) (total 0 (line ++ [values])) texts >>= fun read =>
            pure (read.1, (Position.behind all line values).segment :: read.2) := by
        rw [decodeLine, hsegment]
        rfl
      -- behind an admitted segment the numbers are words again, so the rest of the line is read from there
      have hfits' : (Running.of (all ++ [values])).Fits := hadmitted.fits
      rw [heq]
      rcases ih (line ++ [values]) (fun t ht => htexts t (List.mem_cons_of_mem text ht))
          hfits' with ⟨segments, hdecoded, hothers, hrunning, hline⟩ | hstop
      · refine .inl ⟨values :: segments, by simp [hvalues, hdecoded],
          List.forall_mem_cons.mpr ⟨hadmitted, hothers⟩, by rwa [List.append_cons], ?_⟩
        rw [hline, List.append_cons all values segments]
        rfl
      · exact .inr ((hstop.bind _).cons hvalues hadmitted)
    · exact .inr (hstop.bind _).stopsOn

/-! ## All lines -/

/-- The positions that the segments of lines make, behind others. -/
def positionsFrom (all : List (List Int)) : List (List (List Int)) → List (List Position)
  | [] => []
  | segments :: lines => positionsOn all [] segments :: positionsFrom (all ++ segments) lines

/-- A reader stops within lines, at the first piece of a line that is not admitted. -/
def StopsWithin (all : List (List Int)) (lines : List (List Char)) (x : Except Failure α) : Prop :=
  ∃ before line after segments, lines = before ++ line :: after ∧
    before.map (fun l => (pieces l).map decode?) = segments.map (List.map some) ∧
    (∀ row ∈ positionsFrom all segments, ∀ p ∈ row, p.Admitted) ∧
    StopsOn (all ++ segments.flatten) [] (pieces line) x

theorem ne_nil_of_mem_pieces {line text : List Char} (h : text ∈ pieces line) : text ≠ [] := by
  have := (List.mem_filter.mp h).2
  simpa using this

theorem StopsOn.stopsWithin {line : List Char} {lines : List (List Char)}
    (h : StopsOn all [] (pieces line) x) : StopsWithin all (line :: lines) x :=
  ⟨[], line, lines, [], rfl, rfl, List.forall_mem_nil _, by simpa using h⟩

theorem StopsWithin.bind {lines : List (List Char)} (h : StopsWithin all lines x)
    (f : α → Except Failure β) : StopsWithin all lines (x >>= f) := by
  obtain ⟨before, line, after, segments, hlines, hbefore, hadmitted, hstop⟩ := h
  exact ⟨before, line, after, segments, hlines, hbefore, hadmitted, hstop.bind f⟩

theorem StopsWithin.cons {line : List Char} {lines : List (List Char)} {segments : List (List Int)}
    (hsegments : (pieces line).map decode? = segments.map some)
    (hadmitted : ∀ p ∈ positionsOn all [] segments, p.Admitted)
    (h : StopsWithin (all ++ segments) lines x) : StopsWithin all (line :: lines) x := by
  obtain ⟨before, last, after, others, rfl, hbefore, hrows, hstop⟩ := h
  exact ⟨line :: before, last, after, segments :: others, rfl, by simp [hsegments, hbefore],
    List.forall_mem_cons.mpr ⟨hadmitted, hrows⟩, by simpa using hstop⟩

/-- A reader goes to the end of all lines with the sums of their segments, or it stops within them. -/
theorem decodeLines_cases {lines : List (List Char)} (hfits : (Running.of all).Fits) :
    (∃ segments, lines.map (fun l => (pieces l).map decode?) = segments.map (List.map some) ∧
      (∀ row ∈ positionsFrom all segments, ∀ p ∈ row, p.Admitted) ∧
      decodeLines (.of all) lines = .ok ((positionsFrom all segments).map (List.map Position.segment))) ∨
    StopsWithin all lines (decodeLines (.of all) lines) := by
  induction lines generalizing all with
  | nil => exact .inl ⟨[], rfl, List.forall_mem_nil _, rfl⟩
  | cons line lines ih =>
    have heq : decodeLines (.of all) (line :: lines)
        = decodeLine (.of all) (total 0 []) (pieces line) >>= fun read =>
          decodeLines read.1 lines >>= fun others => pure (read.2 :: others) := rfl
    rw [heq]
    rcases decodeLine_cases [] (fun _ => ne_nil_of_mem_pieces) hfits with
      ⟨segments, hdecoded, hadmitted, hrunning, hline⟩ | hstop
    · rw [hline]
      change _ ∨ StopsWithin all (line :: lines)
        (decodeLines (.of (all ++ segments)) lines >>= fun others => pure (_ :: others))
      rcases ih hrunning with ⟨others, hothers, hrows, hlines⟩ | hstop
      · refine .inl ⟨segments :: others, by simp [hdecoded, hothers],
          List.forall_mem_cons.mpr ⟨hadmitted, hrows⟩, ?_⟩
        change (decodeLines (.of (all ++ segments)) lines >>= fun others => pure (_ :: others)) = _
        rw [hlines]
        rfl
      · exact .inr ((hstop.bind _).cons hdecoded hadmitted)
    · exact .inr (hstop.bind _).stopsWithin

/-- The lines of mappings. -/
def linesOf (mappings : String) : List (List Char) :=
  Text.splitWhere (· == ';') mappings.toList

/-- Every text is read to its end, with the sums of its segments, or the reader stops within it. -/
theorem decodeMappings_cases (mappings : String) :
    (∃ segments, (linesOf mappings).map (fun l => (pieces l).map decode?)
        = segments.map (List.map some) ∧
      (∀ row ∈ positionsFrom [] segments, ∀ p ∈ row, p.Admitted) ∧
      decodeMappings mappings = .ok ((positionsFrom [] segments).map (List.map Position.segment))) ∨
    StopsWithin [] (linesOf mappings) (decodeMappings mappings) :=
  decodeLines_cases Running.fits_nil

/-- A reader that stops says which piece it refuses, or it has met an overflow. -/
theorem decodeMappings_error {mappings : String} {e : Failure}
    (h : decodeMappings mappings = .error e) :
    e = .fault .overflow ∨ ∃ line ∈ linesOf mappings, ∃ text ∈ pieces line,
      e = .error (.mapping (String.ofList text)) := by
  rcases decodeMappings_cases mappings with ⟨_, -, -, hok⟩ | hstop
  · rw [hok] at h
    cases h
  · rw [h] at hstop
    obtain ⟨_, line, _, _, hlines, -, -, _, text, _, _, htexts, -, -, hstop⟩ := hstop
    rcases hstop with ⟨hfault, -⟩ | ⟨hrefused, -⟩
    · exact .inl (Except.error.inj hfault)
    · exact .inr ⟨line, by simp [hlines], text, by simp [htexts], Except.error.inj hrefused⟩

/-- Three columns of almost 2 ^ 62 are more than a word. -/
example : decodeMappings "+///////////H,+///////////H,+///////////H" = .error (.fault .overflow) := by
  decide

/-! ## Where a segment stands -/

theorem length_positionsOn (all line segments : List (List Int)) :
    (positionsOn all line segments).length = segments.length := by
  induction segments generalizing all line with
  | nil => rfl
  | cons values segments ih => rw [positionsOn, List.length_cons, List.length_cons, ih]

theorem getElem?_positionsOn (all line segments : List (List Int)) (j : Nat) :
    (positionsOn all line segments)[j]? = segments[j]?.map fun values =>
      ⟨all ++ segments.take (j + 1), line ++ segments.take (j + 1), values⟩ := by
  induction segments generalizing all line j with
  | nil => rfl
  | cons values segments ih =>
    cases j with
    | zero => rfl
    | succ j =>
      rw [positionsOn, List.getElem?_cons_succ, ih]
      simp

theorem getElem?_positionsFrom (all : List (List Int)) (lines : List (List (List Int))) (i : Nat) :
    (positionsFrom all lines)[i]? = lines[i]?.map (positionsOn (all ++ (lines.take i).flatten) []) := by
  induction lines generalizing all i with
  | nil => rfl
  | cons segments lines ih =>
    cases i with
    | zero => simp [positionsFrom]
    | succ i =>
      rw [positionsFrom, List.getElem?_cons_succ, ih]
      simp

/-- What is read is a row for each line with a segment for each piece, and a segment has the sums of the
numbers up to it. -/
theorem decodeMappings_sums {mappings : String} {rows : List (List Segment)}
    (h : decodeMappings mappings = .ok rows) :
    ∃ lines : List (List (List Int)),
      (linesOf mappings).map (fun l => (pieces l).map decode?) = lines.map (List.map some) ∧
      rows.map List.length = lines.map List.length ∧
      ∀ (i j : Nat) (row : List Segment) (s : Segment), rows[i]? = some row → row[j]? = some s →
        ∃ segments, lines[i]? = some segments ∧
          s.Sums ((lines.take i).flatten ++ segments.take (j + 1)) (segments.take (j + 1)) := by
  rcases decodeMappings_cases mappings with ⟨lines, hlines, hadmitted, hok⟩ | hstop
  · cases h.symm.trans hok
    refine ⟨lines, hlines, ?_, fun i j row s hrow hs => ?_⟩
    · refine List.ext_getElem? fun i => ?_
      simp only [List.getElem?_map, getElem?_positionsFrom, Option.map_map]
      refine Option.map_congr fun segments _ => ?_
      simp only [Function.comp_apply, List.length_map, length_positionsOn]
    · rw [List.getElem?_map, getElem?_positionsFrom, Option.map_map] at hrow
      obtain ⟨segments, hsegments, rfl⟩ := Option.map_eq_some_iff.mp hrow
      have hpositions : (positionsFrom [] lines)[i]? = _ :=
        (getElem?_positionsFrom [] lines i).trans (congrArg _ hsegments)
      rw [Function.comp_apply, List.getElem?_map] at hs
      obtain ⟨p, hp, rfl⟩ := Option.map_eq_some_iff.mp hs
      have hsums := (hadmitted _ (List.mem_of_getElem? hpositions) p (List.mem_of_getElem? hp)).sums
      rw [getElem?_positionsOn] at hp
      obtain ⟨values, -, rfl⟩ := Option.map_eq_some_iff.mp hp
      exact ⟨segments, hsegments, by simpa using hsums⟩
  · obtain ⟨_, _, _, _, -, -, -, _, _, _, _, -, -, -, hstop⟩ := hstop
    rcases hstop with ⟨hfault, -⟩ | ⟨hrefused, -⟩
    · cases h.symm.trans hfault
    · cases h.symm.trans hrefused

/-- The name with the number -1 is read all the same. -/
example : (decodeMappings "AAAAD").toOption.map (List.map (List.map (·.origin)))
    = some [[some ⟨0, 0, 0, some 18446744073709551615⟩]] := by decide

end SourceMap

end Bundler

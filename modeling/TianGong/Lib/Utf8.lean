/-
**UTF-8: texts as bytes and back.**

`encode` turns a text of UTF-16 units into the UTF-8 bytes of its characters; a surrogate that is
not half of a pair becomes U+FFFD. `Decoder` is the streaming
decoder: one byte at a time, with the character it is in the middle of as its state. A byte that
cannot continue that character ends it as U+FFFD and is read again as a first byte.

* `scalars_append`, `encode_append`: texts are encoded piece by piece, unless the cut between two
  pieces splits a surrogate pair (`Splits`).
* `feed_encodeChars`, `decode_encode`: what the encoder wrote, the decoder reads back.
* `length_feed_le`, `count_feed_le`: what the decoder has given out takes at least as many bytes as
  it read, the character it is in aside, and has at least as many newlines.
-/

import TianGong.Text
import Mathlib.Algebra.BigOperators.Group.List.Basic

namespace TianGong.Utf8

open List Option
open UInt8 (le_iff_toNat_le toNat_inj)

/-! ### Characters of a text -/

/-- U+FFFD. -/
def replacement : Char := Char.ofNat 0xFFFD

/-- The character of a unit that is not half of a pair. -/
def unitChar (u : UInt16) : Char :=
  if isLead u || isTrail u then replacement else Char.ofNat u.toNat

/-- The character of a surrogate pair. -/
def pairChar (lead trail : UInt16) : Char :=
  Char.ofNat (0x10000 + (lead.toNat - 0xD800) * 0x400 + (trail.toNat - 0xDC00))

/-- The characters of a text; a lone surrogate reads as U+FFFD. -/
def scalars : Text → List Char
  | [] => []
  | [u] => [unitChar u]
  | u :: v :: rest =>
    if isLead u && isTrail v then pairChar u v :: scalars rest
    else unitChar u :: scalars (v :: rest)

/-- The text of characters. -/
def units (cs : List Char) : Text := cs.flatMap utf16

/-- `toWellFormed`: every lone surrogate becomes U+FFFD. -/
def wellFormed (t : Text) : Text := units (scalars t)

/-- The text ends inside a pair, if a second half follows. -/
def EndsLead (t : Text) : Prop := ∃ u ∈ t.getLast?, isLead u = true

/-- The text starts inside a pair, if a first half precedes. -/
def StartsTrail (t : Text) : Prop := ∃ v ∈ t.head?, isTrail v = true

/-- The cut between the two texts falls inside a surrogate pair. -/
def Splits (a b : Text) : Prop := EndsLead a ∧ StartsTrail b

variable {a b : Text} {u v : UInt16} (cs : List Char) (c : Char) (t : Text)

theorem lead_bounds (lead : isLead u = true) : 0xD800 ≤ u.toNat ∧ u.toNat ≤ 0xDBFF := by
  simpa [isLead, UInt16.le_iff_toNat_le] using lead

theorem trail_bounds (trail : isTrail u = true) : 0xDC00 ≤ u.toNat ∧ u.toNat ≤ 0xDFFF := by
  simpa [isTrail, UInt16.le_iff_toNat_le] using trail

theorem not_lead (outside : u.toNat < 0xD800 ∨ 0xDBFF < u.toNat) : isLead u = false := by
  rw [Bool.eq_false_iff]
  intro lead
  have := lead_bounds lead
  omega

theorem not_trail (outside : u.toNat < 0xDC00 ∨ 0xDFFF < u.toNat) : isTrail u = false := by
  rw [Bool.eq_false_iff]
  intro trail
  have := trail_bounds trail
  omega

theorem lead_not_trail (lead : isLead u = true) : isTrail u = false :=
  not_trail (.inl (by have := lead_bounds lead; omega))

theorem toNat_bounds : c.toNat < 0xD800 ∨ 0xDFFF < c.toNat ∧ c.toNat < 0x110000 :=
  c.valid

theorem utf16_small {c : Char} (small : c.toNat < 0x10000) :
    ∃ u, utf16 c = [u] ∧ u.toNat = c.toNat ∧ isLead u = false ∧ isTrail u = false := by
  have bounds := toNat_bounds c
  have value : c.toNat.toUInt16.toNat = c.toNat := by
    rw [Nat.toUInt16_eq, UInt16.toNat_ofNat']
    omega
  exact ⟨c.toNat.toUInt16, if_pos small, value, not_lead (by omega), not_trail (by omega)⟩

theorem utf16_large {c : Char} (large : ¬c.toNat < 0x10000) :
    ∃ u v, utf16 c = [u, v] ∧ isLead u = true ∧ isTrail v = true ∧ pairChar u v = c := by
  have bounds := toNat_bounds c
  have lead : (0xD800 + (c.toNat - 0x10000) / 0x400).toUInt16.toNat =
      0xD800 + (c.toNat - 0x10000) / 0x400 := by
    rw [Nat.toUInt16_eq, UInt16.toNat_ofNat']
    omega
  have trail : (0xDC00 + c.toNat % 0x400).toUInt16.toNat = 0xDC00 + c.toNat % 0x400 := by
    rw [Nat.toUInt16_eq, UInt16.toNat_ofNat']
    omega
  refine ⟨_, _, if_neg large, ?_, ?_, ?_⟩
  · simp only [isLead, Bool.and_eq_true, decide_eq_true_eq, UInt16.le_iff_toNat_le, lead,
      UInt16.reduceToNat]
    omega
  · simp only [isTrail, Bool.and_eq_true, decide_eq_true_eq, UInt16.le_iff_toNat_le, trail,
      UInt16.reduceToNat]
    omega
  · rw [pairChar, lead, trail]
    have whole : 0x10000 + (0xD800 + (c.toNat - 0x10000) / 0x400 - 0xD800) * 0x400 +
        (0xDC00 + c.toNat % 0x400 - 0xDC00) = c.toNat := by omega
    rw [whole, Char.ofNat_toNat]

theorem unitChar_of_toNat {c : Char} (same : u.toNat = c.toNat) (lead : isLead u = false)
    (trail : isTrail u = false) : unitChar u = c := by
  simp [unitChar, lead, trail, same, Char.ofNat_toNat]

theorem scalars_plain (lead : isLead u = false) (rest : Text) :
    scalars (u :: rest) = unitChar u :: scalars rest := by
  cases rest with
  | nil => rfl
  | cons v rest => simp [scalars, lead]

theorem scalars_utf16 (rest : Text) : scalars (utf16 c ++ rest) = c :: scalars rest := by
  by_cases small : c.toNat < 0x10000
  · obtain ⟨u, unit, value, lead, trail⟩ := utf16_small small
    rw [unit, singleton_append, scalars_plain lead, unitChar_of_toNat value lead trail]
  · obtain ⟨u, v, pair, lead, trail, back⟩ := utf16_large small
    simp [pair, scalars, lead, trail, back]

theorem scalars_units_append (rest : Text) : scalars (units cs ++ rest) = cs ++ scalars rest := by
  induction cs with
  | nil => rfl
  | cons c cs ih =>
    rw [units, flatMap_cons, append_assoc, scalars_utf16, ← units, ih, cons_append]

/-- **Characters survive being spelled.** -/
@[simp]
theorem scalars_units : scalars (units cs) = cs := by
  have whole := scalars_units_append cs []
  rwa [append_nil, scalars, append_nil] at whole

theorem units_append (ds : List Char) : units (cs ++ ds) = units cs ++ units ds :=
  flatMap_append

/-- **A text is read piece by piece, unless the cut splits a pair.** -/
theorem scalars_append (whole : ¬Splits a b) : scalars (a ++ b) = scalars a ++ scalars b := by
  fun_induction scalars a with
  | case1 => rfl
  | case2 u =>
    cases b with
    | nil => rfl
    | cons v rest =>
      have apart : ¬(isLead u && isTrail v) = true := by
        rw [Bool.and_eq_true]
        exact fun ⟨lead, trail⟩ => whole ⟨⟨u, rfl, lead⟩, v, rfl, trail⟩
      simp [scalars, apart]
  | case3 u v rest pair ih =>
    cases rest with
    | nil => simp [scalars, pair]
    | cons w rest =>
      have later : ¬Splits (w :: rest) b := by
        simpa [Splits, EndsLead, List.getLast?_cons_cons] using whole
      simp [scalars, pair, ← ih later]
  | case4 u v rest apart ih =>
    have later : ¬Splits (v :: rest) b := by
      simpa [Splits, EndsLead, List.getLast?_cons_cons] using whole
    rw [cons_append, cons_append, cons_append, ← ih later]
    simp [scalars, apart]

theorem wellFormed_append (whole : ¬Splits a b) :
    wellFormed (a ++ b) = wellFormed a ++ wellFormed b := by
  rw [wellFormed, scalars_append whole, units_append, wellFormed, wellFormed]

@[simp]
theorem wellFormed_units : wellFormed (units cs) = units cs := by
  rw [wellFormed, scalars_units]

theorem not_endsLead_nil : ¬EndsLead [] := by
  rintro ⟨u, member, _⟩
  cases member

theorem not_startsTrail_nil : ¬StartsTrail [] := by
  rintro ⟨u, member, _⟩
  cases member

/-- **A text can be cut where its characters are.** -/
theorem cut_scalars {t : Text} {es ds : List Char} (parts : scalars t = es ++ ds) :
    ∃ head tail, t = head ++ tail ∧ ¬Splits head tail ∧ scalars head = es ∧ scalars tail = ds := by
  have start (rest : Text) : ¬Splits [] rest := fun splits => not_endsLead_nil splits.1
  fun_induction scalars t generalizing es with
  | case1 =>
    obtain ⟨rfl, rfl⟩ := List.append_eq_nil_iff.mp parts.symm
    exact ⟨[], [], rfl, start _, rfl, rfl⟩
  | case2 u =>
    cases es with
    | nil => exact ⟨[], [u], rfl, start _, rfl, parts⟩
    | cons e es =>
      obtain ⟨rfl, rest⟩ := List.cons.inj parts
      obtain ⟨rfl, rfl⟩ := List.append_eq_nil_iff.mp rest.symm
      exact ⟨[u], [], rfl, fun splits => not_startsTrail_nil splits.2, rfl, rfl⟩
  | case3 u v rest pair ih =>
    cases es with
    | nil => exact ⟨[], u :: v :: rest, rfl, start _, rfl, by rw [scalars, if_pos pair]; exact parts⟩
    | cons e es =>
      obtain ⟨rfl, later⟩ := List.cons.inj parts
      obtain ⟨head, tail, rfl, whole, first, second⟩ := ih later
      refine ⟨u :: v :: head, tail, rfl, ?_, by rw [scalars, if_pos pair, first], second⟩
      rintro ⟨⟨w, isLast, lead⟩, starts⟩
      cases head with
      | nil =>
        obtain rfl : v = w := Option.some.inj isLast
        rw [lead_not_trail lead, Bool.and_false] at pair
        cases pair
      | cons w' head => exact whole ⟨⟨w, by simpa [List.getLast?_cons_cons] using isLast, lead⟩, starts⟩
  | case4 u v rest apart ih =>
    cases es with
    | nil => exact ⟨[], u :: v :: rest, rfl, start _, rfl, by rw [scalars, if_neg apart]; exact parts⟩
    | cons e es =>
      obtain ⟨rfl, later⟩ := List.cons.inj parts
      obtain ⟨head, tail, cut, whole, first, second⟩ := ih later
      cases head with
      | nil =>
        obtain rfl : v :: rest = tail := cut
        refine ⟨[u], v :: rest, rfl, ?_, by rw [← first]; rfl, second⟩
        rintro ⟨⟨w, isLast, lead⟩, x, isFirst, trail⟩
        obtain rfl : u = w := Option.some.inj isLast
        obtain rfl : v = x := Option.some.inj isFirst
        rw [lead, trail] at apart
        exact apart rfl
      | cons w head =>
        obtain ⟨rfl, rfl⟩ := List.cons.inj cut
        refine ⟨u :: v :: head, tail, rfl, ?_, by rw [scalars, if_neg apart, first], second⟩
        rintro ⟨⟨x, isLast, lead⟩, starts⟩
        exact whole ⟨⟨x, by simpa [List.getLast?_cons_cons] using isLast, lead⟩, starts⟩

theorem endsLead_append {a b : Text} (nonempty : b ≠ []) : EndsLead (a ++ b) ↔ EndsLead b := by
  rw [EndsLead, List.getLast?_append_of_ne_nil _ nonempty, EndsLead]

theorem startsTrail_append (nonempty : a ≠ []) : StartsTrail (a ++ b) ↔ StartsTrail a := by
  rw [StartsTrail, List.head?_append_of_ne_nil _ nonempty, StartsTrail]

theorem EndsLead.append (ends : EndsLead (a ++ b)) : EndsLead b ∨ b = [] ∧ EndsLead a := by
  by_cases empty : b = []
  · rw [empty, append_nil] at ends
    exact .inr ⟨empty, ends⟩
  · exact .inl ((endsLead_append empty).mp ends)

theorem StartsTrail.append (starts : StartsTrail (a ++ b)) :
    StartsTrail a ∨ a = [] ∧ StartsTrail b := by
  by_cases empty : a = []
  · rw [empty, nil_append] at starts
    exact .inr ⟨empty, starts⟩
  · exact .inl ((startsTrail_append empty).mp starts)

/-- Spelled characters do not end inside a pair. -/
theorem not_endsLead_units : ¬EndsLead (units cs) := by
  rcases eq_nil_or_concat cs with rfl | ⟨front, c, rfl⟩
  · exact not_endsLead_nil
  rw [concat_eq_append, units_append, units, units, flatMap_singleton]
  by_cases small : c.toNat < 0x10000
  · obtain ⟨u, unit, _, lead, _⟩ := utf16_small small
    rw [unit, endsLead_append (cons_ne_nil u [])]
    rintro ⟨v, same, holds⟩
    rw [List.getLast?_singleton, mem_some_iff] at same
    rw [← same, lead] at holds
    cases holds
  · obtain ⟨u, v, pair, _, trail, _⟩ := utf16_large small
    rw [pair, endsLead_append (cons_ne_nil u [v])]
    rintro ⟨w, same, holds⟩
    rw [List.getLast?_cons_cons, List.getLast?_singleton, mem_some_iff] at same
    rw [← same] at holds
    rw [lead_not_trail holds] at trail
    cases trail

/-- Spelled characters do not start inside a pair. -/
theorem not_startsTrail_units : ¬StartsTrail (units cs) := by
  cases cs with
  | nil => exact not_startsTrail_nil
  | cons c cs =>
    rw [units, flatMap_cons]
    by_cases small : c.toNat < 0x10000
    · obtain ⟨u, unit, _, _, trail⟩ := utf16_small small
      rw [unit]
      rintro ⟨v, same, holds⟩
      cases same
      rw [trail] at holds
      cases holds
    · obtain ⟨u, v, pair, lead, _, _⟩ := utf16_large small
      rw [pair]
      rintro ⟨w, same, holds⟩
      cases same
      rw [lead_not_trail lead] at holds
      cases holds

/-- The unit that stands for `u` where it is not half of a pair. -/
def markUnit (u : UInt16) : UInt16 := if isLead u || isTrail u then 0xFFFD else u

theorem utf16_unitChar (u : UInt16) : utf16 (unitChar u) = [markUnit u] := by
  unfold unitChar markUnit
  split_ifs with lone
  · rfl
  · have bound := u.toNat_lt
    have valid : u.toNat < 0xD800 ∨ 0xDFFF < u.toNat ∧ u.toNat < 0x110000 := by
      simp only [isLead, isTrail, Bool.or_eq_true, Bool.and_eq_true, decide_eq_true_eq,
        UInt16.le_iff_toNat_le, UInt16.reduceToNat] at lone
      omega
    have value : (Char.ofNat u.toNat).toNat = u.toNat := by
      rw [Char.ofNat, dif_pos valid]
      rfl
    rw [utf16, value, if_pos (by omega), Nat.toUInt16_eq, UInt16.ofNat_toNat]

theorem utf16_pairChar (lead : isLead u = true) (trail : isTrail v = true) :
    utf16 (pairChar u v) = [u, v] := by
  have first := lead_bounds lead
  have second := trail_bounds trail
  have value : (pairChar u v).toNat =
      0x10000 + (u.toNat - 0xD800) * 0x400 + (v.toNat - 0xDC00) := by
    rw [pairChar, Char.ofNat, dif_pos (.inr (by omega))]
    rfl
  have high : 0xD800 + (0x10000 + (u.toNat - 0xD800) * 0x400 + (v.toNat - 0xDC00) - 0x10000) / 0x400
      = u.toNat := by omega
  have low : 0xDC00 + (0x10000 + (u.toNat - 0xD800) * 0x400 + (v.toNat - 0xDC00)) % 0x400 =
      v.toNat := by omega
  rw [utf16, value, if_neg (by omega), high, low]
  simp only [Nat.toUInt16_eq, UInt16.ofNat_toNat]

theorem wellFormed_pair (pair : (isLead u && isTrail v) = true) (rest : Text) :
    wellFormed (u :: v :: rest) = u :: v :: wellFormed rest := by
  have halves := Bool.and_eq_true_iff.mp pair
  rw [wellFormed, scalars, if_pos pair, units, flatMap_cons, utf16_pairChar halves.1 halves.2]
  rfl

theorem wellFormed_single (u : UInt16) : wellFormed [u] = [markUnit u] := by
  rw [wellFormed, scalars, units, flatMap_singleton, utf16_unitChar]

theorem wellFormed_lone (apart : ¬(isLead u && isTrail v) = true) (rest : Text) :
    wellFormed (u :: v :: rest) = markUnit u :: wellFormed (v :: rest) := by
  rw [wellFormed, scalars, if_neg apart, units, flatMap_cons, utf16_unitChar]
  rfl

/-- A property of texts by the characters they are read as. -/
theorem textInduction {P : Text → Prop} (nil : P []) (single : ∀ u, P [u])
    (pair : ∀ u v rest, (isLead u && isTrail v) = true → P rest → P (u :: v :: rest))
    (lone : ∀ u v rest, ¬(isLead u && isTrail v) = true → P (v :: rest) → P (u :: v :: rest))
    (t : Text) : P t := by
  fun_induction scalars t with
  | case1 => exact nil
  | case2 u => exact single u
  | case3 u v rest halves ih => exact pair u v rest halves ih
  | case4 u v rest apart ih => exact lone u v rest apart ih

theorem markUnit_newline : markUnit u = 0x0A ↔ u = 0x0A := by
  unfold markUnit
  split_ifs with lone
  · constructor
    · intro same
      cases same
    · rintro rfl
      exact absurd lone (by decide)
  · exact Iff.rfl

/-- Reading a text as characters keeps its newlines. -/
@[simp]
theorem count_wellFormed : (wellFormed t).count 0x0A = t.count 0x0A := by
  induction t using textInduction with
  | nil => rfl
  | single u =>
    rw [wellFormed_single, count_singleton, count_singleton]
    simp only [beq_iff_eq, markUnit_newline]
  | pair u v rest pair ih => rw [wellFormed_pair pair, count_cons, count_cons, ih,
      count_cons, count_cons]
  | lone u v rest apart ih =>
    rw [wellFormed_lone apart, count_cons, ih, @count_cons _ _ _ u]
    simp only [beq_iff_eq, markUnit_newline]

@[simp]
theorem length_wellFormed : (wellFormed t).length = t.length := by
  induction t using textInduction with
  | nil => rfl
  | single u => rw [wellFormed_single, length_singleton, length_singleton]
  | pair u v rest pair ih => rw [wellFormed_pair pair, length_cons, length_cons, ih,
      length_cons, length_cons]
  | lone u v rest apart ih => rw [wellFormed_lone apart, length_cons, ih, ← length_cons]

/-! ### Encoding -/

/-- The bytes of characters. -/
def encodeChars (cs : List Char) : List UInt8 := cs.flatMap String.utf8EncodeChar

/-- `TextEncoder.encode`. -/
def encode (t : Text) : List UInt8 := encodeChars (scalars t)

theorem encodeChars_append (ds : List Char) :
    encodeChars (cs ++ ds) = encodeChars cs ++ encodeChars ds :=
  flatMap_append

theorem encodeChars_cons (cs : List Char) :
    encodeChars (c :: cs) = String.utf8EncodeChar c ++ encodeChars cs :=
  flatMap_cons

@[simp]
theorem encode_nil : encode [] = [] := rfl

theorem encode_append (whole : ¬Splits a b) : encode (a ++ b) = encode a ++ encode b := by
  rw [encode, scalars_append whole, encodeChars_append, encode, encode]

@[simp]
theorem encode_units : encode (units cs) = encodeChars cs := by
  rw [encode, scalars_units]

@[simp]
theorem encode_wellFormed : encode (wellFormed t) = encode t :=
  encode_units _

/-- A byte inside a character, not at its start. -/
def isContinuation (b : UInt8) : Bool := b &&& 0xC0 == 0x80

theorem isContinuation_iff (b : UInt8) :
    isContinuation b = true ↔ 0x80 ≤ b.toNat ∧ b.toNat ≤ 0xBF := by
  have top : b &&& 0xC0 = 0x80 ↔ b.toNat / 64 = 2 := by
    have high : (b.toNat &&& 0xC0) / 2 ^ 6 = b.toNat / 2 ^ 6 % 4 := by
      rw [Nat.and_div_two_pow]
      exact Nat.and_two_pow_sub_one_eq_mod _ 2
    have low : (b.toNat &&& 0xC0) % 2 ^ 6 = 0 := by
      rw [Nat.and_mod_two_pow]
      exact Nat.and_zero _
    rw [← toNat_inj, UInt8.toNat_and]
    have bound := b.toNat_lt
    simp only [UInt8.reduceToNat]
    omega
  rw [isContinuation, beq_iff_eq, top]
  omega

/-- **One character's bytes**: a first byte, then continuations; the byte of a newline stands for
nothing else. -/
theorem utf8EncodeChar_shape : ∃ first rest, String.utf8EncodeChar c = first :: rest ∧
    isContinuation first = false ∧ (∀ b ∈ rest, isContinuation b = true) ∧
    (first = 0x0A ↔ c = '\n') := by
  have bounds := toNat_bounds c
  have small : ∀ n, n < 256 → (UInt8.ofNat n).toNat = n := fun n inside => by
    rw [UInt8.toNat_ofNat']
    omega
  have notCont : ∀ n, n < 256 → (n < 0x80 ∨ 0xBF < n) → isContinuation (UInt8.ofNat n) = false := by
    intro n inside outside
    rw [Bool.eq_false_iff, Ne, isContinuation_iff, small n inside]
    omega
  have cont : ∀ n, isContinuation (UInt8.ofNat (n % 64 + 0x80)) = true := fun n => by
    rw [isContinuation_iff, small _ (by omega)]
    omega
  have newline : ∀ n, n < 256 → (n = 10 ↔ c = '\n') → (UInt8.ofNat n = 0x0A ↔ c = '\n') := by
    intro n inside same
    rw [← same, ← toNat_inj, small n inside]
    rfl
  have ten : c = '\n' ↔ c.toNat = 10 := Char.toNat_inj.symm
  unfold String.utf8EncodeChar
  dsimp only
  rw [show c.val.toNat = c.toNat from rfl]
  split_ifs with one two three
  · exact ⟨_, _, rfl, notCont _ (by omega) (by omega), by simp, newline _ (by omega) ten.symm⟩
  all_goals
    refine ⟨_, _, rfl, notCont _ (by omega) (by omega), fun b member => ?_,
      newline _ (by omega) (by rw [ten]; omega)⟩
    simp only [mem_cons, not_mem_nil, or_false] at member
    rcases member with rfl | rfl | rfl <;> exact cont _

/-- A character may start at `i`: no byte inside a character stands there. -/
def IsStart (bytes : List UInt8) (i : Nat) : Prop := ∀ b ∈ bytes[i]?, isContinuation b = false

variable {i : Nat}

/-- **A suffix that starts with a first byte is encoded characters again.** -/
theorem drop_encodeChars {cs : List Char} (start : IsStart (encodeChars cs) i) :
    ∃ es ds, cs = es ++ ds ∧ (encodeChars cs).drop i = encodeChars ds := by
  induction cs generalizing i with
  | nil => exact ⟨[], [], rfl, drop_nil⟩
  | cons c cs ih =>
    obtain ⟨b, rest, shape, _, conts, _⟩ := utf8EncodeChar_shape c
    rw [encodeChars_cons] at start ⊢
    rcases Nat.lt_or_ge i (String.utf8EncodeChar c).length with inside | outside
    · cases i with
      | zero => exact ⟨[], c :: cs, rfl, by rw [drop_zero, encodeChars_cons]⟩
      | succ i =>
        rw [shape, length_cons] at inside
        have within : i < rest.length := Nat.lt_of_succ_lt_succ inside
        have found : (String.utf8EncodeChar c ++ encodeChars cs)[i + 1]? = some rest[i] := by
          rw [shape, cons_append, List.getElem?_cons_succ, List.getElem?_append_left within,
            List.getElem?_eq_getElem within]
        have plain := start _ found
        rw [conts _ (getElem_mem within)] at plain
        cases plain
    · rw [IsStart, List.getElem?_append_right outside] at start
      obtain ⟨es, ds, rfl, rest⟩ := ih start
      exact ⟨c :: es, ds, rfl,
        by rw [List.drop_append, drop_of_length_le outside, nil_append, rest]⟩

/-- A prefix that ends where a character starts is encoded characters. -/
theorem take_encodeChars {cs : List Char} (start : IsStart (encodeChars cs) i) :
    ∃ es ds, cs = es ++ ds ∧ (encodeChars cs).take i = encodeChars es := by
  obtain ⟨es, ds, rfl, rest⟩ := drop_encodeChars start
  refine ⟨es, ds, rfl, ?_⟩
  have whole := take_append_drop i (encodeChars (es ++ ds))
  rw [rest, encodeChars_append] at whole
  rw [encodeChars_append]
  exact append_cancel_right whole

theorem isStart_zero : IsStart (encodeChars cs) 0 := by
  cases cs with
  | nil => exact fun b found => by cases found
  | cons c cs =>
    obtain ⟨b, rest, shape, plain, _, _⟩ := utf8EncodeChar_shape c
    intro d found
    rw [encodeChars_cons, shape, cons_append, List.getElem?_cons_zero] at found
    cases found
    exact plain

/-- After a newline a character starts. -/
theorem isStart_after_newline {cs : List Char} (newline : (encodeChars cs)[i]? = some 0x0A) :
    IsStart (encodeChars cs) (i + 1) := by
  induction cs generalizing i with
  | nil => cases newline
  | cons c cs ih =>
    obtain ⟨b, rest, shape, _, conts, ten⟩ := utf8EncodeChar_shape c
    rw [encodeChars_cons] at newline ⊢
    rcases Nat.lt_or_ge i (String.utf8EncodeChar c).length with inside | outside
    · rw [List.getElem?_append_left inside, shape] at newline
      cases i with
      | zero =>
        rw [List.getElem?_cons_zero, some_inj] at newline
        rw [ten.mp newline]
        exact isStart_zero cs
      | succ i =>
        rw [List.getElem?_cons_succ] at newline
        have cont := conts _ (mem_of_getElem? newline)
        exact absurd cont (by decide)
    · rw [List.getElem?_append_right outside] at newline
      have next := ih newline
      rw [IsStart, List.getElem?_append_right (Nat.le_succ_of_le outside), Nat.succ_sub outside]
      exact next

/-- The number of newlines in a text is the number of newline bytes. -/
theorem count_utf8EncodeChar : (String.utf8EncodeChar c).count 0x0A = (utf16 c).count 0x0A := by
  obtain ⟨b, rest, shape, _, conts, newline⟩ := utf8EncodeChar_shape c
  have none : rest.count 0x0A = 0 := List.count_eq_zero.mpr fun member => by
    have := conts _ member
    revert this
    decide
  rw [shape, count_cons, none]
  by_cases same : c = '\n'
  · subst same
    rw [newline.mpr rfl]
    decide
  · rw [if_neg (by rw [beq_iff_eq]; exact fun is => same (newline.mp is))]
    refine (List.count_eq_zero.mpr fun member => ?_).symm
    by_cases small : c.toNat < 0x10000
    · obtain ⟨u, unit, value, _, _⟩ := utf16_small small
      rw [unit, mem_singleton] at member
      refine same (Char.toNat_inj.mp ?_)
      rw [← value, ← member]
      rfl
    · obtain ⟨u, v, pair, lead, trail, _⟩ := utf16_large small
      rw [pair] at member
      simp only [mem_cons, not_mem_nil, or_false] at member
      rcases member with rfl | rfl
      · exact absurd lead (by decide)
      · exact absurd trail (by decide)

theorem count_encodeChars : (encodeChars cs).count 0x0A = (units cs).count 0x0A := by
  induction cs with
  | nil => rfl
  | cons c cs ih =>
    rw [encodeChars_cons, units, flatMap_cons, count_append, count_append,
      count_utf8EncodeChar, ih, units]

@[simp]
theorem count_encode : (encode t).count 0x0A = t.count 0x0A := by
  rw [encode, count_encodeChars, ← wellFormed, count_wellFormed]

theorem encode_eq_nil {t : Text} : encode t = [] ↔ t = [] := by
  constructor
  · intro empty
    by_contra some
    obtain ⟨c, cs, chars⟩ : ∃ c cs, scalars t = c :: cs := by
      induction t using textInduction with
      | nil => exact absurd rfl some
      | single u => exact ⟨_, _, rfl⟩
      | pair u v rest pair _ => exact ⟨_, _, by rw [scalars, if_pos pair]⟩
      | lone u v rest apart _ => exact ⟨_, _, by rw [scalars, if_neg apart]⟩
    obtain ⟨b, rest, shape, _⟩ := utf8EncodeChar_shape c
    rw [encode, chars, encodeChars_cons, shape] at empty
    cases empty
  · rintro rfl
    rfl

theorem getLast_utf8EncodeChar : (String.utf8EncodeChar c).getLast? = some 0x0A ↔ c = '\n' := by
  obtain ⟨b, rest, shape, _, conts, newline⟩ := utf8EncodeChar_shape c
  rw [shape, ← newline]
  rcases eq_nil_or_concat rest with rfl | ⟨front, last, rfl⟩
  · rw [List.getLast?_singleton, some_inj]
  · have cont := conts last (by simp)
    constructor
    · intro same
      rw [concat_eq_append, ← cons_append, List.getLast?_concat, some_inj] at same
      subst same
      exact absurd cont (by decide)
    · intro same
      -- A newline is one byte long.
      rw [newline.mp same] at shape
      have alone := congrArg List.length shape
      rw [show (String.utf8EncodeChar '\n').length = 1 from rfl] at alone
      simp at alone

theorem unitChar_newline : unitChar u = '\n' ↔ u = 0x0A := by
  constructor
  · intro same
    have spelled := utf16_unitChar u
    rw [same] at spelled
    exact markUnit_newline.mp (List.singleton_inj.mp spelled).symm
  · rintro rfl
    rfl

theorem pairChar_newline (pair : (isLead u && isTrail v) = true) : pairChar u v ≠ '\n' := by
  intro same
  have halves := Bool.and_eq_true_iff.mp pair
  have spelled := utf16_pairChar halves.1 halves.2
  rw [same] at spelled
  have alone := congrArg List.length spelled
  rw [show (utf16 '\n').length = 1 from rfl] at alone
  simp at alone

/-- The last byte is a newline exactly when the last unit is. -/
theorem getLast_encode : (encode t).getLast? = some 0x0A ↔ t.getLast? = some 0x0A := by
  have later : ∀ (bytes : List UInt8) (u : UInt16) {rest : Text}, rest ≠ [] →
      ((encode rest).getLast? = some 0x0A ↔ rest.getLast? = some 0x0A) →
      ((bytes ++ encode rest).getLast? = some 0x0A ↔ (u :: rest).getLast? = some 0x0A) := by
    intro bytes u rest some ih
    rw [List.getLast?_append_of_ne_nil _ (mt encode_eq_nil.mp some), ih]
    cases rest with
    | nil => exact absurd rfl some
    | cons v rest => rw [List.getLast?_cons_cons]
  induction t using textInduction with
  | nil => simp
  | single u =>
    rw [encode, scalars, encodeChars, flatMap_singleton, getLast_utf8EncodeChar,
      List.getLast?_singleton, some_inj, unitChar_newline]
  | pair u v rest pair ih =>
    rw [encode, scalars, if_pos pair, encodeChars_cons, ← encode]
    by_cases none : rest = []
    · subst none
      have trail := (Bool.and_eq_true_iff.mp pair).2
      rw [encode_nil, append_nil, getLast_utf8EncodeChar, List.getLast?_cons_cons,
        List.getLast?_singleton, some_inj]
      exact iff_of_false (pairChar_newline pair) (by rintro rfl; exact absurd trail (by decide))
    · rw [List.getLast?_cons_cons]
      exact later _ v none ih
  | lone u v rest apart ih =>
    rw [encode, scalars, if_neg apart, encodeChars_cons, ← encode]
    exact later _ u (cons_ne_nil v rest) ih

/-! ### The decoder -/

/-- The character a decoder is in the middle of. -/
structure Decoder where
  codePoint : Nat := 0
  seen : Nat := 0
  needed : Nat := 0
  lower : UInt8 := 0x80
  upper : UInt8 := 0xBF
deriving DecidableEq

namespace Decoder

/-- A byte between characters. -/
def first (b : UInt8) : Decoder × List Char :=
  if b ≤ 0x7F then ({}, [Char.ofNat b.toNat])
  else if 0xC2 ≤ b ∧ b ≤ 0xDF then ({ codePoint := b.toNat % 32, needed := 1 }, [])
  else if 0xE0 ≤ b ∧ b ≤ 0xEF then
    ({ codePoint := b.toNat % 16, needed := 2
       lower := if b = 0xE0 then 0xA0 else 0x80
       upper := if b = 0xED then 0x9F else 0xBF }, [])
  else if 0xF0 ≤ b ∧ b ≤ 0xF4 then
    ({ codePoint := b.toNat % 8, needed := 3
       lower := if b = 0xF0 then 0x90 else 0x80
       upper := if b = 0xF4 then 0x8F else 0xBF }, [])
  else ({}, [replacement])

/-- One byte. -/
def step (d : Decoder) (b : UInt8) : Decoder × List Char :=
  if d.needed = 0 then first b
  else if b < d.lower ∨ d.upper < b then ((first b).1, replacement :: (first b).2)
  else if d.seen + 1 = d.needed then ({}, [Char.ofNat (d.codePoint * 64 + b.toNat % 64)])
  else
    ({ codePoint := d.codePoint * 64 + b.toNat % 64, seen := d.seen + 1, needed := d.needed }, [])

/-- `decode(bytes, { stream: true })`: the characters that are complete. -/
def feed (d : Decoder) : List UInt8 → Decoder × List Char
  | [] => (d, [])
  | b :: rest => ((feed (step d b).1 rest).1, (step d b).2 ++ (feed (step d b).1 rest).2)

/-- `decode()`: an incomplete character ends as U+FFFD. -/
def flush (d : Decoder) : List Char := if d.needed = 0 then [] else [replacement]

theorem feed_append (d : Decoder) (bytes more : List UInt8) :
    feed d (bytes ++ more) =
      ((feed (feed d bytes).1 more).1, (feed d bytes).2 ++ (feed (feed d bytes).1 more).2) := by
  induction bytes generalizing d with
  | nil => rfl
  | cons b bytes ih => simp only [cons_append, feed, ih, append_assoc]

end Decoder

/-- The characters of bytes, decoded at once. -/
def decodeChars (bytes : List UInt8) : List Char :=
  (Decoder.feed {} bytes).2 ++ (Decoder.feed {} bytes).1.flush

/-- `TextDecoder.decode` of a whole buffer. -/
def decode (bytes : List UInt8) : Text := units (decodeChars bytes)

/-! ### Reading back what was encoded -/

variable {n : Nat}

namespace Decoder

theorem toNat_byte (byte : n < 256) : (UInt8.ofNat n).toNat = n := by
  rw [UInt8.toNat_ofNat']
  omega

theorem byte_eq_iff (byte : n < 256) (b : UInt8) : UInt8.ofNat n = b ↔ n = b.toNat := by
  rw [← toNat_inj, toNat_byte byte]

theorem first_one (high : n ≤ 0x7F) : first (UInt8.ofNat n) = ({}, [Char.ofNat n]) := by
  have value := toNat_byte (show n < 256 by omega)
  rw [first, if_pos (by rw [le_iff_toNat_le, value]; exact high), value]

theorem first_two (low : 0xC2 ≤ n) (high : n ≤ 0xDF) :
    first (UInt8.ofNat n) = ({ codePoint := n % 32, needed := 1 }, []) := by
  have value := toNat_byte (show n < 256 by omega)
  simp only [first, le_iff_toNat_le, value, UInt8.reduceToNat]
  rw [if_neg (by omega), if_pos ⟨low, high⟩]

theorem first_three (low : 0xE0 ≤ n) (high : n ≤ 0xEF) :
    first (UInt8.ofNat n) =
      ({ codePoint := n % 16, needed := 2
         lower := if n = 0xE0 then 0xA0 else 0x80
         upper := if n = 0xED then 0x9F else 0xBF }, []) := by
  have value := toNat_byte (show n < 256 by omega)
  simp only [first, le_iff_toNat_le, value, UInt8.reduceToNat, byte_eq_iff (show n < 256 by omega)]
  rw [if_neg (by omega), if_neg (by omega), if_pos ⟨low, high⟩]

theorem first_four (low : 0xF0 ≤ n) (high : n ≤ 0xF4) :
    first (UInt8.ofNat n) =
      ({ codePoint := n % 8, needed := 3
         lower := if n = 0xF0 then 0x90 else 0x80
         upper := if n = 0xF4 then 0x8F else 0xBF }, []) := by
  have value := toNat_byte (show n < 256 by omega)
  simp only [first, le_iff_toNat_le, value, UInt8.reduceToNat, byte_eq_iff (show n < 256 by omega)]
  rw [if_neg (by omega), if_neg (by omega), if_neg (by omega), if_pos ⟨low, high⟩]

theorem step_continue {p seen needed k : Nat} {lower upper : UInt8} (inside : needed ≠ 0)
    (low : lower.toNat ≤ k % 64 + 0x80) (high : k % 64 + 0x80 ≤ upper.toNat) :
    step ⟨p, seen, needed, lower, upper⟩ (UInt8.ofNat (k % 64 + 0x80)) =
      if seen + 1 = needed then ({}, [Char.ofNat (p * 64 + k % 64)])
      else ({ codePoint := p * 64 + k % 64, seen := seen + 1, needed := needed }, []) := by
  have value := toNat_byte (show k % 64 + 0x80 < 256 by omega)
  have within : ¬(UInt8.ofNat (k % 64 + 0x80) < lower ∨ upper < UInt8.ofNat (k % 64 + 0x80)) := by
    simp only [UInt8.lt_iff_toNat_lt, value]
    omega
  have digits : (k % 64 + 0x80) % 64 = k % 64 := by omega
  rw [step, if_neg inside, if_neg within, value, digits]

/-- A continuation byte after the second: the decoder no longer restricts it. -/
theorem step_tail {p seen needed k : Nat} (inside : needed ≠ 0) :
    step { codePoint := p, seen := seen, needed := needed } (UInt8.ofNat (k % 64 + 0x80)) =
      if seen + 1 = needed then ({}, [Char.ofNat (p * 64 + k % 64)])
      else ({ codePoint := p * 64 + k % 64, seen := seen + 1, needed := needed }, []) :=
  step_continue inside (by simp) (by simp only [UInt8.reduceToNat]; omega)

/-- The bounds `first` sets keep every character's second byte. -/
theorem bounds_three {n k : Nat} (low : n = 0 → 32 ≤ k) (high : n = 13 → k < 32) (small : k < 64) :
    (if n = 0 then (0xA0 : UInt8) else 0x80).toNat ≤ k + 0x80 ∧
      k + 0x80 ≤ (if n = 13 then (0x9F : UInt8) else 0xBF).toNat := by
  split_ifs <;> simp only [UInt8.reduceToNat] <;> omega

theorem bounds_four {n k : Nat} (low : n = 0 → 16 ≤ k) (high : n = 4 → k < 16) (small : k < 64) :
    (if n = 0 then (0x90 : UInt8) else 0x80).toNat ≤ k + 0x80 ∧
      k + 0x80 ≤ (if n = 4 then (0x8F : UInt8) else 0xBF).toNat := by
  split_ifs <;> simp only [UInt8.reduceToNat] <;> omega

theorem feed_utf8EncodeChar : feed {} (String.utf8EncodeChar c) = ({}, [c]) := by
  have bounds := toNat_bounds c
  have whole : ∀ n, n = c.toNat → Char.ofNat n = c := fun n same => by rw [same, Char.ofNat_toNat]
  unfold String.utf8EncodeChar
  dsimp only
  rw [show c.val.toNat = c.toNat from rfl]
  split_ifs with one two three
  · simp [feed, step, first_one one, whole]
  · have start : first (UInt8.ofNat (c.toNat / 64 % 32 + 0xC0)) =
        ({ codePoint := c.toNat / 64, needed := 1 }, []) := by
      rw [first_two (by omega) (by omega)]
      congr 2
      omega
    simp only [feed, step.eq_1 {}, start, if_true]
    rw [step_tail Nat.one_ne_zero]
    simp [whole (c.toNat / 64 * 64 + c.toNat % 64) (by omega)]
  · have start : first (UInt8.ofNat (c.toNat / 4096 % 16 + 0xE0)) =
        ({ codePoint := c.toNat / 4096, needed := 2
           lower := if c.toNat / 4096 = 0 then 0xA0 else 0x80
           upper := if c.toNat / 4096 = 13 then 0x9F else 0xBF }, []) := by
      have digit : c.toNat / 4096 % 16 = c.toNat / 4096 := by omega
      have code : (c.toNat / 4096 + 0xE0) % 16 = c.toNat / 4096 := by omega
      rw [digit, first_three (by omega) (by omega), code]
      simp only [Nat.reduceEqDiff, Nat.add_eq_right]
    have second := @bounds_three (c.toNat / 4096) (c.toNat / 64 % 64) (by omega) (by omega)
      (by omega)
    simp only [feed, step.eq_1 {}, start, if_true,
      step_continue (Nat.succ_ne_zero 1) second.1 second.2, step_tail (Nat.succ_ne_zero 1),
      Nat.reduceAdd, Nat.reduceEqDiff, if_false]
    simp [whole ((c.toNat / 4096 * 64 + c.toNat / 64 % 64) * 64 + c.toNat % 64) (by omega)]
  · have start : first (UInt8.ofNat (c.toNat / 262144 % 8 + 0xF0)) =
        ({ codePoint := c.toNat / 262144, needed := 3
           lower := if c.toNat / 262144 = 0 then 0x90 else 0x80
           upper := if c.toNat / 262144 = 4 then 0x8F else 0xBF }, []) := by
      have digit : c.toNat / 262144 % 8 = c.toNat / 262144 := by omega
      have code : (c.toNat / 262144 + 0xF0) % 8 = c.toNat / 262144 := by omega
      rw [digit, first_four (by omega) (by omega), code]
      simp only [Nat.reduceEqDiff, Nat.add_eq_right]
    have second := @bounds_four (c.toNat / 262144) (c.toNat / 4096 % 64) (by omega) (by omega)
      (by omega)
    simp only [feed, step.eq_1 {}, start, if_true,
      step_continue (Nat.succ_ne_zero 2) second.1 second.2, step_tail (Nat.succ_ne_zero 2),
      Nat.reduceAdd, Nat.reduceEqDiff, if_false]
    simp [whole (((c.toNat / 262144 * 64 + c.toNat / 4096 % 64) * 64 + c.toNat / 64 % 64) * 64 +
      c.toNat % 64) (by omega)]

theorem feed_encodeChars : feed {} (encodeChars cs) = ({}, cs) := by
  induction cs with
  | nil => rfl
  | cons c cs ih => simp [encodeChars_cons, feed_append, feed_utf8EncodeChar, ih]

end Decoder

/-- **What was encoded is read back.** -/
@[simp]
theorem decode_encodeChars : decode (encodeChars cs) = units cs := by
  rw [decode, decodeChars, Decoder.feed_encodeChars]
  exact congrArg units (append_nil cs)

/-- A text comes back well-formed. -/
theorem decode_encode : decode (encode t) = wellFormed t :=
  decode_encodeChars _

/-! ### No byte is lost -/

variable {d : Decoder}

namespace Decoder

/-- The bytes read of the character the decoder is in. -/
def pending (d : Decoder) : Nat := if d.needed = 0 then 0 else d.seen + 1

/-- The decoder is between characters, or in one that can still end well. -/
inductive Valid : Decoder → Prop
  | between {d : Decoder} (here : d.needed = 0) : Valid d
  | two {p : Nat} (low : 2 ≤ p) (high : p < 32) : Valid { codePoint := p, needed := 1 }
  | three {p : Nat} (high : p < 16) : Valid
      { codePoint := p, needed := 2, lower := if p = 0 then 0xA0 else 0x80
        upper := if p = 13 then 0x9F else 0xBF }
  | threeLast {p : Nat} (low : 32 ≤ p) (high : p < 1024) (plain : p < 864 ∨ 896 ≤ p) : Valid
      { codePoint := p, seen := 1, needed := 2 }
  | four {p : Nat} (high : p ≤ 4) : Valid
      { codePoint := p, needed := 3, lower := if p = 0 then 0x90 else 0x80
        upper := if p = 4 then 0x8F else 0xBF }
  | fourMiddle {p : Nat} (low : 16 ≤ p) (high : p < 272) : Valid
      { codePoint := p, seen := 1, needed := 3 }
  | fourLast {p : Nat} (low : 1024 ≤ p) (high : p < 17408) : Valid
      { codePoint := p, seen := 2, needed := 3 }

/-- What reading the byte `b` in a state with `pending` bytes must leave. -/
def Accounts (pending : Nat) (b : UInt8) (read : Decoder × List Char) : Prop :=
  Valid read.1 ∧ pending + 1 ≤ (encodeChars read.2).length + read.1.pending ∧
    (if b = 0x0A then 1 else 0) ≤ (encodeChars read.2).count 0x0A

theorem length_encodeChars_ofNat (valid : n < 0xD800 ∨ 0xDFFF < n ∧ n < 0x110000) :
    (encodeChars [Char.ofNat n]).length =
      if n ≤ 0x7F then 1 else if n ≤ 0x7FF then 2 else if n ≤ 0xFFFF then 3 else 4 := by
  have value : (Char.ofNat n).val.toNat = n := by
    rw [Char.ofNat, dif_pos valid]
    rfl
  rw [encodeChars, flatMap_singleton, String.utf8EncodeChar, value]
  split_ifs <;> rfl

theorem accounts_first (b : UInt8) : Accounts 0 b (first b) := by
  -- Past ASCII the byte is no newline.
  have other : ∀ read : Decoder × List Char, ¬b ≤ 0x7F → Valid read.1 →
      1 ≤ (encodeChars read.2).length + read.1.pending → Accounts 0 b read := by
    intro read above valid kept
    refine ⟨valid, kept, ?_⟩
    rw [if_neg (by rintro rfl; exact above (by decide))]
    exact Nat.zero_le _
  have one : ∀ {d : Decoder}, d.needed ≠ 0 → 1 ≤ (encodeChars []).length + d.pending := by
    intro d inside
    rw [pending, if_neg inside]
    exact Nat.le_add_left 1 _
  unfold first
  by_cases ascii : b ≤ 0x7F
  · rw [if_pos ascii]
    have small : b.toNat ≤ 0x7F := le_iff_toNat_le.mp ascii
    have value : (Char.ofNat b.toNat).val.toNat = b.toNat := by
      rw [Char.ofNat, dif_pos (.inl (by omega))]
      rfl
    have byte : encodeChars [Char.ofNat b.toNat] = [b] := by
      rw [encodeChars, flatMap_singleton, String.utf8EncodeChar, value, if_pos small,
        UInt8.ofNat_toNat]
    refine ⟨.between rfl, ?_, ?_⟩
    · rw [byte]
      exact Nat.le_add_right 1 _
    · rw [byte, count_singleton]
      simp
  rw [if_neg ascii]
  by_cases two : 0xC2 ≤ b ∧ b ≤ 0xDF
  · rw [if_pos two]
    simp only [le_iff_toNat_le, UInt8.reduceToNat] at two
    exact other _ ascii (.two (by omega) (by omega)) (one Nat.one_ne_zero)
  rw [if_neg two]
  by_cases three : 0xE0 ≤ b ∧ b ≤ 0xEF
  · rw [if_pos three]
    simp only [le_iff_toNat_le, UInt8.reduceToNat] at three
    have lower : b = 0xE0 ↔ b.toNat % 16 = 0 := by
      simp only [← toNat_inj, UInt8.reduceToNat]
      omega
    have upper : b = 0xED ↔ b.toNat % 16 = 13 := by
      simp only [← toNat_inj, UInt8.reduceToNat]
      omega
    simp only [lower, upper]
    exact other _ ascii (.three (by omega)) (one (Nat.succ_ne_zero 1))
  rw [if_neg three]
  by_cases four : 0xF0 ≤ b ∧ b ≤ 0xF4
  · rw [if_pos four]
    simp only [le_iff_toNat_le, UInt8.reduceToNat] at four
    have lower : b = 0xF0 ↔ b.toNat % 8 = 0 := by
      simp only [← toNat_inj, UInt8.reduceToNat]
      omega
    have upper : b = 0xF4 ↔ b.toNat % 8 = 4 := by
      simp only [← toNat_inj, UInt8.reduceToNat]
      omega
    simp only [lower, upper]
    exact other _ ascii (.four (by omega)) (one (Nat.succ_ne_zero 2))
  rw [if_neg four]
  exact other _ ascii (.between rfl) (by decide)

/-- The byte continues the character in a state that goes on. -/
theorem accounts_more {seen needed q : Nat} {b : UInt8} (inside : needed ≠ 0) (above : 0x80 ≤ b)
    (valid : Valid { codePoint := q, seen := seen + 1, needed := needed }) :
    Accounts (seen + 1) b ({ codePoint := q, seen := seen + 1, needed := needed }, []) := by
  refine ⟨valid, ?_, ?_⟩
  · simp only [pending, if_neg inside]
    exact Nat.le_add_left _ _
  · rw [if_neg (by rintro rfl; exact absurd above (by decide))]
    exact Nat.zero_le _

/-- The byte completes a character that takes as many bytes as were read. -/
theorem accounts_last {k : Nat} {b : UInt8} (above : 0x80 ≤ b)
    (valid : n < 0xD800 ∨ 0xDFFF < n ∧ n < 0x110000)
    (long : k + 1 ≤ if n ≤ 0x7F then 1 else if n ≤ 0x7FF then 2 else if n ≤ 0xFFFF then 3 else 4) :
    Accounts k b ({}, [Char.ofNat n]) := by
  refine ⟨.between rfl, ?_, ?_⟩
  · rw [length_encodeChars_ofNat valid]
    exact long
  · rw [if_neg (by rintro rfl; exact absurd above (by decide))]
    exact Nat.zero_le _

/-- **One byte is accounted for**: by characters given out or by the state. -/
theorem accounts_step (valid : Valid d) (b : UInt8) : Accounts d.pending b (step d b) := by
  have fresh := accounts_first b
  by_cases here : d.needed = 0
  · rw [step, if_pos here, pending, if_pos here]
    exact fresh
  by_cases outside : b < d.lower ∨ d.upper < b
  · -- The character ends as U+FFFD, which takes as many bytes as any state holds.
    have three : d.pending ≤ 3 := by
      cases valid with
      | between there => exact absurd there here
      | _ => exact Nat.le_of_ble_eq_true rfl
    rw [step, if_neg here, if_pos outside]
    obtain ⟨valid', kept, lines⟩ := fresh
    refine ⟨valid', ?_, ?_⟩
    · rw [encodeChars_cons, length_append, show (String.utf8EncodeChar replacement).length = 3
        from rfl, Nat.add_assoc]
      exact Nat.add_le_add three (Nat.le_trans (Nat.le_add_left 1 _) kept)
    · rw [encodeChars_cons, count_append]
      exact Nat.le_add_left_of_le lines
  · rw [step, if_neg here, if_neg outside]
    simp only [not_or, UInt8.not_lt, le_iff_toNat_le] at outside
    obtain ⟨low, high⟩ := outside
    cases valid with
    | between there => exact absurd there here
    | @two p ge lt =>
      dsimp only at low high ⊢
      simp only [UInt8.reduceToNat] at low high
      rw [if_pos rfl]
      refine accounts_last (le_iff_toNat_le.mpr low) (.inl (by omega)) ?_
      rw [if_neg (by omega), if_pos (by omega)]
      exact Nat.le_refl 2
    | @three p lt =>
      dsimp only at low high ⊢
      have least : 0x80 ≤ b.toNat ∧ (p = 0 → 0xA0 ≤ b.toNat) := by
        split_ifs at low <;> simp only [UInt8.reduceToNat] at low <;> omega
      have most : b.toNat ≤ 0xBF ∧ (p = 13 → b.toNat ≤ 0x9F) := by
        split_ifs at high <;> simp only [UInt8.reduceToNat] at high <;> omega
      rw [if_neg (show ¬0 + 1 = _ by decide)]
      exact accounts_more here (le_iff_toNat_le.mpr least.1)
        (.threeLast (by omega) (by omega) (by omega))
    | @threeLast p ge lt plain =>
      dsimp only at low high ⊢
      simp only [UInt8.reduceToNat] at low high
      rw [if_pos rfl]
      refine accounts_last (le_iff_toNat_le.mpr low) (by omega) ?_
      rw [if_neg (by omega), if_neg (by omega), if_pos (by omega)]
      exact Nat.le_refl 3
    | @four p le =>
      dsimp only at low high ⊢
      have least : 0x80 ≤ b.toNat ∧ (p = 0 → 0x90 ≤ b.toNat) := by
        split_ifs at low <;> simp only [UInt8.reduceToNat] at low <;> omega
      have most : b.toNat ≤ 0xBF ∧ (p = 4 → b.toNat ≤ 0x8F) := by
        split_ifs at high <;> simp only [UInt8.reduceToNat] at high <;> omega
      rw [if_neg (show ¬0 + 1 = _ by decide)]
      exact accounts_more here (le_iff_toNat_le.mpr least.1) (.fourMiddle (by omega) (by omega))
    | @fourMiddle p ge lt =>
      dsimp only at low high ⊢
      simp only [UInt8.reduceToNat] at low high
      rw [if_neg (by decide)]
      exact accounts_more here (le_iff_toNat_le.mpr low) (.fourLast (by omega) (by omega))
    | @fourLast p ge lt =>
      dsimp only at low high ⊢
      simp only [UInt8.reduceToNat] at low high
      rw [if_pos rfl]
      refine accounts_last (le_iff_toNat_le.mpr low) (by omega) ?_
      rw [if_neg (by omega), if_neg (by omega), if_neg (by omega)]
      exact Nat.le_refl 4

theorem valid_feed (valid : Valid d) (bytes : List UInt8) : Valid (feed d bytes).1 := by
  induction bytes generalizing d with
  | nil => exact valid
  | cons b bytes ih => exact ih (accounts_step valid b).1

/-- **Fed bytes are accounted for.** -/
theorem length_feed_le (valid : Valid d) (bytes : List UInt8) :
    d.pending + bytes.length ≤
      (encodeChars (feed d bytes).2).length + (feed d bytes).1.pending := by
  induction bytes generalizing d with
  | nil => exact Nat.le_add_left _ _
  | cons b bytes ih =>
    obtain ⟨valid', kept, _⟩ := accounts_step valid b
    have rest := ih valid'
    rw [feed, encodeChars_append, length_append, length_cons]
    dsimp only
    omega

/-- Every newline byte is a newline of the text. -/
theorem count_feed_le (valid : Valid d) (bytes : List UInt8) :
    bytes.count 0x0A ≤ (encodeChars (feed d bytes).2).count 0x0A := by
  induction bytes generalizing d with
  | nil => exact Nat.zero_le _
  | cons b bytes ih =>
    obtain ⟨valid', _, lines⟩ := accounts_step valid b
    have rest := ih valid'
    rw [feed, encodeChars_append, count_append, count_cons]
    simp only [beq_iff_eq]
    omega

/-- An incomplete character takes no more bytes than its U+FFFD. -/
theorem pending_le_flush (valid : Valid d) : d.pending ≤ (encodeChars d.flush).length := by
  by_cases here : d.needed = 0
  · rw [pending, if_pos here]
    exact Nat.zero_le _
  · rw [flush, if_neg here]
    cases valid with
    | between there => exact absurd there here
    | _ => exact Nat.le_of_ble_eq_true rfl

end Decoder

end TianGong.Utf8

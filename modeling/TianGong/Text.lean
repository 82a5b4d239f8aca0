/-
**Text: strings of UTF-16 code units.**

A string of the source is a sequence of UTF-16 code units, indexed and sliced by unit; it may hold a
lone surrogate. `Text` is that sequence; `text` is the spelling of a literal.

* `quote`: the text `JSON.stringify` gives a string: the short escapes, `\u` escapes of the other
  control characters, and `\u` escapes of **lone** surrogates (a surrogate pair stays as it is).

`quote_append_inj` and `decimal_append_inj`: a quoted string, or a number, followed by something that
cannot continue it determines where it ends. `jsonArray_inj` lifts them to whole arrays: such a text
can be a map key.
-/

import Std.Data.String.ToNat
import Mathlib.Data.List.Basic
import Mathlib.Data.List.TakeWhile

namespace TianGong

open List

/-- A string of the source: its UTF-16 code units. -/
abbrev Text := List UInt16

instance : LawfulBEq Text := inferInstanceAs (LawfulBEq (List UInt16))

/-- The code units of one character. -/
def utf16 (c : Char) : Text :=
  if c.toNat < 0x10000 then [c.toNat.toUInt16]
  else [(0xD800 + (c.toNat - 0x10000) / 0x400).toUInt16, (0xDC00 + c.toNat % 0x400).toUInt16]

/-- A literal. -/
def text (s : String) : Text := s.toList.flatMap utf16

/-- The single code unit of an ASCII character. -/
def unit (c : Char) : UInt16 := c.toNat.toUInt16

example : text "ab" = [97, 98] := by decide

/-! ### Decimal numbers -/

/-- The text of a non-negative integer. -/
def decimal (n : Nat) : Text := (Nat.toDigits 10 n).map unit

/-- The code unit is a decimal digit. -/
def isDigit (c : UInt16) : Bool := 48 ≤ c && c ≤ 57

variable {c : Char} {n : Nat}

theorem charDigit_bounds (digit : c.isDigit = true) : 48 ≤ c.toNat ∧ c.toNat ≤ 57 := by
  simp only [Char.isDigit, Bool.and_eq_true, decide_eq_true_eq, ge_iff_le, UInt32.le_iff_toNat_le]
    at digit
  have low : '0'.val.toNat = 48 := rfl
  have high : '9'.val.toNat = 57 := rfl
  have value : c.toNat = c.val.toNat := rfl
  omega

theorem unit_toNat (digit : c.isDigit = true) : (unit c).toNat = c.toNat := by
  have bounds := charDigit_bounds digit
  simp only [unit, Nat.toUInt16_eq, UInt16.toNat_ofNat']
  omega

theorem isDigit_unit (digit : c.isDigit = true) : isDigit (unit c) = true := by
  have bounds := charDigit_bounds digit
  simp only [isDigit, Bool.and_eq_true, decide_eq_true_eq, UInt16.le_iff_toNat_le,
    unit_toNat digit, UInt16.reduceToNat]
  exact bounds

theorem unit_injective_of_isDigit {d : Char} (digitC : c.isDigit = true)
    (digitD : d.isDigit = true) (same : unit c = unit d) : c = d := by
  have values := congrArg UInt16.toNat same
  rw [unit_toNat digitC, unit_toNat digitD] at values
  exact Char.toNat_inj.mp values

theorem digits_isDigit (member : c ∈ Nat.toDigits 10 n) : c.isDigit = true :=
  Nat.isDigit_of_mem_toDigits (by decide) (by decide) member

theorem decimal_isDigit {c : UInt16} (member : c ∈ decimal n) : isDigit c = true := by
  obtain ⟨d, inside, rfl⟩ := List.mem_map.mp member
  exact isDigit_unit (digits_isDigit inside)

theorem decimal_ne_nil (n : Nat) : decimal n ≠ [] := by
  simp [decimal]

theorem map_unit_injective {first second : List Char} (digitsFirst : ∀ c ∈ first, c.isDigit = true)
    (digitsSecond : ∀ c ∈ second, c.isDigit = true) (same : first.map unit = second.map unit) :
    first = second := by
  induction first generalizing second with
  | nil => exact (List.map_eq_nil_iff.mp same.symm).symm
  | cons c rest ih =>
    cases second with
    | nil => cases same
    | cons d others =>
      simp only [map_cons, List.cons.injEq] at same
      rw [unit_injective_of_isDigit (digitsFirst c mem_cons_self)
          (digitsSecond d mem_cons_self) same.1,
        ih (fun e inside => digitsFirst e (mem_cons_of_mem _ inside))
          (fun e inside => digitsSecond e (mem_cons_of_mem _ inside)) same.2]

/-- **Two integers with the same text are the same integer.** -/
theorem decimal_injective {m : Nat} (same : decimal m = decimal n) : m = n := by
  have digits : Nat.toDigits 10 m = Nat.toDigits 10 n :=
    map_unit_injective (fun _ => digits_isDigit) (fun _ => digits_isDigit) same
  apply Nat.repr_injective
  rw [Nat.repr_eq_ofList_toDigits, Nat.repr_eq_ofList_toDigits, digits]

/-- The text does not start with a digit. -/
def NoDigit (t : Text) : Prop := ∀ c ∈ t.head?, isDigit c = false

theorem takeWhile_decimal_append (n : Nat) {rest : Text} (stop : NoDigit rest) :
    (decimal n ++ rest).takeWhile isDigit = decimal n := by
  rw [takeWhile_append_of_pos fun c member => decimal_isDigit member]
  cases rest with
  | nil => simp
  | cons c tail =>
    have head : isDigit c = false := stop c rfl
    simp [head]

/-- **A number determines where it ends.** -/
theorem decimal_append_inj {m : Nat} {rest other : Text} (stop : NoDigit rest)
    (stopOther : NoDigit other) (same : decimal m ++ rest = decimal n ++ other) :
    m = n ∧ rest = other := by
  have digits : decimal m = decimal n := by
    rw [← takeWhile_decimal_append m stop, same, takeWhile_decimal_append n stopOther]
  refine ⟨decimal_injective digits, ?_⟩
  rw [digits] at same
  exact append_cancel_left same

/-! ### Quoted strings -/

/-- The first unit of a surrogate pair. -/
def isLead (c : UInt16) : Bool := 0xD800 ≤ c && c ≤ 0xDBFF

/-- The second unit of a surrogate pair. -/
def isTrail (c : UInt16) : Bool := 0xDC00 ≤ c && c ≤ 0xDFFF

/-- A lower-case hexadecimal digit. -/
def hexDigit (n : Nat) : UInt16 := if n < 10 then (48 + n).toUInt16 else (87 + n).toUInt16

/-- The value of a lower-case hexadecimal digit. -/
def hexValue (c : UInt16) : Nat := if c.toNat < 58 then c.toNat - 48 else c.toNat - 87

theorem hexValue_hexDigit (small : n < 16) : hexValue (hexDigit n) = n := by
  unfold hexDigit hexValue
  split
  · simp only [Nat.toUInt16_eq, UInt16.toNat_ofNat']
    split <;> omega
  · simp only [Nat.toUInt16_eq, UInt16.toNat_ofNat']
    split <;> omega

/-- The four-digit escape of a code unit. -/
def unicodeEscape (c : UInt16) : Text :=
  [unit '\\', unit 'u', hexDigit (c.toNat / 0x1000), hexDigit (c.toNat / 0x100 % 0x10),
    hexDigit (c.toNat / 0x10 % 0x10), hexDigit (c.toNat % 0x10)]

/-- One code unit that is not part of a surrogate pair, escaped where JSON text needs it. -/
def escapeUnit (c : UInt16) : Text :=
  if c = 8 then [unit '\\', unit 'b']
  else if c = 9 then [unit '\\', unit 't']
  else if c = 10 then [unit '\\', unit 'n']
  else if c = 12 then [unit '\\', unit 'f']
  else if c = 13 then [unit '\\', unit 'r']
  else if c = unit '"' then [unit '\\', unit '"']
  else if c = unit '\\' then [unit '\\', unit '\\']
  else if c < 32 || isLead c || isTrail c then unicodeEscape c
  else [c]

/-- The text between the quotes. -/
def quoteBody : Text → Text
  | [] => []
  | [c] => escapeUnit c
  | c :: d :: rest =>
    if isLead c && isTrail d then c :: d :: quoteBody rest
    else escapeUnit c ++ quoteBody (d :: rest)

/-- `JSON.stringify` of a string. -/
def quote (t : Text) : Text := unit '"' :: (quoteBody t ++ [unit '"'])

/-- The unit a one-letter escape stands for. -/
def unescape (e : UInt16) : UInt16 :=
  if e = unit 'b' then 8
  else if e = unit 't' then 9
  else if e = unit 'n' then 10
  else if e = unit 'f' then 12
  else if e = unit 'r' then 13
  else e

/-- Read one code unit of a quoted body, escape or not. -/
def readUnit : Text → Option (UInt16 × Text)
  | [] => none
  | c :: rest =>
    if c = unit '\\' then
      match rest with
      | e :: more =>
        if e = unit 'u' then
          match more with
          | h₁ :: h₂ :: h₃ :: h₄ :: tail =>
            some ((hexValue h₁ * 0x1000 + hexValue h₂ * 0x100 + hexValue h₃ * 0x10
              + hexValue h₄).toUInt16, tail)
          | _ => none
        else some (unescape e, more)
      | [] => none
    else some (c, rest)

theorem readUnit_unicodeEscape (c : UInt16) (rest : Text) :
    readUnit (unicodeEscape c ++ rest) = some (c, rest) := by
  have bound := c.toNat_lt
  have digits : c.toNat / 0x1000 * 0x1000 + c.toNat / 0x100 % 0x10 * 0x100
      + c.toNat / 0x10 % 0x10 * 0x10 + c.toNat % 0x10 = c.toNat := by omega
  simp only [unicodeEscape, cons_append, nil_append, readUnit, if_true]
  rw [hexValue_hexDigit (by omega), hexValue_hexDigit (by omega), hexValue_hexDigit (by omega),
    hexValue_hexDigit (by omega), digits, Nat.toUInt16_eq, UInt16.ofNat_toNat]

theorem readUnit_plain {c : UInt16} (plain : c ≠ unit '\\') (rest : Text) :
    readUnit (c :: rest) = some (c, rest) := by
  simp only [readUnit, if_neg plain]

theorem readUnit_escapeUnit (c : UInt16) (rest : Text) :
    readUnit (escapeUnit c ++ rest) = some (c, rest) := by
  unfold escapeUnit
  split_ifs with b t n f r q backslash coded
  · subst b
    rfl
  · subst t
    rfl
  · subst n
    rfl
  · subst f
    rfl
  · subst r
    rfl
  · subst q
    rfl
  · subst backslash
    rfl
  · exact readUnit_unicodeEscape c rest
  · exact readUnit_plain backslash rest

theorem escapeUnit_head (c : UInt16) (rest : Text) :
    (escapeUnit c ++ rest).head? ≠ some (unit '"') := by
  unfold escapeUnit
  split_ifs with b t n f r q backslash coded
  all_goals
    first
    | exact fun same => q (Option.some.inj same)
    | decide +revert
    | (simp only [unicodeEscape, List.cons_append, List.head?_cons]; decide)

/-- Reading units up to the closing quote. -/
inductive Reads : Text → Text → Text → Prop
  | stop (rest : Text) : Reads (unit '"' :: rest) [] rest
  | step {t next body rest : Text} {c : UInt16} (open_ : t.head? ≠ some (unit '"'))
      (read : readUnit t = some (c, next)) (more : Reads next body rest) : Reads t (c :: body) rest

theorem Reads.unique {t body rest body' rest' : Text} (first : Reads t body rest)
    (second : Reads t body' rest') : body = body' ∧ rest = rest' := by
  induction first generalizing body' with
  | stop rest =>
    cases second with
    | stop => exact ⟨rfl, rfl⟩
    | step open_ _ _ => exact (open_ rfl).elim
  | step open_ read _ ih =>
    cases second with
    | stop => exact (open_ rfl).elim
    | step _ read' more' =>
      rw [read] at read'
      simp only [Option.some.injEq, Prod.mk.injEq] at read'
      obtain ⟨rfl, rfl⟩ := read'
      obtain ⟨same, rest⟩ := ih more'
      exact ⟨congrArg _ same, rest⟩

theorem lead_plain {c : UInt16} (lead : isLead c = true) : c ≠ unit '\\' ∧ c ≠ unit '"' := by
  constructor <;> (rintro rfl; exact absurd lead (by decide))

theorem trail_plain {c : UInt16} (trail : isTrail c = true) : c ≠ unit '\\' ∧ c ≠ unit '"' := by
  constructor <;> (rintro rfl; exact absurd trail (by decide))

/-- **Reading a quoted body gives the string back.** -/
theorem quoteBody_reads (t rest : Text) : Reads (quoteBody t ++ unit '"' :: rest) t rest := by
  induction t using quoteBody.induct with
  | case1 => exact .stop rest
  | case2 c => exact .step (escapeUnit_head c _) (readUnit_escapeUnit c _) (.stop rest)
  | case3 c d more pair ih =>
    rw [quoteBody, if_pos pair]
    rw [Bool.and_eq_true] at pair
    refine .step (fun same => (lead_plain pair.1).2 (Option.some.inj same))
      (readUnit_plain (lead_plain pair.1).1 _) ?_
    exact .step (fun same => (trail_plain pair.2).2 (Option.some.inj same))
      (readUnit_plain (trail_plain pair.2).1 _) ih
  | case4 c d more pair ih =>
    rw [quoteBody, if_neg pair, append_assoc]
    exact .step (escapeUnit_head c _) (readUnit_escapeUnit c _) ih

/-- **A quoted string determines where it ends.** -/
theorem quote_append_inj {s t rest other : Text} (same : quote s ++ rest = quote t ++ other) :
    s = t ∧ rest = other := by
  simp only [quote, cons_append, append_assoc, nil_append, List.cons.injEq, true_and] at same
  have first := quoteBody_reads s rest
  rw [same] at first
  exact first.unique (quoteBody_reads t other)

/-! ### Arrays -/

/-- The next unit ends an array item. -/
def EndsItem (t : Text) : Prop := t.head? = some (unit ',') ∨ t.head? = some (unit ']')

/-- Texts that can stand as array items: each is non-empty, starts with something other than `]`,
and determines where it ends. -/
structure ItemText {α : Type} (render : α → Text) : Prop where
  starts : ∀ a, ∃ c rest, render a = c :: rest ∧ c ≠ unit ']'
  ends : ∀ {a b rest other}, EndsItem rest → EndsItem other →
    render a ++ rest = render b ++ other → a = b ∧ rest = other

/-- The items with commas between them, and the closing bracket. -/
def arrayTail : List Text → Text
  | [] => [unit ']']
  | [item] => item ++ [unit ']']
  | item :: next :: items => item ++ unit ',' :: arrayTail (next :: items)

/-- `JSON.stringify` of an array, from the texts of its items. -/
def jsonArray (items : List Text) : Text := unit '[' :: arrayTail items

theorem ItemText.arrayTail_inj {α : Type} {render : α → Text} (item : ItemText render)
    {xs ys : List α} {rest other : Text}
    (same : arrayTail (xs.map render) ++ rest = arrayTail (ys.map render) ++ other) :
    xs = ys ∧ rest = other := by
  induction xs generalizing ys with
  | nil =>
    cases ys with
    | nil => exact ⟨rfl, by simpa [arrayTail] using same⟩
    | cons y ys =>
      obtain ⟨c, tail, render_eq, plain⟩ := item.starts y
      cases ys <;> simp [arrayTail, render_eq, plain.symm] at same
  | cons x xs ih =>
    cases ys with
    | nil =>
      obtain ⟨c, tail, render_eq, plain⟩ := item.starts x
      cases xs <;> simp [arrayTail, render_eq, plain] at same
    | cons y ys =>
      have bracket : ∀ more : Text, EndsItem (unit ']' :: more) := fun _ => Or.inr rfl
      have comma : ∀ more : Text, EndsItem (unit ',' :: more) := fun _ => Or.inl rfl
      have differ : unit ']' ≠ unit ',' := by decide
      cases xs with
      | nil =>
        cases ys with
        | nil =>
          simp only [map_cons, map_nil, arrayTail, append_assoc, cons_append,
            nil_append] at same
          obtain ⟨rfl, tails⟩ := item.ends (bracket _) (bracket _) same
          exact ⟨rfl, (List.cons.inj tails).2⟩
        | cons z zs =>
          simp only [map_cons, map_nil, arrayTail, append_assoc, cons_append,
            nil_append] at same
          obtain ⟨_, tails⟩ := item.ends (bracket _) (comma _) same
          exact (differ (List.cons.inj tails).1).elim
      | cons z zs =>
        cases ys with
        | nil =>
          simp only [map_cons, map_nil, arrayTail, append_assoc, cons_append,
            nil_append] at same
          obtain ⟨_, tails⟩ := item.ends (comma _) (bracket _) same
          exact (differ (List.cons.inj tails).1.symm).elim
        | cons w ws =>
          simp only [map_cons, arrayTail, append_assoc, cons_append] at same ih
          obtain ⟨rfl, tails⟩ := item.ends (comma _) (comma _) same
          obtain ⟨rest_eq, other_eq⟩ := @ih (w :: ws) (List.cons.inj tails).2
          exact ⟨congrArg _ rest_eq, other_eq⟩

/-- **An array of item texts determines its items.** -/
theorem ItemText.jsonArray_inj {α : Type} {render : α → Text} (item : ItemText render)
    {xs ys : List α} (same : jsonArray (xs.map render) = jsonArray (ys.map render)) : xs = ys := by
  refine (@ItemText.arrayTail_inj _ _ item _ _ [] [] ?_).1
  rw [append_nil, append_nil]
  exact (List.cons.inj same).2

end TianGong

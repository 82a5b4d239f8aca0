/-
**Address literals are read back.**

* `ipv4Value_eq_some`, `expandIpv6Side_eq_some`: what the readers accept, and the value they give it.
-/

import TianGong.Lib.Positional
import TianGong.SecGuard.Address
import TianGong.SecGuard.Splits

namespace TianGong.SecGuard

open TianGong.Lib
open List (all_eq_true append_assoc forall_mem_cons map_cons map_nil mem_append mem_cons
  mem_cons_self mem_map not_mem_nil)

/-! ### Digits -/

theorem number_eq (t : Text) : number t = places 10 (t.map hexValue) := by
  have read := foldl_places (b := 10) 0 (t.map hexValue)
  rw [List.foldl_map, Nat.zero_mul, Nat.zero_add] at read
  exact read

theorem parseHex_eq (t : Text) : parseHex t = places 16 (t.map hexValue) := by
  have read := foldl_places (b := 16) 0 (t.map hexValue)
  rw [List.foldl_map, Nat.zero_mul, Nat.zero_add] at read
  exact read

/-- A hexadecimal digit. -/
def isHexUnit (c : UInt16) : Bool := isDigit c || (97 ≤ c && c ≤ 102)

theorem digitChar_table : ∀ d < 16, hexValue (unit (Nat.digitChar d)) = d ∧
    isHexUnit (unit (Nat.digitChar d)) = true ∧
    (d < 10 → isDigit (unit (Nat.digitChar d)) = true) := by decide

variable {t : Text} {n : Nat} {c : UInt16}

theorem mem_toDigits {b : Nat} {c : Char} (base : 1 < b) (isIn : c ∈ Nat.toDigits b n) :
    ∃ d < b, c = Nat.digitChar d := by
  induction n using Nat.strong_induction_on generalizing c with
  | h n ih =>
  rw [Nat.toDigits_eq_if base] at isIn
  split at isIn
  · rename_i small
    exact ⟨n, small, List.mem_singleton.mp isIn⟩
  · rename_i large
    rcases mem_append.mp isIn with high | low
    · exact ih (n / b) (Nat.div_lt_self (by omega) base) high
    · exact ⟨n % b, Nat.mod_lt n (by omega), List.mem_singleton.mp low⟩

/-- **The digits of a number are read back.** -/
theorem places_toDigits {b : Nat} (base : 1 < b) (most : b ≤ 16) (n : Nat) :
    places b (((Nat.toDigits b n).map unit).map hexValue) = n := by
  induction n using Nat.strong_induction_on with
  | h n ih =>
  rw [Nat.toDigits_eq_if base]
  split
  · rename_i small
    simp only [map_cons, map_nil, places_singleton]
    exact (digitChar_table n (by omega)).1
  · rename_i large
    have digit := (digitChar_table (n % b) ((Nat.mod_lt n (by omega)).trans_le most)).1
    rw [List.map_append, List.map_append, places_append,
      ih (n / b) (Nat.div_lt_self (by omega) base)]
    simp only [map_cons, map_nil, places_singleton, List.length_singleton, pow_one, digit]
    exact Nat.div_add_mod' n b

theorem number_decimal (n : Nat) : number (decimal n) = n := by
  rw [number_eq]
  exact places_toDigits (by decide) (by decide) n

theorem octet_decimal (small : n < 1000) : octet (decimal n) = true := by
  have length := (Nat.length_toDigits_le_iff (b := 10) (n := n) (k := 3) (by decide) (by decide)).mpr small
  have some : 0 < (Nat.toDigits 10 n).length := Nat.length_toDigits_pos
  simp only [octet, decimal, List.length_map, Bool.and_eq_true, decide_eq_true_eq, all_eq_true]
  exact ⟨⟨some, length⟩, fun c isIn => decimal_isDigit isIn⟩

theorem parseHex_group : parseHex (padStart 4 (hexText n)) = n := by
  rw [parseHex_eq, padStart, List.map_append, List.map_replicate]
  have zero : hexValue (unit '0') = 0 := by decide
  rw [zero, places_zeros]
  exact places_toDigits (by decide) (by decide) n

theorem ipv6Group_group (small : n < 65536) : ipv6Group (padStart 4 (hexText n)) = true := by
  have length := (Nat.length_toDigits_le_iff (b := 16) (n := n) (k := 4) (by decide) (by decide)).mpr small
  simp only [ipv6Group, padStart, hexText, List.length_append, List.length_replicate, List.length_map,
    Bool.and_eq_true, decide_eq_true_eq, all_eq_true, mem_append, List.mem_replicate,
    mem_map]
  refine ⟨⟨by omega, by omega⟩, ?_⟩
  rintro c (⟨-, rfl⟩ | ⟨d, isIn, rfl⟩)
  · decide
  · obtain ⟨digit, small, rfl⟩ := mem_toDigits (by decide) isIn
    exact (digitChar_table digit small).2.1

theorem hexValue_lt (hex : isHexUnit c = true) : hexValue c < 16 := by
  simp only [isHexUnit, isDigit, Bool.or_eq_true, Bool.and_eq_true, decide_eq_true_eq,
    UInt16.le_iff_toNat_le, UInt16.reduceToNat] at hex
  unfold hexValue
  split <;> omega

theorem parseHex_lt (group : ipv6Group t = true) : parseHex t < 65536 := by
  simp only [ipv6Group, Bool.and_eq_true, decide_eq_true_eq, all_eq_true] at group
  obtain ⟨⟨-, length⟩, hex⟩ := group
  have fits : places 16 (t.map hexValue) < 16 ^ (t.map hexValue).length := by
    refine places_lt (by decide) fun d isIn => ?_
    obtain ⟨c, inside, rfl⟩ := mem_map.mp isIn
    exact hexValue_lt (hex c inside)
  rw [List.length_map] at fits
  rw [parseHex_eq]
  calc places 16 (t.map hexValue) < 16 ^ t.length := fits
    _ ≤ 16 ^ 4 := Nat.pow_le_pow_right (by decide) length

/-! ### IPv4 -/

/-- An octet of a literal: its text is one to three digits, and its value fits a byte. -/
def isOctet (t : Text) : Prop := octet t = true ∧ number t ≤ 255

theorem readOctets_eq_some (parts : List Text) (start v : Nat) : parts.foldlM (fun value part =>
        if !octet part then none
        else if 255 < number part then none
        else some (value <<< 8 ||| number part)) start = some v ↔
      (∀ part ∈ parts, isOctet part) ∧
        v = (parts.map number).foldl (fun value octet => value <<< 8 ||| octet) start := by
  induction parts generalizing start with
  | nil =>
    show some start = some v ↔ _
    simp [eq_comm]
  | cons part parts ih =>
    rw [List.foldlM_cons, forall_mem_cons, map_cons, List.foldl_cons]
    by_cases digits : octet part = true
    · by_cases large : 255 < number part
      · have out : ¬ isOctet part := fun small => absurd small.2 (by omega)
        simp [digits, large, out]
      · have small : isOctet part := ⟨digits, by omega⟩
        simp only [digits, large, small, Bool.not_true, Bool.false_eq_true, if_false, true_and]
        exact ih _
    · have out : ¬ isOctet part := fun small => digits small.1
      simp [digits, out]

/-- **What is an IPv4 literal**, and its value. -/
theorem ipv4Value_eq_some (t : Text) (v : Nat) :
    ipv4Value t = some v ↔ (t.splitOn (unit '.')).length = 4 ∧
      (∀ part ∈ t.splitOn (unit '.'), isOctet part) ∧
      v = places 256 ((t.splitOn (unit '.')).map number) := by
  have dots : split (text ".") t = t.splitOn (unit '.') := split_unit (unit '.') t
  unfold ipv4Value
  rw [dots]
  dsimp only
  by_cases four : (t.splitOn (unit '.')).length = 4
  · rw [if_neg (not_not.mpr four), readOctets_eq_some]
    constructor
    · rintro ⟨octets, rfl⟩
      refine ⟨four, octets, foldl_shift (k := 8) fun d isIn => ?_⟩
      obtain ⟨part, inside, rfl⟩ := mem_map.mp isIn
      exact Nat.lt_succ_of_le (octets part inside).2
    · rintro ⟨-, octets, rfl⟩
      refine ⟨octets, (foldl_shift (k := 8) fun d isIn => ?_).symm⟩
      obtain ⟨part, inside, rfl⟩ := mem_map.mp isIn
      exact Nat.lt_succ_of_le (octets part inside).2
  · rw [if_pos four]
    exact iff_of_false (by simp) fun literal => four literal.1

variable {v : Nat}

theorem ipv4Value_lt (literal : ipv4Value t = some v) : v < 2 ^ 32 := by
  obtain ⟨four, octets, rfl⟩ := (ipv4Value_eq_some t v).mp literal
  have fits : places 256 ((t.splitOn (unit '.')).map number) <
      256 ^ ((t.splitOn (unit '.')).map number).length := by
    refine places_lt (by decide) fun d isIn => ?_
    obtain ⟨part, inside, rfl⟩ := mem_map.mp isIn
    exact Nat.lt_succ_of_le (octets part inside).2
  rwa [List.length_map, four] at fits

/-- The units of an IPv4 literal are digits and full stops. -/
theorem ipv4Value_units (literal : ipv4Value t = some v) (isIn : c ∈ t) :
    isDigit c = true ∨ c = unit '.' := by
  obtain ⟨-, octets, -⟩ := (ipv4Value_eq_some t v).mp literal
  have joins : [unit '.'].intercalate (t.splitOn (unit '.')) = t := List.intercalate_splitOn _
  rw [← joins] at isIn
  have parts : ∀ list : List Text, (∀ part ∈ list, isOctet part) → c ∈ [unit '.'].intercalate list →
      isDigit c = true ∨ c = unit '.' := by
    intro list
    induction list with
    | nil => exact fun _ inside => by cases inside
    | cons part list ih =>
      intro octets inside
      have digits := (octets part mem_cons_self).1
      simp only [octet, Bool.and_eq_true, all_eq_true] at digits
      cases list with
      | nil =>
        rw [List.intercalate_singleton] at inside
        exact .inl (digits.2 c inside)
      | cons next list =>
        rw [List.intercalate_cons_cons, append_assoc] at inside
        rcases mem_append.mp inside with first | rest
        · exact .inl (digits.2 c first)
        rcases mem_cons.mp rest with rfl | later
        · exact .inr rfl
        · exact ih (fun other among => octets other (List.mem_cons_of_mem _ among)) later
  exact parts _ octets isIn

theorem and_mask (n k : Nat) : n &&& (2 ^ k - 1) = n % 2 ^ k := Nat.and_two_pow_sub_one_eq_mod n k

/-- **What is written of an IPv4 value is read back.** -/
theorem ipv4Value_render (fits : v < 2 ^ 32) : ipv4Value (renderV4 v) = some v := by
  have mask : ∀ n, n &&& 0xFF = n % 256 := fun n => and_mask n 8
  have bytes : renderV4 v = [unit '.'].intercalate
      [decimal (v / 2 ^ 24 % 256), decimal (v / 2 ^ 16 % 256), decimal (v / 2 ^ 8 % 256),
        decimal (v % 256)] := by
    simp only [renderV4, map_cons, map_nil, mask, Nat.shiftRight_eq_div_pow, Nat.mod_mod]
    rfl
  have parts : (renderV4 v).splitOn (unit '.') =
      [decimal (v / 2 ^ 24 % 256), decimal (v / 2 ^ 16 % 256), decimal (v / 2 ^ 8 % 256),
        decimal (v % 256)] := by
    rw [bytes]
    refine List.splitOn_intercalate _ (fun part isIn => ?_) (List.cons_ne_nil _ _)
    obtain ⟨n, rfl⟩ : ∃ n, part = decimal n := by
      simp only [mem_cons, not_mem_nil, or_false] at isIn
      rcases isIn with rfl | rfl | rfl | rfl <;> exact ⟨_, rfl⟩
    intro dot
    exact absurd (decimal_isDigit dot) (by decide)
  have octets : ∀ n, isOctet (decimal (n % 256)) := by
    intro n
    have small := Nat.mod_lt n (show 0 < 256 by decide)
    refine ⟨octet_decimal (by omega), ?_⟩
    rw [number_decimal]
    omega
  rw [ipv4Value_eq_some, parts]
  refine ⟨rfl, ?_, ?_⟩
  · simp only [forall_mem_cons, not_mem_nil, false_imp_iff, implies_true, and_true, octets]
  · simp only [map_cons, map_nil, number_decimal, places_cons, places_nil, List.length_cons,
      List.length_nil]
    omega

/-! ### IPv6 -/

theorem ipv6Group_units (group : ipv6Group t = true) : t ≠ [] ∧ ∀ c ∈ t, isHexUnit c = true := by
  simp only [ipv6Group, Bool.and_eq_true, decide_eq_true_eq, all_eq_true] at group
  refine ⟨fun empty => ?_, group.2⟩
  rw [empty] at group
  exact absurd group.1.1 (by decide)

/-- A group has neither a full stop nor a colon. -/
theorem ipv6Group_plain (group : ipv6Group t = true) : unit '.' ∉ t ∧ unit ':' ∉ t := by
  have units := (ipv6Group_units group).2
  exact ⟨fun isIn => absurd (units _ isIn) (by decide), fun isIn => absurd (units _ isIn) (by decide)⟩

theorem ipv4Value_dotted (literal : ipv4Value t = some v) : unit '.' ∈ t ∧ unit ':' ∉ t := by
  constructor
  · by_contra dotless
    have four := ((ipv4Value_eq_some t v).mp literal).1
    rw [List.splitOn_eq_singleton dotless] at four
    cases four
  · intro colon
    rcases ipv4Value_units literal colon with digit | dot
    · exact absurd digit (by decide)
    · exact absurd dot (by decide)

/-- **What a side of an IPv6 literal is**: groups, and perhaps an IPv4 literal at the end of the last
side. -/
theorem expandIpv6Side_eq_some (mayEndInV4 : Bool) (tokens : List Text) (groups : List Nat) :
    expandIpv6Side mayEndInV4 tokens = some groups ↔
      ((∀ token ∈ tokens, ipv6Group token = true) ∧ groups = tokens.map parseHex) ∨
      (mayEndInV4 = true ∧ ∃ hex quad v, tokens = hex ++ [quad] ∧
        (∀ token ∈ hex, ipv6Group token = true) ∧ ipv4Value quad = some v ∧
        groups = hex.map parseHex ++ [v >>> 16, v &&& 0xFFFF]) := by
  induction tokens generalizing groups with
  | nil =>
    rw [expandIpv6Side, Option.some.injEq]
    constructor
    · rintro rfl
      exact .inl ⟨fun _ isIn => (not_mem_nil isIn).elim, rfl⟩
    · rintro (⟨-, rfl⟩ | ⟨-, hex, quad, -, same, -⟩)
      · rfl
      · exact absurd same.symm (by simp)
  | cons token rest ih =>
    rw [expandIpv6Side]
    by_cases dotted : unit '.' ∈ token
    · rw [if_pos (List.contains_iff_mem.mpr dotted)]
      have noGroup : ¬ ipv6Group token = true := fun group => (ipv6Group_plain group).1 dotted
      constructor
      · intro read
        split at read
        · cases read
        rename_i last
        simp only [Bool.or_eq_true, Bool.not_eq_true', decide_eq_true_eq, not_or, Bool.not_eq_false,
          ne_eq, not_not] at last
        obtain ⟨may, rfl⟩ := last
        cases value : ipv4Value token with
        | none =>
          rw [value] at read
          cases read
        | some v =>
          rw [value] at read
          cases read
          exact .inr ⟨may, [], token, v, rfl, fun _ isIn => (not_mem_nil isIn).elim, value, rfl⟩
      · rintro (⟨all, -⟩ | ⟨may, hex, quad, v, same, all, value, rfl⟩)
        · exact absurd (all token mem_cons_self) noGroup
        · cases hex with
          | nil =>
            obtain ⟨rfl, rfl⟩ := List.cons.inj same
            rw [if_neg (by simp [may]), value]
            rfl
          | cons first hex =>
            cases same
            exact absurd (all token mem_cons_self) noGroup
    · rw [if_neg fun isIn => dotted (List.contains_iff_mem.mp isIn)]
      by_cases group : ipv6Group token = true
      · rw [if_neg (by simp [group])]
        constructor
        · intro read
          cases later : expandIpv6Side mayEndInV4 rest with
          | none =>
            rw [later] at read
            cases read
          | some more =>
            rw [later] at read
            cases read
            rcases (ih more).mp later with ⟨all, rfl⟩ | ⟨may, hex, quad, v, rfl, all, value, rfl⟩
            · exact .inl ⟨forall_mem_cons.mpr ⟨group, all⟩, rfl⟩
            · exact .inr ⟨may, token :: hex, quad, v, rfl, forall_mem_cons.mpr ⟨group, all⟩,
                value, rfl⟩
        · rintro (⟨all, rfl⟩ | ⟨may, hex, quad, v, same, all, value, rfl⟩)
          · rw [(ih _).mpr (.inl ⟨(forall_mem_cons.mp all).2, rfl⟩)]
            rfl
          · cases hex with
            | nil =>
              cases same
              exact absurd (ipv4Value_dotted value).1 dotted
            | cons first hex =>
              cases same
              rw [(ih _).mpr (.inr ⟨may, hex, quad, v, rfl, (forall_mem_cons.mp all).2, value,
                rfl⟩)]
              rfl
      · rw [if_pos (by simp [group])]
        refine iff_of_false (by simp) ?_
        rintro (⟨all, -⟩ | ⟨may, hex, quad, v, same, all, value, -⟩)
        · exact group (all token mem_cons_self)
        · cases hex with
          | nil =>
            cases same
            exact absurd (ipv4Value_dotted value).1 dotted
          | cons first hex =>
            cases same
            exact group (all token mem_cons_self)

variable {mayEndInV4 : Bool} {groups : List Nat}

theorem expandIpv6Side_lt {tokens : List Text}
    (read : expandIpv6Side mayEndInV4 tokens = some groups) : ∀ group ∈ groups, group < 65536 := by
  have hexes : ∀ hex : List Text, (∀ token ∈ hex, ipv6Group token = true) →
      ∀ group ∈ hex.map parseHex, group < 65536 := by
    intro hex all group isIn
    obtain ⟨token, inside, rfl⟩ := mem_map.mp isIn
    exact parseHex_lt (all token inside)
  rcases (expandIpv6Side_eq_some _ _ _).mp read with ⟨all, rfl⟩ | ⟨-, hex, quad, v, -, all, value, rfl⟩
  · exact hexes tokens all
  · intro group isIn
    have fits := ipv4Value_lt value
    rcases mem_append.mp isIn with high | low
    · exact hexes hex all group high
    · simp only [mem_cons, not_mem_nil, or_false] at low
      rcases low with rfl | rfl
      · rw [Nat.shiftRight_eq_div_pow]
        omega
      · rw [show v &&& 0xFFFF = v % 2 ^ 16 from and_mask v 16]
        omega

/-- The units of the tokens of a side. -/
theorem expandIpv6Side_units {tokens : List Text}
    (read : expandIpv6Side mayEndInV4 tokens = some groups) :
    ∀ token ∈ tokens, ∀ c ∈ token, isHexUnit c = true ∨ c = unit '.' := by
  intro token isIn c inside
  rcases (expandIpv6Side_eq_some _ _ _).mp read with ⟨all, -⟩ | ⟨-, hex, quad, v, rfl, all, value, -⟩
  · exact .inl ((ipv6Group_units (all token isIn)).2 c inside)
  · rcases mem_append.mp isIn with among | last
    · exact .inl ((ipv6Group_units (all token among)).2 c inside)
    · rw [List.mem_singleton.mp last] at inside
      rcases ipv4Value_units value inside with digit | dot
      · exact .inl (by simp [isHexUnit, digit])
      · exact .inr dot

/-- The sides of a text between its double colons: one, or two. -/
inductive Ipv6Form where
  | whole (tokens : List Text)
  | compressed (before after : List Text)

def ipv6Form (t : Text) : Option Ipv6Form :=
  match split (text "::") t with
  | [whole] => some (.whole (sideTokens whole))
  | [before, after] => some (.compressed (sideTokens before) (sideTokens after))
  | _ => none

/-- The value of a literal by its sides. -/
def Ipv6Form.value : Ipv6Form → Option Nat
  | .whole tokens =>
    match expandIpv6Side true tokens with
    | none => none
    | some groups => if groups.length ≠ 8 then none else some (groupsTo128 groups)
  | .compressed before after =>
    match expandIpv6Side false before, expandIpv6Side true after with
    | some head, some tail =>
      if 7 < head.length + tail.length then none
      else some (groupsTo128 (head ++ List.replicate (8 - head.length - tail.length) 0 ++ tail))
    | _, _ => none

theorem sideTokens_eq (half : Text) : sideTokens half = if half = [] then [] else half.splitOn (unit ':') := by
  unfold sideTokens
  rw [show split (text ":") half = half.splitOn (unit ':') from split_unit (unit ':') half]

/-- A side is its tokens with colons between them. -/
theorem intercalate_sideTokens (half : Text) : [unit ':'].intercalate (sideTokens half) = half := by
  rw [sideTokens_eq]
  split
  · rename_i empty
    rw [empty]
    rfl
  · exact List.intercalate_splitOn _

theorem mem_intercalate {d : UInt16} {parts : List Text} (isIn : c ∈ [d].intercalate parts) :
    c = d ∨ ∃ part ∈ parts, c ∈ part := by
  induction parts with
  | nil => cases isIn
  | cons part parts ih =>
    cases parts with
    | nil =>
      rw [List.intercalate_singleton] at isIn
      exact .inr ⟨part, mem_cons_self, isIn⟩
    | cons next parts =>
      rw [List.intercalate_cons_cons, append_assoc] at isIn
      rcases mem_append.mp isIn with first | rest
      · exact .inr ⟨part, mem_cons_self, first⟩
      rcases mem_cons.mp rest with rfl | later
      · exact .inl rfl
      · refine (ih later).imp_right ?_
        rintro ⟨other, among, inside⟩
        exact ⟨other, List.mem_cons_of_mem _ among, inside⟩

theorem isLiteralUnit_iff (c : UInt16) :
    isLiteralUnit c = true ↔ isHexUnit c = true ∨ c = unit '.' ∨ c = unit ':' := by
  simp only [isLiteralUnit, isHexUnit, Bool.or_eq_true, beq_iff_eq]
  tauto

/-- The units of a side that is read. -/
theorem side_units {half : Text}
    (read : expandIpv6Side mayEndInV4 (sideTokens half) = some groups) (isIn : c ∈ half) :
    isLiteralUnit c = true := by
  rw [isLiteralUnit_iff]
  rw [← intercalate_sideTokens half] at isIn
  rcases mem_intercalate isIn with colon | ⟨token, among, inside⟩
  · exact .inr (.inr colon)
  · exact (expandIpv6Side_units read token among c inside).imp_right .inl

/-- The units of a text whose sides have a value. -/
theorem ipv6Form_units (valued : (ipv6Form t).bind Ipv6Form.value = some v) :
    t.all isLiteralUnit = true := by
  rw [all_eq_true]
  intro c isIn
  have joined := intercalate_split double_ne_nil t
  unfold ipv6Form at valued
  split at valued
  · rename_i whole parts
    rw [parts, List.intercalate_singleton] at joined
    subst joined
    unfold Ipv6Form.value at valued
    rw [Option.bind_some] at valued
    dsimp only at valued
    split at valued
    · cases valued
    · rename_i groups read
      exact side_units read isIn
  · rename_i before after parts
    rw [parts, List.intercalate_cons_cons, List.intercalate_singleton] at joined
    unfold Ipv6Form.value at valued
    rw [Option.bind_some] at valued
    dsimp only at valued
    split at valued
    · rename_i head tail readHead readTail
      rw [← joined, append_assoc] at isIn
      rcases mem_append.mp isIn with first | rest
      · exact side_units readHead first
      rcases mem_append.mp rest with colon | last
      · have table : (text "::").all isLiteralUnit = true := by decide
        exact all_eq_true.mp table c colon
      · exact side_units readTail last
    · cases valued
  · cases valued

/-- **The value of a literal is that of its sides**: the test of the units says nothing new. -/
theorem loweredIpv6Value_eq (t : Text) : loweredIpv6Value t = (ipv6Form t).bind Ipv6Form.value := by
  unfold loweredIpv6Value
  split
  · rename_i refused
    cases valued : (ipv6Form t).bind Ipv6Form.value with
    | none => rfl
    | some v =>
      have units := ipv6Form_units valued
      rw [units, Bool.not_true, Bool.or_false, decide_eq_true_eq] at refused
      rw [refused] at valued
      cases valued
  · unfold ipv6Form
    cases split (text "::") t with
    | nil => rfl
    | cons first parts =>
      cases parts with
      | nil => rfl
      | cons second parts =>
        cases parts with
        | nil => rfl
        | cons third parts => rfl

theorem groupsTo128_eq (small : ∀ group ∈ groups, group < 65536) :
    groupsTo128 groups = places 65536 groups := foldl_shift (k := 16) small

theorem loweredIpv6Value_lt (literal : loweredIpv6Value t = some v) : v < 2 ^ 128 := by
  have bound : ∀ groups : List Nat, (∀ group ∈ groups, group < 65536) → groups.length = 8 →
      groupsTo128 groups < 2 ^ 128 := by
    intro groups small eight
    have fits := places_lt (b := 65536) (by decide) small
    rwa [eight, ← groupsTo128_eq small] at fits
  rw [loweredIpv6Value_eq] at literal
  obtain ⟨form, -, valued⟩ := Option.bind_eq_some_iff.mp literal
  cases form with
  | whole tokens =>
    unfold Ipv6Form.value at valued
    dsimp only at valued
    split at valued
    · cases valued
    · rename_i groups read
      split at valued
      · cases valued
      · rename_i eight
        cases valued
        exact bound groups (expandIpv6Side_lt read) (not_not.mp eight)
  | compressed before after =>
    unfold Ipv6Form.value at valued
    dsimp only at valued
    split at valued
    · rename_i head tail readHead readTail
      split at valued
      · cases valued
      · rename_i fits
        cases valued
        refine bound _ (fun group isIn => ?_) ?_
        · rcases mem_append.mp isIn with high | low
          · rcases mem_append.mp high with first | zero
            · exact expandIpv6Side_lt readHead group first
            · rw [(List.mem_replicate.mp zero).2]
              decide
          · exact expandIpv6Side_lt readTail group low
        · rw [List.length_append, List.length_append, List.length_replicate]
          omega
    · cases valued

/-- A text without a double colon is one side. -/
theorem ipv6Form_whole (one : split (text "::") t = [t]) :
    ipv6Form t = some (.whole (sideTokens t)) := by
  unfold ipv6Form
  rw [one]

/-- **No text is a literal of both families.** -/
theorem loweredIpv6Value_dotted (literal : ipv4Value t = some v) : loweredIpv6Value t = none := by
  have colonless := (ipv4Value_dotted literal).2
  have one : split (text "::") t = [t] := by
    have plain := split_plain colonless []
    rwa [List.append_nil, split_nil, List.modifyHead_cons, List.append_nil] at plain
  have side : sideTokens t = [t] := by
    rw [sideTokens_eq, if_neg fun empty => ?_, List.splitOn_eq_singleton colonless]
    rw [empty] at literal
    cases literal
  rw [loweredIpv6Value_eq, ipv6Form_whole one, side]
  have dotted := (ipv4Value_dotted literal).1
  have read : expandIpv6Side true [t] = some [v >>> 16, v &&& 0xFFFF] := by
    rw [expandIpv6Side, if_pos (List.contains_iff_mem.mpr dotted), if_neg (by simp), literal]
  show Ipv6Form.value (.whole [t]) = none
  unfold Ipv6Form.value
  dsimp only
  rw [read]
  rfl

/-! ### Writing -/

/-- A word of a side. -/
def isWordOfSide (w : Text) : Prop := w ≠ [] ∧ unit ':' ∉ w

variable {words : List Text}

/-- **Words with a colon between them are in one side.** -/
theorem split_groups (all : ∀ w ∈ words, isWordOfSide w) (rest : Text) :
    split (text "::") ([unit ':'].intercalate words ++ rest) =
      (split (text "::") rest).modifyHead ([unit ':'].intercalate words ++ ·) := by
  induction words with
  | nil =>
    show split (text "::") rest = (split (text "::") rest).modifyHead ([] ++ ·)
    cases split (text "::") rest <;> rfl
  | cons w words ih =>
    have plain := (all w mem_cons_self).2
    cases words with
    | nil =>
      rw [List.intercalate_singleton]
      exact split_plain plain rest
    | cons next words =>
      have later := ih fun other isIn => all other (List.mem_cons_of_mem _ isIn)
      obtain ⟨written, nextPlain⟩ := all next (List.mem_cons_of_mem _ mem_cons_self)
      have single : ([unit ':'].intercalate (next :: words) ++ rest).head? ≠ some (unit ':') := by
        cases next with
        | nil => exact absurd rfl written
        | cons c next =>
          have first : ∃ more, [unit ':'].intercalate ((c :: next) :: words) ++ rest = c :: more := by
            cases words with
            | nil => exact ⟨_, rfl⟩
            | cons another words => exact ⟨_, rfl⟩
          obtain ⟨more, same⟩ := first
          rw [same, List.head?_cons]
          intro colon
          exact nextPlain (Option.some.inj colon ▸ mem_cons_self)
      rw [List.intercalate_cons_cons, append_assoc, append_assoc, split_plain plain,
        List.singleton_append, split_colon single, later]
      cases split (text "::") rest with
      | nil => rfl
      | cons first parts => simp

/-- The tokens of a side of words. -/
theorem sideTokens_intercalate (all : ∀ w ∈ words, isWordOfSide w) :
    sideTokens ([unit ':'].intercalate words) = words := by
  rw [sideTokens_eq]
  cases words with
  | nil => rfl
  | cons w words =>
    rw [if_neg, List.splitOn_intercalate _ (fun other isIn => (all other isIn).2) (List.cons_ne_nil _ _)]
    intro empty
    have some := (all w mem_cons_self).1
    cases words with
    | nil => exact some (by rwa [List.intercalate_singleton] at empty)
    | cons next words =>
      rw [List.intercalate_cons_cons] at empty
      simp at empty

theorem ipv6Form_groups (all : ∀ w ∈ words, isWordOfSide w) :
    ipv6Form ([unit ':'].intercalate words) = some (.whole words) := by
  have one := split_groups all []
  rw [List.append_nil, split_nil, List.modifyHead_cons, List.append_nil] at one
  rw [ipv6Form_whole one, sideTokens_intercalate all]

theorem isWordOfSide_group {w : Text} (group : ipv6Group w = true) : isWordOfSide w :=
  ⟨(ipv6Group_units group).1, (ipv6Group_plain group).2⟩

/-- **What is written of an IPv6 value is read back.** -/
theorem loweredIpv6Value_render (fits : v < 2 ^ 128) : loweredIpv6Value (renderV6 v) = some v := by
  have mask : ∀ n, n &&& 0xFFFF = n % 65536 := fun n => and_mask n 16
  let words := [7, 6, 5, 4, 3, 2, 1, 0].map fun i => padStart 4 (hexText (v / 2 ^ (16 * i) % 65536))
  have written : renderV6 v = [unit ':'].intercalate words := by
    simp only [renderV6, mask, Nat.shiftRight_eq_div_pow, words]
    rfl
  have groups : ∀ w ∈ words, ipv6Group w = true := by
    intro w isIn
    obtain ⟨i, -, rfl⟩ := mem_map.mp isIn
    exact ipv6Group_group (Nat.mod_lt _ (by decide))
  have read := (expandIpv6Side_eq_some true words _).mpr (.inl ⟨groups, rfl⟩)
  have values : words.map parseHex = [7, 6, 5, 4, 3, 2, 1, 0].map fun i => v / 2 ^ (16 * i) % 65536 := by
    rw [List.map_map]
    exact List.map_congr_left fun i _ => parseHex_group
  have number : groupsTo128 (words.map parseHex) = v := by
    rw [groupsTo128_eq (expandIpv6Side_lt read), values]
    exact (places_digits v 8).trans (Nat.mod_eq_of_lt fits)
  rw [loweredIpv6Value_eq, written, ipv6Form_groups fun w isIn => isWordOfSide_group (groups w isIn)]
  show Ipv6Form.value (.whole words) = some v
  unfold Ipv6Form.value
  dsimp only
  rw [read]
  dsimp only
  rw [number]
  rfl

/-- The units of what is written. -/
theorem renderV6_units (v : Nat) : (renderV6 v).all isLiteralUnit = true := by
  rw [all_eq_true]
  intro c isIn
  rw [isLiteralUnit_iff]
  rcases mem_intercalate (show c ∈ [unit ':'].intercalate _ from isIn) with colon | ⟨w, among, inside⟩
  · exact .inr (.inr colon)
  · obtain ⟨i, -, rfl⟩ := mem_map.mp among
    have small : (v >>> (16 * i)) &&& 0xFFFF < 65536 := by
      rw [show (v >>> (16 * i)) &&& 0xFFFF = (v >>> (16 * i)) % 2 ^ 16 from and_mask _ 16]
      exact Nat.mod_lt _ (by decide)
    exact .inl ((ipv6Group_units (ipv6Group_group small)).2 c inside)

end TianGong.SecGuard

/-
**Scope entries compare addresses.**

An address is an IPv4 value or an IPv6 value that maps none (`Address`); `addressOf` is the one a host
denotes. It is what entries compare: `canonicalHost` writes it, and a network looks at its high bits.

* `canonicalHost_eq`: a host that denotes an address is written as that address.
* `compileRule_exact`: an exact entry for a literal accepts the literals of its address.
* `scope_compares_addresses`: all of it.
-/

import Mathlib.Data.List.DropRight
import TianGong.SecGuard.Literals
import TianGong.SecGuard.ScopeRegistry
import TianGong.SecGuard.Sequencing

namespace TianGong.SecGuard

open List

/-! ### Addresses -/

inductive Address where
  | v4 (value : Nat)
  | v6 (value : Nat)
  deriving DecidableEq

/-- An IPv4 value has 32 bits, and an IPv6 value 128 and maps no IPv4 value. -/
def Address.Fits : Address → Prop
  | .v4 value => value < 2 ^ 32
  | .v6 value => value < 2 ^ 128 ∧ isMappedV4 value = false

/-- The address of an IPv6 value: the IPv4 one that it maps, or its own. -/
def Address.ofIpv6 (value : Nat) : Address :=
  if isMappedV4 value then .v4 (value &&& MAX_IPV4) else .v6 value

def Address.render : Address → Text
  | .v4 value => renderV4 value
  | .v6 value => renderV6 value

variable {t : Text} {v : Nat} (host : Text)

variable {base length : Text}

variable {address : Address} {value : Nat}

section Denotes

variable (L : LowerCase)

/-- The address a host denotes, if it is a literal. -/
def addressOf (host : Text) : Option Address :=
  match ipv4Value host with
  | some value => some (.v4 value)
  | none => (ipv6Value L host).map Address.ofIpv6

/-- What an IPv4-mapped value maps. -/
theorem isMappedV4_iff :
    isMappedV4 value = true ↔ ∃ v4 < 2 ^ 32, value = MAPPED_V6_PREFIX + v4 := by
  have prefixIs : MAPPED_V6_PREFIX = 0xFFFF * 2 ^ 32 := by decide
  rw [isMappedV4, beq_iff_eq, Nat.shiftRight_eq_div_pow, prefixIs]
  constructor
  · intro high
    exact ⟨value % 2 ^ 32, Nat.mod_lt _ (by decide), by omega⟩
  · rintro ⟨v4, small, rfl⟩
    omega

theorem mapped_or {v4 : Nat} (small : v4 < 2 ^ 32) : MAPPED_V6_PREFIX ||| v4 = MAPPED_V6_PREFIX + v4 :=
  (Nat.shiftLeft_add_eq_or_of_lt small 0xFFFF).symm

theorem mapped_and {v4 : Nat} (small : v4 < 2 ^ 32) : (MAPPED_V6_PREFIX + v4) &&& MAX_IPV4 = v4 := by
  have prefixIs : MAPPED_V6_PREFIX = 0xFFFF * 2 ^ 32 := by decide
  rw [show MAX_IPV4 = 2 ^ 32 - 1 by decide, and_mask, prefixIs]
  omega

theorem Address.ofIpv6_fits (small : value < 2 ^ 128) : (Address.ofIpv6 value).Fits := by
  unfold Address.ofIpv6
  split
  · rename_i mapped
    obtain ⟨v4, within, rfl⟩ := isMappedV4_iff.mp mapped
    rw [mapped_and within]
    exact within
  · rename_i plain
    exact ⟨small, Bool.eq_false_iff.mpr plain⟩

theorem addressOf_fits {host : Text} (literal : addressOf L host = some address) :
    address.Fits := by
  unfold addressOf at literal
  split at literal
  · rename_i value read
    cases literal
    exact ipv4Value_lt read
  · obtain ⟨value, read, rfl⟩ := Option.map_eq_some_iff.mp literal
    exact Address.ofIpv6_fits (loweredIpv6Value_lt read)

/-! ### Lower case -/

theorem literalUnit_plain {c : UInt16} (literal : isLiteralUnit c = true) :
    isAscii c = true ∧ lowerUnit c = c ∧ isSpace c = false := by
  rw [isLiteralUnit_iff] at literal
  rcases literal with hex | rfl | rfl
  · simp only [isHexUnit, isDigit, Bool.or_eq_true, Bool.and_eq_true, decide_eq_true_eq,
      UInt16.le_iff_toNat_le, UInt16.reduceToNat] at hex
    refine ⟨?_, ?_, ?_⟩
    · simp only [isAscii, decide_eq_true_eq, UInt16.lt_iff_toNat_lt, UInt16.reduceToNat]
      omega
    · rw [lowerUnit, if_neg]
      simp only [isUpper, Bool.and_eq_true, decide_eq_true_eq, UInt16.le_iff_toNat_le,
        UInt16.reduceToNat]
      omega
    · simp only [isSpace, Bool.or_eq_false_iff, Bool.and_eq_false_iff, decide_eq_false_iff_not,
        beq_eq_false_iff_ne, ne_eq, ← UInt16.toNat_inj, UInt16.le_iff_toNat_le, UInt16.reduceToNat]
      omega
  · decide
  · decide

/-- **A literal in lower case stays as it is.** -/
theorem lower_literal (literal : t.all isLiteralUnit = true) : L.lower t = t := by
  rw [all_eq_true] at literal
  rw [L.ascii t fun c isIn => (literalUnit_plain (literal c isIn)).1]
  exact (map_congr_left fun c isIn => (literalUnit_plain (literal c isIn)).2.1).trans (map_id _)

theorem trim_of_plain (plain : ∀ c ∈ t, isSpace c = false) : trim t = t := by
  have stays : ∀ s : Text, (∀ c ∈ s, isSpace c = false) → s.dropWhile isSpace = s := by
    intro s units
    cases s with
    | nil => rfl
    | cons c s => rw [dropWhile_cons_of_neg (by rw [units c mem_cons_self]; decide)]
  rw [trim, stays t plain, stays t.reverse fun c isIn => plain c (List.mem_reverse.mp isIn),
    reverse_reverse]

theorem trim_literal (literal : t.all isLiteralUnit = true) : trim t = t :=
  trim_of_plain fun c isIn => (literalUnit_plain (List.all_eq_true.mp literal c isIn)).2.2

theorem ipv4Value_literal (read : ipv4Value t = some v) : t.all isLiteralUnit = true := by
  rw [all_eq_true]
  intro c isIn
  rw [isLiteralUnit_iff]
  rcases ipv4Value_units read isIn with digit | dot
  · exact .inl (by simp [isHexUnit, digit])
  · exact .inr (.inl dot)

theorem loweredIpv6Value_literal (read : loweredIpv6Value t = some v) :
    t.all isLiteralUnit = true :=
  ipv6Form_units ((loweredIpv6Value_eq t).symm.trans read)

theorem Address.render_literal (fits : address.Fits) : address.render.all isLiteralUnit = true := by
  cases address with
  | v4 value => exact ipv4Value_literal (ipv4Value_render fits)
  | v6 value => exact renderV6_units value

/-- **An address that is written is denoted.** -/
theorem addressOf_render (fits : address.Fits) : addressOf L address.render = some address := by
  have lowered := lower_literal L (Address.render_literal fits)
  unfold addressOf ipv6Value
  rw [lowered]
  cases address with
  | v4 value => rw [show ipv4Value (Address.v4 value).render = _ from ipv4Value_render fits]
  | v6 value =>
    have read : loweredIpv6Value (Address.v6 value).render = some value := loweredIpv6Value_render fits.1
    have other : ipv4Value (Address.v6 value).render = none := by
      cases found : ipv4Value (Address.v6 value).render with
      | none => rfl
      | some v =>
        rw [loweredIpv6Value_dotted found] at read
        cases read
    rw [other, read]
    show some (Address.ofIpv6 value) = _
    rw [Address.ofIpv6, if_neg (by rw [fits.2]; decide)]

/-- A literal of the one family is none of the other, in any case. -/
theorem ipv6Value_dotted (literal : ipv4Value t = some v) : ipv6Value L t = none := by
  rw [ipv6Value, lower_literal L (ipv4Value_literal literal)]
  exact loweredIpv6Value_dotted literal

/-- The IPv4 value of an address. -/
def Address.value4 : Address → Option Nat
  | .v4 value => some value
  | .v6 _ => none

/-- An address in 128 bits, an IPv4 one mapped. -/
def Address.value6 : Address → Nat
  | .v4 value => MAPPED_V6_PREFIX + value
  | .v6 value => value

theorem Address.ofIpv6_value6 (value : Nat) : (Address.ofIpv6 value).value6 = value := by
  unfold Address.ofIpv6
  split
  · rename_i mapped
    obtain ⟨v4, small, rfl⟩ := isMappedV4_iff.mp mapped
    rw [mapped_and small]
    rfl
  · rfl

theorem hostToV4_eq : hostToV4 L host = (addressOf L host).bind Address.value4 := by
  unfold hostToV4 addressOf
  cases ipv4Value host with
  | some value => rfl
  | none =>
    cases ipv6Value L host with
    | none => rfl
    | some value =>
      show (if isMappedV4 value then some (value &&& MAX_IPV4) else none) =
        (Address.ofIpv6 value).value4
      unfold Address.ofIpv6
      split <;> rfl

theorem hostToV6_eq : hostToV6 L host = (addressOf L host).map Address.value6 := by
  unfold hostToV6 addressOf
  cases literal : ipv4Value host with
  | some value =>
    rw [ipv6Value_dotted L literal]
    exact congrArg some (mapped_or (ipv4Value_lt literal))
  | none =>
    cases ipv6Value L host with
    | none => rfl
    | some value => exact congrArg some (Address.ofIpv6_value6 value).symm

/-! ### Spellings -/

theorem canonicalHost_eq :
    canonicalHost L host = match addressOf L (L.lower (trim host)) with
      | some address => address.render
      | none => L.lower (trim host) := by
  unfold canonicalHost addressOf
  dsimp only
  cases ipv4Value (L.lower (trim host)) with
  | some value => rfl
  | none =>
    cases ipv6Value L (L.lower (trim host)) with
    | none => rfl
    | some value =>
      show (if isMappedV4 value then renderV4 (value &&& MAX_IPV4) else renderV6 value) =
        (Address.ofIpv6 value).render
      unfold Address.ofIpv6
      split <;> rfl

theorem trim_trim (t : Text) : trim (trim t) = trim t := by
  have asDrops : ∀ s : Text, trim s = (s.dropWhile isSpace).rdropWhile isSpace := fun s => rfl
  have front : (trim t).dropWhile isSpace = trim t := by
    rw [asDrops]
    have start := rdropWhile_prefix isSpace (l := t.dropWhile isSpace)
    cases trimmed : (t.dropWhile isSpace).rdropWhile isSpace with
    | nil => rfl
    | cons c rest =>
      rw [trimmed] at start
      obtain ⟨more, same⟩ := start
      have once := dropWhile_idempotent (p := isSpace) (l := t)
      rw [← same, cons_append] at once
      refine dropWhile_cons_of_neg fun space => ?_
      rw [dropWhile_cons_of_pos space] at once
      have lengths := congrArg List.length once
      have shorter := (dropWhile_suffix (p := isSpace) (l := rest ++ more)).length_le
      rw [length_cons] at lengths
      omega
  rw [asDrops (trim t), front, asDrops, rdropWhile_idempotent]

theorem render_lowered (fits : address.Fits) : L.lower (trim address.render) = address.render := by
  rw [trim_literal (Address.render_literal fits), lower_literal L (Address.render_literal fits)]

theorem isHostToken_literal (units : t.all isLiteralUnit = true)
    (literal : addressOf L t = some address) : isHostToken L t = true := by
  rw [all_eq_true] at units
  have slashless : unit '/' ∉ t := fun isIn => absurd (units _ isIn) (by decide)
  have some : t ≠ [] := by
    rintro rfl
    have nothing : addressOf L [] = none := by
      rw [addressOf, ipv6Value, lower_literal L (by decide)]
      decide
    rw [nothing] at literal
    cases literal
  have schemeless : includes t (text "://") = false := by
    rw [Bool.eq_false_iff]
    intro found
    exact slashless (((includes_iff _ _).mp found).subset (by decide))
  have blankless : t.any isSpace = false := by
    rw [any_eq_false]
    exact fun c isIn => Bool.eq_false_iff.mp (literalUnit_plain (units c isIn)).2.2
  have read : ((ipv4Value t).isSome || (ipv6Value L t).isSome) = true := by
    unfold addressOf at literal
    split at literal
    · rename_i value found
      rw [found]
      rfl
    · obtain ⟨value, found, -⟩ := Option.map_eq_some_iff.mp literal
      rw [found, Option.isSome_some, Bool.or_true]
  unfold isHostToken
  rw [if_neg, if_pos read]
  rw [schemeless, blankless, Bool.eq_false_iff.mpr fun isIn => slashless (List.contains_iff_mem.mp isIn)]
  simpa using some

section Case

variable (trims : ∀ t, L.lower (trim t) = trim (L.lower t))
include trims

/-- **A literal denotes its address in any case, blanks around it or not.** -/
theorem addressOf_lowered (literal : addressOf L t = some address) :
    (L.lower (trim t)).all isLiteralUnit = true ∧ addressOf L (L.lower (trim t)) = some address := by
  unfold addressOf at literal
  split at literal
  · rename_i value read
    have units := ipv4Value_literal read
    rw [trim_literal units, lower_literal L units]
    refine ⟨units, ?_⟩
    rw [addressOf, read]
    exact literal
  · obtain ⟨value, read, rfl⟩ := Option.map_eq_some_iff.mp literal
    have units := loweredIpv6Value_literal read
    have other : ipv4Value (L.lower t) = none := by
      cases found : ipv4Value (L.lower t) with
      | none => rfl
      | some v =>
        rw [ipv6Value, loweredIpv6Value_dotted found] at read
        cases read
    rw [trims, trim_literal units]
    refine ⟨units, ?_⟩
    rw [addressOf, other, ipv6Value, lower_literal L units]
    exact congrArg (Option.map Address.ofIpv6) read

theorem canonicalHost_literal (literal : addressOf L t = some address) :
    canonicalHost L t = address.render := by
  rw [canonicalHost_eq, (addressOf_lowered L trims literal).2]

/-- **A spelling is canonical once.** -/
theorem canonicalHost_canonical (idempotent : ∀ t, L.lower (L.lower t) = L.lower t) (host : Text) :
    canonicalHost L (canonicalHost L host) = canonicalHost L host := by
  cases denoted : addressOf L (L.lower (trim host)) with
  | some address =>
    have fits := addressOf_fits L denoted
    have once : canonicalHost L host = address.render := by rw [canonicalHost_eq, denoted]
    rw [once, canonicalHost_eq, render_lowered L fits, addressOf_render L fits]
  | none =>
    have once : canonicalHost L host = L.lower (trim host) := by rw [canonicalHost_eq, denoted]
    have again : L.lower (trim (L.lower (trim host))) = L.lower (trim host) := by
      rw [trims, idempotent, ← trims, trim_trim]
    rw [once, canonicalHost_eq, again, denoted]

/-- **An exact entry for a literal** accepts the literals of its address, and no others. -/
theorem compileRule_exact {literal other : Text} {a b : Address} (effect : TgSecScopeEffect)
    (enabled : Bool) (first : addressOf L literal = some a) (second : addressOf L other = some b) :
    ∃ accepts, compileRule L ⟨.exactHost, literal, effect, enabled⟩ = .ok accepts ∧
      (accepts other = true ↔ a = b) := by
  obtain ⟨units, lowered⟩ := addressOf_lowered L trims first
  refine ⟨fun host => canonicalHost L host == canonicalHost L (L.lower (trim literal)), ?_, ?_⟩
  · unfold compileRule
    dsimp only
    rw [if_neg]
    rw [isHostToken_literal L units lowered]
    decide
  · rw [beq_iff_eq, canonicalHost_literal L trims second, canonicalHost_literal L trims lowered]
    constructor
    · intro same
      have read := addressOf_render L (addressOf_fits L second)
      rw [same, addressOf_render L (addressOf_fits L first)] at read
      exact Option.some.inj read
    · rintro rfl
      rfl

end Case

/-! ### Networks -/

theorem lastIndexOf_append {c : UInt16} (before : Text) {after : Text} (last : c ∉ after) :
    lastIndexOf c (before ++ c :: after) = some before.length := by
  have behind : ((before ++ c :: after).reverse.takeWhile (· ≠ c)) = after.reverse := by
    rw [reverse_append, reverse_cons, append_assoc, takeWhile_append_of_pos]
    · simp
    · intro d isIn
      have other : d ≠ c := fun same => last (same ▸ List.mem_reverse.mp isIn)
      simpa using other
  rw [lastIndexOf, if_pos (by simp), behind, length_reverse, length_append,
    length_cons]
  congr 1
  omega

/-- **A network of an address and a length is read**, when the length fits. -/
theorem parseCidr_ok (kind : TgSecScopeKind) {bits : Nat} {parse : Text → Option Nat}
    (read : parse base = some value) (written : base ≠ []) (digits : octet length = true)
    (fits : number length ≤ bits) :
    parseCidr kind (base ++ unit '/' :: length) bits parse = .ok (value, number length) := by
  have all := digits
  simp only [octet, Bool.and_eq_true, decide_eq_true_eq, all_eq_true] at all
  have slashless : unit '/' ∉ length := fun isIn => absurd (all.2 _ isIn) (by decide)
  have some : 0 < base.length := List.length_pos_iff.mpr written
  unfold parseCidr
  dsimp only
  rw [lastIndexOf_append base slashless]
  dsimp only
  have inside : (base.length = 0 || base.length = (base ++ unit '/' :: length).length - 1) = false := by
    rw [length_append, length_cons, Bool.or_eq_false_iff, decide_eq_false_iff_not,
      decide_eq_false_iff_not]
    omega
  rw [if_neg (by rw [inside]; decide), take_left, read]
  dsimp only
  have rest : (base ++ unit '/' :: length).drop (base.length + 1) = length := by
    rw [List.drop_append, drop_of_length_le (by omega)]
    simp
  rw [rest, if_neg (by rw [digits]; decide), if_neg (by omega)]

/-- A pattern of a network is lowered already. -/
theorem lower_network (literal : base.all isLiteralUnit = true) (digits : octet length = true) :
    L.lower (trim (base ++ unit '/' :: length)) = base ++ unit '/' :: length := by
  simp only [octet, Bool.and_eq_true, all_eq_true] at digits
  rw [all_eq_true] at literal
  have units : ∀ c ∈ base ++ unit '/' :: length,
      isAscii c = true ∧ lowerUnit c = c ∧ isSpace c = false := by
    intro c isIn
    rcases List.mem_append.mp isIn with first | rest
    · exact literalUnit_plain (literal c first)
    rcases List.mem_cons.mp rest with rfl | last
    · decide
    · exact literalUnit_plain ((isLiteralUnit_iff c).mpr (.inl (by simp [isHexUnit, digits.2 c last])))
  rw [trim_of_plain fun c isIn => (units c isIn).2.2, L.ascii _ fun c isIn => (units c isIn).1]
  exact (map_congr_left fun c isIn => (units c isIn).2.1).trans (map_id _)

/-- A host in the network of an IPv4 value: the first bits of its address are those of the value. -/
def InNetwork4 (length value : Nat) (host : Text) : Prop :=
  ∃ v4, addressOf L host = some (.v4 v4) ∧ ∀ i < length, v4.testBit (31 - i) = value.testBit (31 - i)

/-- Values of 32 bits shifted down agree when their first bits do. -/
theorem first_bits {m n length : Nat} (fitsM : m < 2 ^ 32) (fitsN : n < 2 ^ 32) (short : length ≤ 32) :
    m >>> (32 - length) = n >>> (32 - length) ↔
      ∀ i < length, m.testBit (31 - i) = n.testBit (31 - i) := by
  rw [Lib.shiftRight_eq_iff]
  constructor
  · exact fun high i within => high (31 - i) (by omega)
  · intro first i high
    by_cases inside : i < 32
    · have place := first (31 - i) (by omega)
      rwa [show 31 - (31 - i) = i by omega] at place
    · have beyond : 2 ^ 32 ≤ 2 ^ i := Nat.pow_le_pow_right (by decide) (by omega)
      rw [Nat.testBit_lt_two_pow (fitsM.trans_le beyond), Nat.testBit_lt_two_pow (fitsN.trans_le beyond)]

theorem inNetwork_iff {m n length bits : Nat} (fitsM : m < 2 ^ bits) (fitsN : n < 2 ^ bits) :
    inNetwork m n length bits = true ↔ m >>> (bits - length) = n >>> (bits - length) := by
  unfold inNetwork
  split
  · rename_i zero
    rw [zero, Nat.sub_zero, Nat.shiftRight_eq_div_pow, Nat.shiftRight_eq_div_pow,
      Nat.div_eq_of_lt fitsM, Nat.div_eq_of_lt fitsN]
    simp
  · exact beq_iff_eq

/-- **The hosts of an IPv4 network.** -/
theorem compileRule_cidr4 (effect : TgSecScopeEffect) (enabled : Bool)
    (read : ipv4Value base = some value) (digits : octet length = true)
    (short : number length ≤ 32) :
    ∃ accepts, compileRule L ⟨.cidr4, base ++ unit '/' :: length, effect, enabled⟩ = .ok accepts ∧
      ∀ host, accepts host = true ↔ InNetwork4 L (number length) value host := by
  have written : base ≠ [] := by
    rintro rfl
    cases read
  refine ⟨fun host => (hostToV4 L host).any fun v4 => inNetwork v4 value (number length) 32, ?_, ?_⟩
  · unfold compileRule
    dsimp only
    rw [lower_network L (ipv4Value_literal read) digits,
      parseCidr_ok .cidr4 read written digits short]
    rfl
  · intro host
    dsimp only
    rw [hostToV4_eq]
    unfold InNetwork4
    cases denoted : addressOf L host with
    | none => simp
    | some address =>
      have fits := addressOf_fits L denoted
      cases address with
      | v6 other => simp [Address.value4]
      | v4 v4 =>
        rw [Option.bind_some, Address.value4, Option.any_some, inNetwork_iff fits (ipv4Value_lt read),
          first_bits fits (ipv4Value_lt read) short]
        simp

/-- The mapped spelling of an IPv4 literal. -/
def mappedText (base : Text) : Text := text "::ffff:" ++ base

theorem loweredIpv6Value_mapped (read : ipv4Value base = some value) :
    loweredIpv6Value (mappedText base) = some (MAPPED_V6_PREFIX + value) := by
  have fits := ipv4Value_lt read
  have words : ∀ w ∈ [text "ffff", base], isWordOfSide w := by
    simp only [forall_mem_cons, not_mem_nil, false_imp_iff, implies_true, and_true]
    refine ⟨⟨by decide, by decide⟩, ?_, (ipv4Value_dotted read).2⟩
    rintro rfl
    cases read
  have one := split_groups words []
  rw [append_nil, split_nil, modifyHead_cons, append_nil] at one
  have form : ipv6Form (mappedText base) = some (.compressed [] [text "ffff", base]) := by
    have side := sideTokens_intercalate words
    have sides : split (text "::") (mappedText base) =
        [[], [unit ':'].intercalate [text "ffff", base]] := by
      have spelled : mappedText base =
          unit ':' :: unit ':' :: [unit ':'].intercalate [text "ffff", base] := by
        rw [intercalate_cons_cons, intercalate_singleton]
        rfl
      rw [spelled, split_run, one]
    unfold ipv6Form
    rw [sides]
    dsimp only
    rw [side]
    rfl
  have tail : expandIpv6Side true [text "ffff", base] =
      some [0xFFFF, value >>> 16, value &&& 0xFFFF] := by
    refine (expandIpv6Side_eq_some _ _ _).mpr (.inr ⟨rfl, [text "ffff"], base, value, rfl, ?_, read, ?_⟩)
    · rintro token isIn
      rw [List.mem_singleton.mp isIn]
      decide
    · rfl
  have groups : ∀ group ∈ [0, 0, 0, 0, 0, 0xFFFF, value >>> 16, value &&& 0xFFFF], group < 65536 := by
    have small := expandIpv6Side_lt tail
    simp only [forall_mem_cons, not_mem_nil, false_imp_iff, implies_true, and_true] at small ⊢
    omega
  rw [loweredIpv6Value_eq, form, Option.bind_some]
  unfold Ipv6Form.value
  dsimp only
  rw [tail]
  show some (groupsTo128 [0, 0, 0, 0, 0, 0xFFFF, value >>> 16, value &&& 0xFFFF]) = _
  rw [groupsTo128_eq groups, Nat.shiftRight_eq_div_pow,
    show value &&& 0xFFFF = value % 2 ^ 16 from and_mask value 16]
  simp only [Lib.places_cons, Lib.places_nil, length_cons, length_nil]
  have prefixIs : MAPPED_V6_PREFIX = 0xFFFF * 2 ^ 32 := by decide
  rw [prefixIs]
  congr 1
  omega

/-- A value in 128 bits shares the mapped bits and some more exactly when it maps an IPv4 value that
shares these. -/
theorem mapped_shift {m n length : Nat} (fits : n < 2 ^ 32) (short : length ≤ 32) :
    m >>> (32 - length) = (MAPPED_V6_PREFIX + n) >>> (32 - length) ↔
      ∃ v4 < 2 ^ 32, m = MAPPED_V6_PREFIX + v4 ∧ v4 >>> (32 - length) = n >>> (32 - length) := by
  have split : 2 ^ 32 = 2 ^ length * 2 ^ (32 - length) := by
    rw [← pow_add, Nat.add_sub_cancel' short]
  have some : 0 < 2 ^ (32 - length) := Nat.two_pow_pos _
  have prefixIs : MAPPED_V6_PREFIX = 0xFFFF * 2 ^ length * 2 ^ (32 - length) := by
    rw [Nat.mul_assoc, ← split]
    decide
  have shifted : ∀ v4, (MAPPED_V6_PREFIX + v4) >>> (32 - length) =
      0xFFFF * 2 ^ length + v4 >>> (32 - length) := by
    intro v4
    rw [prefixIs, Nat.shiftRight_eq_div_pow, Nat.shiftRight_eq_div_pow, Nat.add_comm,
      Nat.add_mul_div_right _ _ some, Nat.add_comm]
  constructor
  · intro same
    have high : isMappedV4 m = true := by
      have further : m >>> (32 - length) >>> length =
          (MAPPED_V6_PREFIX + n) >>> (32 - length) >>> length := by rw [same]
      rw [← Nat.shiftRight_add, ← Nat.shiftRight_add, Nat.sub_add_cancel short] at further
      rw [isMappedV4, further]
      exact isMappedV4_iff.mpr ⟨n, fits, rfl⟩
    obtain ⟨v4, small, rfl⟩ := isMappedV4_iff.mp high
    rw [shifted, shifted] at same
    exact ⟨v4, small, rfl, Nat.add_left_cancel same⟩
  · rintro ⟨v4, -, rfl, same⟩
    rw [shifted, shifted, same]

/-- **The hosts of a mapped network** are those of the IPv4 network. -/
theorem compileRule_cidr6 {short : Nat} (effect : TgSecScopeEffect) (enabled : Bool)
    (read : ipv4Value base = some value) (digits : octet length = true)
    (long : number length = 96 + short) (within : short ≤ 32) :
    ∃ accepts, compileRule L ⟨.cidr6, mappedText base ++ unit '/' :: length, effect, enabled⟩ =
        .ok accepts ∧ ∀ host, accepts host = true ↔ InNetwork4 L short value host := by
  have fits := ipv4Value_lt read
  have lowered := loweredIpv6Value_mapped read
  have literal := loweredIpv6Value_literal lowered
  have parsed : ipv6Value L (mappedText base) = some (MAPPED_V6_PREFIX + value) := by
    rw [ipv6Value, lower_literal L literal, lowered]
  refine ⟨fun host => (hostToV6 L host).any fun v6 =>
    inNetwork v6 (MAPPED_V6_PREFIX + value) (number length) 128, ?_, ?_⟩
  · unfold compileRule
    dsimp only
    rw [lower_network L literal digits,
      parseCidr_ok .cidr6 parsed (cons_ne_nil _ _) digits (by omega)]
    rfl
  · intro host
    dsimp only
    rw [hostToV6_eq]
    unfold InNetwork4
    cases denoted : addressOf L host with
    | none => simp
    | some address =>
      have hostFits := addressOf_fits L denoted
      have inner : address.value6 < 2 ^ 128 := by
        have prefixIs : MAPPED_V6_PREFIX = 0xFFFF * 2 ^ 32 := by decide
        cases address with
        | v4 v4 =>
          have small : v4 < 2 ^ 32 := hostFits
          rw [Address.value6, prefixIs]
          omega
        | v6 v6 => exact hostFits.1
      rw [Option.map_some, Option.any_some, inNetwork_iff inner (loweredIpv6Value_lt lowered), long,
        show 128 - (96 + short) = 32 - short by omega, mapped_shift fits within]
      constructor
      · rintro ⟨v4, small, same, shares⟩
        refine ⟨v4, ?_, (first_bits small fits within).mp shares⟩
        cases address with
        | v4 other =>
          rw [Address.value6] at same
          rw [Nat.add_left_cancel same]
        | v6 other =>
          rw [Address.value6] at same
          have plain := hostFits.2
          rw [same, isMappedV4_iff.mpr ⟨v4, small, rfl⟩] at plain
          cases plain
      · rintro ⟨v4, same, shares⟩
        obtain rfl := Option.some.inj same
        exact ⟨v4, hostFits, rfl, (first_bits hostFits fits within).mpr shares⟩

/-- **Scope entries compare addresses, not spellings.** What is written of a value is read back; a
canonical spelling is one; an exact entry for a literal accepts another exactly when both denote one
address; a network of an IPv4 address and the network of its mapped form accept the hosts whose
address shares the first bits. Lower-casing keeps blanks and happens once. -/
theorem scope_compares_addresses (trims : ∀ t, L.lower (trim t) = trim (L.lower t))
    (idempotent : ∀ t, L.lower (L.lower t) = L.lower t) :
    (∀ t v, ipv4Value t = some v → ipv4Value (renderV4 v) = some v) ∧
    (∀ t v, ipv4Value t = some v ∨ ipv6Value L t = some v → ipv6Value L (renderV6 v) = some v) ∧
    (∀ host, canonicalHost L (canonicalHost L host) = canonicalHost L host) ∧
    (∀ literal other a b effect enabled, addressOf L literal = some a → addressOf L other = some b →
      ∃ accepts, compileRule L ⟨.exactHost, literal, effect, enabled⟩ = .ok accepts ∧
        (accepts other = true ↔ a = b)) ∧
    ∀ base value length wide effect enabled, ipv4Value base = some value →
      octet length = true → number length ≤ 32 →
      octet wide = true → number wide = 96 + number length →
      ∃ accepts acceptsMapped,
        compileRule L ⟨.cidr4, base ++ unit '/' :: length, effect, enabled⟩ = .ok accepts ∧
        compileRule L ⟨.cidr6, mappedText base ++ unit '/' :: wide, effect, enabled⟩ =
          .ok acceptsMapped ∧
        ∀ host, (accepts host = true ↔ InNetwork4 L (number length) value host) ∧
          acceptsMapped host = accepts host := by
  refine ⟨?_, ?_, canonicalHost_canonical L trims idempotent, ?_, ?_⟩
  · exact fun t v read => ipv4Value_render (ipv4Value_lt read)
  · intro t v read
    have fits : v < 2 ^ 128 := by
      rcases read with first | second
      · exact (ipv4Value_lt first).trans (by decide)
      · exact loweredIpv6Value_lt second
    rw [ipv6Value, lower_literal L (renderV6_units v)]
    exact loweredIpv6Value_render fits
  · exact fun literal other a b effect enabled first second =>
      compileRule_exact L trims effect enabled first second
  · intro base value length wide effect enabled read digits short wideDigits long
    obtain ⟨accepts, compiled, hosts⟩ := compileRule_cidr4 L effect enabled read digits short
    obtain ⟨mapped, compiledMapped, mappedHosts⟩ :=
      compileRule_cidr6 L effect enabled read wideDigits long short
    refine ⟨accepts, mapped, compiled, compiledMapped, fun host => ⟨hosts host, ?_⟩⟩
    rw [Bool.eq_iff_iff, hosts, mappedHosts]

end Denotes

/-! Lower-casing ASCII keeps blanks and happens once. -/

theorem trim_ascii (t : Text) : asciiLowerCase.lower (trim t) = trim (asciiLowerCase.lower t) := by
  have blanks : isSpace ∘ lowerUnit = isSpace := funext isSpace_lowerUnit
  show (trim t).map lowerUnit = trim (t.map lowerUnit)
  rw [trim, trim, dropWhile_map, blanks, ← map_reverse, dropWhile_map, blanks,
    map_reverse]

theorem lower_ascii_lower (t : Text) :
    asciiLowerCase.lower (asciiLowerCase.lower t) = asciiLowerCase.lower t := by
  show (t.map lowerUnit).map lowerUnit = t.map lowerUnit
  rw [map_map]
  exact map_congr_left fun c _ => lowerUnit_lowerUnit c

theorem scope_compares_spellings :
    (∃ accepts, compileRule asciiLowerCase ⟨.exactHost, text "2001:DB8::1", .allow, true⟩ = .ok accepts ∧
      (accepts (text "2001:db8:0:0::0001") = true ↔
        Address.v6 0x20010DB8000000000000000000000001 =
          Address.v6 0x20010DB8000000000000000000000001)) ∧
    ∃ accepts acceptsMapped,
      compileRule asciiLowerCase ⟨.cidr4, text "10.0.0.0/8", .allow, true⟩ = .ok accepts ∧
      compileRule asciiLowerCase ⟨.cidr6, text "::ffff:10.0.0.0/104", .allow, true⟩ =
        .ok acceptsMapped ∧
      ∀ host, (accepts host = true ↔ InNetwork4 asciiLowerCase (number (text "8")) 0x0A000000 host) ∧
        acceptsMapped host = accepts host :=
  ⟨(scope_compares_addresses asciiLowerCase trim_ascii lower_ascii_lower).2.2.2.1
      (text "2001:DB8::1") (text "2001:db8:0:0::0001") _ _ .allow true (by decide) (by decide),
    (scope_compares_addresses asciiLowerCase trim_ascii lower_ascii_lower).2.2.2.2
      (text "10.0.0.0") 0x0A000000 (text "8") (text "104") .allow true (by decide) (by decide)
      (by decide) (by decide) (by decide)⟩

end TianGong.SecGuard

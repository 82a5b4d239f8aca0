/-
**Which spellings of an address self-protection sees.**

The rule of self-protection looks at the text of a host, the scope registry at its address. `PlainlySpelled`
are the spellings the rule sees.

* `loopbackV4_iff`, `loopbackV6_iff`, `interfacePattern_iff`: what the patterns match of a literal.
* `selfProtected_iff`: so a protected address is denied, or asked about, exactly then.
-/

import TianGong.SecGuard.ScopeAddresses
import TianGong.SecGuard.TargetLiterals

namespace TianGong.SecGuard

open List

/-! ### Searching -/

/-- **Where a pattern matches.** -/
theorem matchesAnywhere_iff (anchored : Option UInt16 → Text → Bool) (before : Option UInt16) (t : Text) :
    matchesAnywhere anchored before t = true ↔
      ∃ front rest, t = front ++ rest ∧
        anchored (if front = [] then before else front.getLast?) rest = true := by
  induction t generalizing before with
  | nil =>
    constructor
    · exact fun here => ⟨[], [], rfl, here⟩
    · rintro ⟨front, rest, same, here⟩
      obtain ⟨rfl, rfl⟩ := List.append_eq_nil_iff.mp same.symm
      exact here
  | cons c t ih =>
    rw [matchesAnywhere, Bool.or_eq_true, ih]
    constructor
    · rintro (here | ⟨front, rest, rfl, there⟩)
      · exact ⟨[], c :: t, rfl, here⟩
      · refine ⟨c :: front, rest, rfl, ?_⟩
        rw [if_neg (cons_ne_nil _ _)]
        cases front with
        | nil => exact there
        | cons d front => exact there
    · rintro ⟨front, rest, same, matched⟩
      cases front with
      | nil =>
        rw [nil_append] at same
        subst same
        exact .inl matched
      | cons d front =>
        cases same
        refine .inr ⟨front, rest, rfl, ?_⟩
        rw [if_neg (cons_ne_nil _ _)] at matched
        cases front with
        | nil => exact matched
        | cons e front => exact matched

/-- From the start of a text. -/
theorem matchesAnywhere_start (anchored : Option UInt16 → Text → Bool) (t : Text) :
    matchesAnywhere anchored none t = true ↔
      ∃ front rest, t = front ++ rest ∧ anchored front.getLast? rest = true := by
  rw [matchesAnywhere_iff]
  refine exists_congr fun front => exists_congr fun rest => and_congr_right fun _ => ?_
  cases front with
  | nil => exact Iff.rfl
  | cons c front => rw [if_neg (cons_ne_nil _ _)]

/-! ### The dotted quad of a literal -/

/-- Groups with a colon behind each. -/
def ledBy (groups : List Text) : Text := groups.flatMap (· ++ [unit ':'])

theorem joined_quad (groups : List Text) (quad : Text) :
    joined (groups ++ [quad]) = ledBy groups ++ quad := by
  induction groups with
  | nil => exact intercalate_singleton
  | cons group groups ih =>
    have some : groups ++ [quad] ≠ [] := by simp
    rw [joined, cons_append, intercalate_cons_of_ne_nil some, ← joined, ih, ledBy, ledBy,
      flatMap_cons]
    simp only [append_assoc]

/-- What is before a dotted quad: nothing, or a text that ends in a colon. -/
def LeadsQuad (front : Text) : Prop := unit '.' ∉ front ∧ (front = [] ∨ front.getLast? = some (unit ':'))

theorem dotless_joined {groups : List Text} (all : AreGroups groups) : unit '.' ∉ joined groups := by
  intro isIn
  rcases mem_intercalate isIn with colon | ⟨group, among, inside⟩
  · exact absurd colon (by decide)
  · exact (ipv6Group_plain (all group among)).1 inside

theorem leadsQuad_ledBy {groups : List Text} (all : AreGroups groups) : LeadsQuad (ledBy groups) := by
  constructor
  · intro isIn
    obtain ⟨group, among, inside⟩ := List.mem_flatMap.mp isIn
    rcases mem_append.mp inside with own | colon
    · exact (ipv6Group_plain (all group among)).1 own
    · exact absurd (List.mem_singleton.mp colon) (by decide)
  · rcases eq_nil_or_concat groups with rfl | ⟨others, last, rfl⟩
    · exact .inl rfl
    · right
      rw [ledBy, concat_eq_append, flatMap_append, flatMap_cons, flatMap_nil,
        append_nil, ← append_assoc, List.getLast?_concat]

theorem leadsQuad_double {before front : Text} (dotless : unit '.' ∉ before) (leads : LeadsQuad front) :
    LeadsQuad (before ++ text "::" ++ front) := by
  constructor
  · intro isIn
    rcases mem_append.mp isIn with first | last
    · rcases mem_append.mp first with own | colon
      · exact dotless own
      · exact absurd colon (by decide)
    · exact leads.1 last
  · right
    rcases leads.2 with rfl | last
    · rw [append_nil, show text "::" = [unit ':'] ++ [unit ':'] from rfl, ← append_assoc,
        List.getLast?_concat]
    · rw [List.getLast?_append, last]
      rfl

/-- **The full stops of a literal** are those of a dotted quad that it ends in, if it has any. -/
theorem literal_quad {t : Text}
    (literal : (∃ v, ipv4Value t = some v) ∨ ∃ v, loweredIpv6Value t = some v) :
    unit '.' ∉ t ∨ ∃ front quad, t = front ++ quad ∧ LeadsQuad front ∧ bareIpv4 quad = true := by
  rcases literal with first | second
  · exact .inr ⟨[], t, rfl, ⟨not_mem_nil, .inl rfl⟩, ((ipv4Value_isSome t).mp first).1⟩
  · obtain ⟨form, is, read⟩ := (loweredIpv6Value_iff t).mp second
    have spelled := ipv6Form_text is
    subst spelled
    cases form with
    | whole words =>
      rcases read with ⟨all, -⟩ | ⟨-, groups, quad, rfl, all, isQuad, -, -⟩
      · exact .inl (dotless_joined all)
      · exact .inr ⟨_, quad, joined_quad groups quad, leadsQuad_ledBy all, isQuad⟩
    | compressed before after =>
      obtain ⟨head, tail, readHead, readTail, -⟩ := read
      have dotless := dotless_joined (reads_false.mp readHead).1
      rcases readTail with ⟨all, -⟩ | ⟨-, groups, quad, rfl, all, isQuad, -, -⟩
      · left
        intro isIn
        rcases mem_append.mp isIn with first | last
        · rcases mem_append.mp first with own | colon
          · exact dotless own
          · exact absurd colon (by decide)
        · exact dotless_joined all last
      · refine .inr ⟨joined before ++ text "::" ++ ledBy groups, quad, ?_,
          leadsQuad_double dotless (leadsQuad_ledBy all), isQuad⟩
        rw [Ipv6Form.spelled, joined_quad, append_assoc _ (ledBy groups)]

/-! ### The patterns on a literal -/

theorem octet_iff (t : Text) : octet t = true ↔ 1 ≤ t.length ∧ t.length ≤ 3 ∧ ∀ c ∈ t, isDigit c = true := by
  simp only [octet, Bool.and_eq_true, decide_eq_true_eq, all_eq_true, and_assoc]

theorem digitsThen_iff (next : Text → Bool) (t : Text) :
    digitsThen next t = true ↔ ∃ digits rest, t = digits ++ rest ∧ octet digits = true ∧ next rest = true := by
  unfold digitsThen
  simp only [any_eq_true, Bool.and_eq_true, decide_eq_true_eq, octet_iff, all_eq_true]
  constructor
  · rintro ⟨n, few, ⟨long, digits⟩, after⟩
    have bounds : 1 ≤ n ∧ n ≤ 3 := by
      simp only [mem_cons, not_mem_nil, or_false] at few
      omega
    refine ⟨t.take n, t.drop n, (take_append_drop n t).symm, ⟨?_, ?_, digits⟩, after⟩
    · rw [length_take_of_le long]
      exact bounds.1
    · rw [length_take_of_le long]
      exact bounds.2
  · rintro ⟨digits, rest, rfl, ⟨some, few, all⟩, after⟩
    refine ⟨digits.length, ?_, ⟨?_, ?_⟩, ?_⟩
    · simp only [mem_cons, not_mem_nil, or_false]
      omega
    · rw [length_append]
      omega
    · rwa [take_left]
    · rwa [drop_left]

theorem stopThen_iff (next : Text → Bool) (t : Text) :
    stopThen next t = true ↔ ∃ rest, t = unit '.' :: rest ∧ next rest = true := by
  unfold stopThen
  rw [Bool.and_eq_true]
  constructor
  · rintro ⟨stop, after⟩
    obtain ⟨rest, rfl⟩ := List.isPrefixOf_iff_prefix.mp stop
    exact ⟨rest, rfl, after⟩
  · rintro ⟨rest, rfl, after⟩
    exact ⟨rfl, after⟩

theorem not_dot_of_octet {t : Text} (digits : octet t = true) : unit '.' ∉ t :=
  fun isIn => absurd (((octet_iff t).mp digits).2.2 _ isIn) (by decide)

/-- **A dotted quad**, part by part. -/
theorem bareIpv4_parts (t : Text) : bareIpv4 t = true ↔
    ∃ a b c d, t = a ++ unit '.' :: (b ++ unit '.' :: (c ++ unit '.' :: d)) ∧ octet a = true ∧
      octet b = true ∧ octet c = true ∧ octet d = true := by
  rw [bareIpv4_iff]
  constructor
  · rintro ⟨four, digits⟩
    have joins : [unit '.'].intercalate (t.splitOn (unit '.')) = t := intercalate_splitOn _
    match parts : t.splitOn (unit '.'), four with
    | [a, b, c, d], _ =>
      rw [parts] at joins digits
      refine ⟨a, b, c, d, ?_, digits a (by simp), digits b (by simp), digits c (by simp),
        digits d (by simp)⟩
      rw [← joins]
      simp [intercalate_cons_cons]
  · rintro ⟨a, b, c, d, rfl, octA, octB, octC, octD⟩
    rw [splitOn_append_cons_self_of_not_mem (not_dot_of_octet octA),
      splitOn_append_cons_self_of_not_mem (not_dot_of_octet octB),
      splitOn_append_cons_self_of_not_mem (not_dot_of_octet octC),
      splitOn_eq_singleton (not_dot_of_octet octD)]
    refine ⟨rfl, ?_⟩
    simp only [forall_mem_cons, not_mem_nil, false_imp_iff, implies_true, and_true]
    exact ⟨octA, octB, octC, octD⟩

theorem count_quad {t : Text} (quad : bareIpv4 t = true) : t.count (unit '.') = 3 := by
  obtain ⟨a, b, c, d, rfl, octA, octB, octC, octD⟩ := (bareIpv4_parts t).mp quad
  simp only [count_append, count_cons_self, count_eq_zero_of_not_mem
    (not_dot_of_octet octA), count_eq_zero_of_not_mem (not_dot_of_octet octB),
    count_eq_zero_of_not_mem (not_dot_of_octet octC),
    count_eq_zero_of_not_mem (not_dot_of_octet octD)]

/-- What the pattern of IPv4 loopback matches from a place on. -/
theorem loopbackV4_at (front rest : Text) :
    (boundary front.getLast? rest.head? && startsWith rest (text "127.") &&
      digitsThen (stopThen (digitsThen (stopThen (digitsThen fun rest =>
        boundary (some (unit '0')) rest.head?)))) (rest.drop 4)) = true ↔
      boundary front.getLast? (some (unit '1')) = true ∧ ∃ b c d after,
        rest = text "127" ++ unit '.' :: (b ++ unit '.' :: (c ++ unit '.' :: (d ++ after))) ∧
        octet b = true ∧ octet c = true ∧ octet d = true ∧
        boundary (some (unit '0')) after.head? = true := by
  simp only [Bool.and_eq_true, digitsThen_iff, stopThen_iff]
  constructor
  · rintro ⟨⟨word, starts⟩, b, _, same, octB, _, rfl, c, _, rfl, octC, _, rfl, d, after, rfl, octD, ends⟩
    obtain ⟨more, rfl⟩ := List.isPrefixOf_iff_prefix.mp starts
    have tail : more = _ := same
    subst tail
    exact ⟨word, b, c, d, after, rfl, octB, octC, octD, ends⟩
  · rintro ⟨word, b, c, d, after, rfl, octB, octC, octD, ends⟩
    exact ⟨⟨word, rfl⟩, b, _, rfl, octB, _, rfl, c, _, rfl, octC, _, rfl, d, after, rfl, octD, ends⟩

/-- A unit of a literal that is no word unit. -/
theorem literalUnit_nonword {c : UInt16} (literal : isLiteralUnit c = true)
    (word : isWord c = false) : c = unit '.' ∨ c = unit ':' := by
  rcases (isLiteralUnit_iff c).mp literal with hex | separator
  · have hexWord : isWord c = true := by
      simp only [isHexUnit, Bool.or_eq_true, Bool.and_eq_true, decide_eq_true_eq] at hex
      simp only [isWord, isAlpha, isLower, Bool.or_eq_true, Bool.and_eq_true, decide_eq_true_eq]
      rcases hex with digit | ⟨low, high⟩
      · exact .inl (.inr digit)
      · refine .inl (.inl (.inl ⟨low, ?_⟩))
        simp only [UInt16.le_iff_toNat_le, UInt16.reduceToNat] at high ⊢
        omega
    rw [hexWord] at word
    cases word
  · exact separator

/-- The text of a host that is a literal, in lower case. -/
structure IsLiteral (t : Text) : Prop where
  units : ∀ c ∈ t, isLiteralUnit c = true
  quad : unit '.' ∉ t ∨ ∃ front quad, t = front ++ quad ∧ LeadsQuad front ∧ bareIpv4 quad = true

/-- A dotted quad at the end, of an address that loops back. -/
def EndsLoopback (t : Text) : Prop :=
  ∃ front quad, t = front ++ quad ∧ LeadsQuad front ∧ bareIpv4 quad = true ∧ text "127." <+: quad

/-- **The pattern of IPv4 loopback** matches a literal that ends in such a quad. -/
theorem loopbackV4_iff {t : Text} (literal : IsLiteral t) :
    loopbackV4 t = true ↔ EndsLoopback t := by
  unfold loopbackV4
  rw [matchesAnywhere_start]
  simp only [loopbackV4_at]
  constructor
  · rintro ⟨pre, post, rfl, word, b, c, d, after, rfl, octB, octC, octD, -⟩
    rcases literal.quad with dotless | ⟨front, quad, same, leads, isQuad⟩
    · exact absurd (mem_append_right pre (mem_append_right _ mem_cons_self)) dotless
    refine ⟨front, quad, same, leads, isQuad, ?_⟩
    -- All the full stops are in what the pattern matched.
    have counted := congrArg (List.count (unit '.')) same
    have first : front.count (unit '.') = 0 := count_eq_zero_of_not_mem leads.1
    simp only [count_append, count_cons_self, count_quad isQuad, first] at counted
    have dotless : unit '.' ∉ pre := List.count_eq_zero.mp (by omega)
    have colon : pre = [] ∨ pre.getLast? = some (unit ':') := by
      rcases eq_nil_or_concat pre with rfl | ⟨init, last, rfl⟩
      · exact .inl rfl
      · right
        rw [concat_eq_append, List.getLast?_concat] at word ⊢
        have plain : isWord last = false := by
          cases found : isWord last with
          | false => rfl
          | true =>
            rw [boundary, Option.any_some, Option.any_some, found] at word
            exact absurd word (by decide)
        rcases literalUnit_nonword (literal.units last (by simp)) plain with dot | colon
        · exact absurd (by simp [dot]) dotless
        · rw [colon]
    rcases List.append_eq_append_iff.mp same with ⟨more, rfl, tail⟩ | ⟨more, rfl, tail⟩
    · -- The match starts within what leads the quad.
      rcases leads.2 with empty | last
      · rw [(List.append_eq_nil_iff.mp empty).2, nil_append] at tail
        rw [← tail]
        exact ⟨_, rfl⟩
      · rcases eq_nil_or_concat more with rfl | ⟨init, e, rfl⟩
        · rw [nil_append] at tail
          rw [← tail]
          exact ⟨_, rfl⟩
        · exfalso
          rw [concat_eq_append] at tail last leads
          have colonIn : unit ':' ∈ init ++ [e] := by
            rw [← append_assoc, List.getLast?_concat] at last
            rw [Option.some.inj last]
            simp
          have dotless : unit '.' ∉ init ++ [e] := fun isIn => leads.1 (mem_append_right _ isIn)
          rcases List.append_eq_append_iff.mp tail with ⟨behind, spelled, after⟩ |
            ⟨behind, spelled, after⟩
          · cases behind with
            | nil =>
              rw [spelled, append_nil] at colonIn
              exact absurd colonIn (by decide)
            | cons d behind =>
              rw [cons_append] at after
              rw [← (List.cons.inj after).1] at spelled
              exact dotless (spelled ▸ mem_append_right _ mem_cons_self)
          · have among : unit ':' ∈ text "127" := spelled ▸ mem_append_left _ colonIn
            exact absurd among (by decide)
    · -- The match starts within the quad.
      rcases eq_nil_or_concat more with rfl | ⟨init, e, rfl⟩
      · rw [nil_append] at tail
        rw [tail]
        exact ⟨_, rfl⟩
      · exfalso
        rw [concat_eq_append, ← append_assoc, List.getLast?_concat] at colon
        rcases colon with empty | last
        · simp at empty
        · refine (bareIpv4_dotted isQuad).2 ?_
          rw [tail, ← Option.some.inj last]
          simp
  · rintro ⟨front, quad, rfl, leads, isQuad, starts⟩
    obtain ⟨a, b, c, d, rfl, octA, octB, octC, octD⟩ := (bareIpv4_parts quad).mp isQuad
    have head : a = text "127" := by
      obtain ⟨more, same⟩ := starts
      have parts := congrArg (List.splitOn (unit '.')) same
      have other : text "127." ++ more = text "127" ++ unit '.' :: more := rfl
      rw [other, splitOn_append_cons_self_of_not_mem (by decide),
        splitOn_append_cons_self_of_not_mem (not_dot_of_octet octA)] at parts
      exact (List.cons.inj parts).1.symm
    subst head
    refine ⟨front, _, rfl, ?_, b, c, d, [], by rw [append_nil], octB, octC, octD, by decide⟩
    rcases leads.2 with rfl | last
    · decide
    · rw [last]
      decide

/-- No colon follows a full stop in a literal. -/
theorem IsLiteral.no_colon {t : Text} (literal : IsLiteral t) {front rest : Text}
    (same : t = front ++ unit '.' :: rest) : unit ':' ∉ rest := by
  rcases literal.quad with dotless | ⟨lead, quad, spelled, leads, isQuad⟩
  · exact absurd (same ▸ by simp) dotless
  · intro colon
    rw [same] at spelled
    rcases List.append_eq_append_iff.mp spelled with ⟨more, led, tail⟩ | ⟨more, led, tail⟩
    · cases more with
      | nil =>
        rw [nil_append] at tail
        exact (bareIpv4_dotted isQuad).2 (tail ▸ mem_cons_of_mem _ colon)
      | cons d more =>
        rw [cons_append] at tail
        exact leads.1 (led ▸ mem_append_right _ ((List.cons.inj tail).1 ▸ mem_cons_self))
    · exact (bareIpv4_dotted isQuad).2 (tail ▸ mem_append_right _ (mem_cons_of_mem _ colon))

/-- **The pattern of IPv6 loopback** matches a literal that is `::1`, or has a full stop after it. -/
theorem loopbackV6_iff {t : Text} (literal : IsLiteral t) :
    loopbackV6 t = true ↔ t = text "::1" ∨ text "::1." <+: t := by
  unfold loopbackV6
  rw [matchesAnywhere_start]
  simp only [Bool.and_eq_true]
  constructor
  · rintro ⟨front, rest, same, ⟨opens, starts⟩, ends⟩
    obtain ⟨more, rfl⟩ := List.isPrefixOf_iff_prefix.mp starts
    have first : front = [] := by
      rcases eq_nil_or_concat front with rfl | ⟨init, last, rfl⟩
      · rfl
      · exfalso
        rw [concat_eq_append] at same opens
        rw [List.getLast?_concat, Option.all_some, Bool.not_eq_true', Bool.or_eq_false_iff,
          beq_eq_false_iff_ne] at opens
        rcases literalUnit_nonword (literal.units last (same ▸ by simp)) opens.1 with rfl | colon
        · have spelled : t = init ++ unit '.' :: (text "::1" ++ more) := by
            rw [same, append_assoc]
            rfl
          exact literal.no_colon spelled (mem_append_left _ (by decide))
        · exact opens.2 colon
    subst first
    rw [nil_append] at same
    cases more with
    | nil => exact .inl (same.trans (append_nil _))
    | cons c more =>
      have stop : (!(isWord c || c == unit ':')) = true := ends
      rw [Bool.not_eq_true', Bool.or_eq_false_iff, beq_eq_false_iff_ne] at stop
      rcases literalUnit_nonword (literal.units c (same ▸ by simp)) stop.1 with rfl | colon
      · exact .inr ⟨more, same.symm⟩
      · exact absurd colon stop.2
  · rintro (rfl | ⟨more, rfl⟩)
    · exact ⟨[], text "::1", rfl, by decide, by decide⟩
    · exact ⟨[], text "::1." ++ more, rfl, ⟨by decide, rfl⟩, rfl⟩

/-- A unit that touches a written address. -/
def touches (c : UInt16) : Bool := isWord c || c == unit '.'

/-- **The pattern of an interface address** matches a text that has the address in it, and neither a word
unit nor a full stop at its sides. -/
theorem interfacePattern_iff (address t : Text) :
    interfacePattern address t = true ↔ ∃ front rest, t = front ++ address ++ rest ∧
      (∀ c, front.getLast? = some c → touches c = false) ∧
      ∀ c, rest.head? = some c → touches c = false := by
  have whole (side : Option UInt16) : (side.all fun c => !(isWord c || c == unit '.')) = true ↔
      ∀ c, side = some c → touches c = false := by
    cases side with
    | none => simp
    | some d => simp [touches]
  unfold interfacePattern
  rw [matchesAnywhere_start]
  simp only [Bool.and_eq_true, whole]
  constructor
  · rintro ⟨front, _, rfl, ⟨opens, starts⟩, ends⟩
    obtain ⟨rest, rfl⟩ := List.isPrefixOf_iff_prefix.mp starts
    rw [drop_left] at ends
    exact ⟨front, rest, (append_assoc _ _ _).symm, opens, ends⟩
  · rintro ⟨front, rest, rfl, opens, ends⟩
    refine ⟨front, address ++ rest, append_assoc _ _ _, ⟨opens, ?_⟩, by rwa [drop_left]⟩
    exact List.isPrefixOf_iff_prefix.mpr ⟨rest, rfl⟩

theorem loopbackHostname_literal {t : Text} (literal : IsLiteral t) : loopbackHostname t = false := by
  rw [Bool.eq_false_iff]
  intro found
  unfold loopbackHostname at found
  rw [matchesAnywhere_start] at found
  obtain ⟨front, rest, rfl, matched⟩ := found
  simp only [Bool.and_eq_true] at matched
  obtain ⟨more, rfl⟩ := List.isPrefixOf_iff_prefix.mp matched.1.2
  have letter := literal.units (unit 'l') (mem_append_right _ mem_cons_self)
  exact absurd letter (by decide)

/-! ### The rule -/

variable {host : Text}

section Rule

variable (L : LowerCase) (hostAddresses : List Text)

/-- The spellings of an address that the rule sees: a dotted quad of 127 at the end, `::1`, or the text
of an address of this machine with nothing that touches it. -/
def PlainlySpelled (t : Text) : Prop :=
  EndsLoopback t ∨ (t = text "::1" ∨ text "::1." <+: t) ∨
    ∃ address ∈ hostAddresses, ∃ front rest, t = front ++ L.lower address ++ rest ∧
      (∀ c, front.getLast? = some c → touches c = false) ∧
      ∀ c, rest.head? = some c → touches c = false

theorem isLiteral_host {address : Address} (denoted : addressOf L host = some address) :
    IsLiteral (L.lower host) := by
  have read : (∃ v, ipv4Value (L.lower host) = some v) ∨ ∃ v, loweredIpv6Value (L.lower host) = some v := by
    unfold addressOf at denoted
    split at denoted
    · rename_i value found
      rw [lower_literal L (ipv4Value_literal found)]
      exact .inl ⟨value, found⟩
    · obtain ⟨value, found, -⟩ := Option.map_eq_some_iff.mp denoted
      exact .inr ⟨value, found⟩
  refine ⟨?_, literal_quad read⟩
  rw [← all_eq_true]
  rcases read with ⟨v, found⟩ | ⟨v, found⟩
  · exact ipv4Value_literal found
  · exact loweredIpv6Value_literal found

/-- **The rule sees a literal exactly when it is plainly spelled.** -/
theorem selfProtectionRule_literal {address : Address} (denoted : addressOf L host = some address) :
    (selfProtectionRule L host hostAddresses).isSome = true ↔
      PlainlySpelled L hostAddresses (L.lower host) := by
  have literal := isLiteral_host L denoted
  unfold PlainlySpelled
  rw [← loopbackV4_iff literal, ← loopbackV6_iff literal]
  simp only [← interfacePattern_iff]
  unfold selfProtectionRule
  dsimp only
  rw [if_neg (by rw [loopbackHostname_literal literal]; decide)]
  split_ifs with four six own
  · simp [four]
  · simp [six]
  · rw [any_eq_true] at own
    simp only [Option.isSome_some, true_iff]
    exact .inr (.inr own)
  · rw [any_eq_true] at own
    simp only [Option.isSome_none, Bool.false_eq_true, false_iff, not_or]
    exact ⟨four, six, own⟩

/-- An address of this machine: one that loops back, or one of its interfaces. -/
def Protected (address : Address) : Prop :=
  address = .v6 1 ∨ (∃ value, address = .v4 value ∧ value >>> 24 = 127) ∨
    ∃ own ∈ hostAddresses, addressOf L own = some address

/-- Self-protection of a target: the rule sees it, and it is denied on strong evidence and a forced ask
on weak, when nothing above self-protection decides. -/
structure SelfProtected (request : TgSecRequest) (host : Text) (tier : TgSecTargetEvidence) : Prop where
  rule : (selfProtectionRule L host hostAddresses).isSome = true
  strong : tier = .strong → (evaluateHardDeny L request hostAddresses).isSome = true
  weak : tier = .weak → ∀ hasJudge mode observed granted, observed.addresses = hostAddresses →
    evaluateHardDeny L request hostAddresses = none →
    (∀ rule, observed.rulesHit = some rule → rule.effect = .allow) →
    ∃ reason ruleId, evaluate L hasJudge request mode observed granted =
      .settled ⟨.ask reason true, .selfProtection, some ruleId⟩

theorem firstProtected_of_mem {tier : TgSecTargetEvidence} {targets : Targets}
    (member : (host, tier) ∈ targets)
    (seen : (selfProtectionRule L host hostAddresses).isSome = true) :
    (firstProtected L tier hostAddresses targets).isSome = true := by
  unfold firstProtected
  rw [List.findSome?_isSome_iff]
  refine ⟨(host, tier), member, ?_⟩
  rw [if_pos rfl, Option.isSome_map]
  exact seen

/-- A target that the rule sees is protected. -/
theorem selfProtected_of_rule {request : TgSecRequest} {tier : TgSecTargetEvidence}
    (member : (host, tier) ∈ extractConnectionTargets L request)
    (seen : (selfProtectionRule L host hostAddresses).isSome = true) :
    SelfProtected L hostAddresses request host tier := by
  refine ⟨seen, ?_, ?_⟩
  · rintro rfl
    rw [evaluateHardDeny_isSome]
    exact .inl (firstProtected_of_mem L hostAddresses member seen)
  · rintro rfl hasJudge mode observed granted rfl passed rules
    obtain ⟨hit, found⟩ := Option.isSome_iff_exists.mp
      (firstProtected_of_mem L observed.addresses member seen)
    have unruled : (observed.rulesHit.filter fun rule => rule.effect ≠ .allow) = none := by
      cases hitRule : observed.rulesHit with
      | none => rfl
      | some rule => simp [Option.filter, rules rule hitRule]
    unfold evaluate
    rw [passed]
    dsimp only
    rw [unruled]
    dsimp only
    rw [evaluateWeakSelfProtection, found]
    exact ⟨_, _, rfl⟩

/-- **Self-protection does depend on how an address is spelled**: of every target that a request names
and that denotes a protected address, self-protection holds exactly when it is plainly spelled. -/
theorem selfProtected_iff {request : TgSecRequest} {host : Text} {tier : TgSecTargetEvidence}
    {address : Address} (member : (host, tier) ∈ extractConnectionTargets L request)
    (denoted : addressOf L host = some address) :
    (Protected L hostAddresses address → SelfProtected L hostAddresses request host tier) ↔
      (Protected L hostAddresses address → PlainlySpelled L hostAddresses (L.lower host)) := by
  refine imp_congr_right fun _ => ?_
  rw [← selfProtectionRule_literal L hostAddresses denoted]
  exact ⟨fun held => held.rule, selfProtected_of_rule L hostAddresses member⟩

end Rule

/-- A request to run one command. -/
def commandRequest (command : Text) : TgSecRequest := ⟨text "bash", [], commandSlot.fill (.string command)⟩

/-- The loopback address without a double colon is not seen, and the request is not denied. -/
theorem loopback_unseen :
    (text "0:0:0:0:0:0:0:1", .strong) ∈
      extractConnectionTargets asciiLowerCase (commandRequest (text "curl http://[0:0:0:0:0:0:0:1]/")) ∧
    addressOf asciiLowerCase (text "0:0:0:0:0:0:0:1") = some (.v6 1) ∧
    Protected asciiLowerCase [] (.v6 1) ∧
    evaluateHardDeny asciiLowerCase (commandRequest (text "curl http://[0:0:0:0:0:0:0:1]/")) [] = none ∧
    ¬SelfProtected asciiLowerCase [] (commandRequest (text "curl http://[0:0:0:0:0:0:0:1]/"))
      (text "0:0:0:0:0:0:0:1") .strong := by
  have passed : evaluateHardDeny asciiLowerCase
      (commandRequest (text "curl http://[0:0:0:0:0:0:0:1]/")) [] = none := by decide +kernel
  refine ⟨by decide +kernel, by decide +kernel, .inl rfl, passed, fun held => ?_⟩
  have denied := held.strong rfl
  rw [passed] at denied
  cases denied

theorem loopback_seen :
    Protected asciiLowerCase [] (.v4 0x7F000001) ∧
      SelfProtected asciiLowerCase [] (commandRequest (text "curl http://127.0.0.1/"))
        (text "127.0.0.1") .strong := by
  have loops : Protected asciiLowerCase [] (.v4 0x7F000001) := .inr (.inl ⟨_, rfl, by decide⟩)
  refine ⟨loops, (selfProtected_iff asciiLowerCase [] (by decide +kernel)
    (show addressOf asciiLowerCase (text "127.0.0.1") = some (.v4 0x7F000001) by decide)).mpr ?_ loops⟩
  exact fun _ => .inl ⟨[], text "127.0.0.1", rfl, ⟨by decide, .inl rfl⟩, by decide, text "0.0.1", rfl⟩

end TianGong.SecGuard

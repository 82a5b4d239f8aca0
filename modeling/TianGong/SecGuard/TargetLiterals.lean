/-
**Which IPv6 literals are targets.**

`plainIpv6`, which finds IPv6 literals among the tokens of a command, and `loweredIpv6Value`, which
reads them, are two recognizers of one grammar. `Misread` are the texts they differ on.

* `plainIpv6_iff`, `loweredIpv6Value_iff`: what each of the two accepts, by the sides of the text.
* `target_seen_iff`: both.
-/

import TianGong.SecGuard.Literals

namespace TianGong.SecGuard

open List

/-! ### Groups -/

/-- Words with colons between them. -/
def joined (words : List Text) : Text := [unit ':'].intercalate words

def AreGroups (words : List Text) : Prop := ∀ w ∈ words, ipv6Group w = true

/-- An octet of a dotted quad is beyond a byte. -/
def overflows (quad : Text) : Bool := (quad.splitOn (unit '.')).any fun octet => 255 < number octet

variable (t : Text)

theorem bareIpv4_iff : bareIpv4 t = true ↔
    (t.splitOn (unit '.')).length = 4 ∧ ∀ part ∈ t.splitOn (unit '.'), octet part = true := by
  unfold bareIpv4
  rw [show split (text ".") t = t.splitOn (unit '.') from split_unit (unit '.') t]
  simp

/-- **A dotted quad is an IPv4 literal unless it overflows.** -/
theorem ipv4Value_isSome :
    (∃ v, ipv4Value t = some v) ↔ bareIpv4 t = true ∧ overflows t = false := by
  rw [bareIpv4_iff, overflows, any_eq_false]
  constructor
  · rintro ⟨v, read⟩
    obtain ⟨four, octets, -⟩ := (ipv4Value_eq_some t v).mp read
    refine ⟨⟨four, fun part isIn => (octets part isIn).1⟩, fun part isIn => ?_⟩
    have small := (octets part isIn).2
    simpa using small
  · rintro ⟨⟨four, digits⟩, small⟩
    refine ⟨_, (ipv4Value_eq_some t _).mpr ⟨four, fun part isIn => ⟨digits part isIn, ?_⟩, rfl⟩⟩
    simpa using small part isIn

theorem bareIpv4_dotted {t : Text} (quad : bareIpv4 t = true) : unit '.' ∈ t ∧ unit ':' ∉ t := by
  obtain ⟨four, digits⟩ := (bareIpv4_iff t).mp quad
  constructor
  · by_contra dotless
    rw [splitOn_eq_singleton dotless] at four
    cases four
  · intro colon
    have joins : [unit '.'].intercalate (t.splitOn (unit '.')) = t := intercalate_splitOn _
    rw [← joins] at colon
    rcases mem_intercalate colon with dot | ⟨part, among, inside⟩
    · exact absurd dot (by decide)
    · have digit := digits part among
      simp only [octet, Bool.and_eq_true, all_eq_true] at digit
      exact absurd (digit.2 _ inside) (by decide)

theorem isWordOfSide_quad {t : Text} (quad : bareIpv4 t = true) : isWordOfSide t := by
  refine ⟨?_, (bareIpv4_dotted quad).2⟩
  rintro rfl
  exact absurd (bareIpv4_dotted quad).1 not_mem_nil

theorem group_no_quad {t : Text} (group : ipv6Group t = true) : bareIpv4 t = false := by
  rw [Bool.eq_false_iff]
  exact fun quad => (ipv6Group_plain group).1 (bareIpv4_dotted quad).1

/-! ### The two recognizers -/

/-- Groups that count as many: a dotted quad at the end counts as two. -/
def Counts (words : List Text) (count : Nat) : Prop :=
  (AreGroups words ∧ count = words.length) ∨
    ∃ groups quad, words = groups ++ [quad] ∧ AreGroups groups ∧ bareIpv4 quad = true ∧
      count = groups.length + 2

/-- What `plainIpv6` accepts of the sides of a text. -/
def Ipv6Form.Listed : Ipv6Form → Prop
  | .whole words => Counts words 8
  | .compressed before after => before ++ after ≠ [] ∧ ∃ count < 8, Counts (before ++ after) count

/-- The test `plainIpv6` makes of its groups. -/
def countOf (words : List Text) : Option Nat :=
  let tail := words.getLast?.any bareIpv4
  let groups := if tail then words.dropLast else words
  if groups.all ipv6Group then some (groups.length + if tail then 2 else 0) else none

theorem countOf_eq_some (words : List Text) (count : Nat) :
    countOf words = some count ↔ Counts words count := by
  unfold countOf Counts AreGroups
  rcases eq_nil_or_concat words with rfl | ⟨groups, last, rfl⟩
  · show some 0 = some count ↔ _
    rw [Option.some.injEq]
    constructor
    · rintro rfl
      exact .inl ⟨fun _ isIn => (not_mem_nil isIn).elim, rfl⟩
    · rintro (⟨-, rfl⟩ | ⟨groups, quad, same, -⟩)
      · rfl
      · exact absurd same.symm (by simp)
  · rw [concat_eq_append]
    simp only [List.getLast?_append, List.getLast?_singleton, Option.some_or, Option.any_some,
      dropLast_concat]
    by_cases quad : bareIpv4 last = true
    · have noGroup : ¬ ipv6Group last = true := fun group => by
        rw [group_no_quad group] at quad
        cases quad
      simp only [quad, if_true, all_eq_true]
      constructor
      · intro counted
        split at counted
        · rename_i all
          cases counted
          exact .inr ⟨groups, last, rfl, all, quad, rfl⟩
        · cases counted
      · rintro (⟨all, -⟩ | ⟨others, other, same, all, -, rfl⟩)
        · exact absurd (all last (by simp)) noGroup
        · obtain ⟨rfl, -⟩ := append_inj' same rfl
          rw [if_pos all]
    · simp only [quad, if_false, Bool.false_eq_true, all_eq_true, Nat.add_zero]
      constructor
      · intro counted
        split at counted
        · rename_i all
          cases counted
          exact .inl ⟨all, rfl⟩
        · cases counted
      · rintro (⟨all, rfl⟩ | ⟨others, other, same, -, otherQuad, -⟩)
        · rw [if_pos all]
        · obtain ⟨-, tails⟩ := append_inj' same rfl
          cases tails
          exact absurd otherQuad quad

/-- The groups of a text, side by side. -/
theorem plainIpv6_eq :
    plainIpv6 t = true ↔ t.contains (unit ':') = true ∧ (split (text "::") t).length ≤ 2 ∧
      (split (text "::") t).flatMap sideTokens ≠ [] ∧
      ∃ count, countOf ((split (text "::") t).flatMap sideTokens) = some count ∧
        if (split (text "::") t).length = 2 then count < 8 else count = 8 := by
  have groups : ((split (text "::") t).filter (· ≠ [])).flatMap (split (text ":")) =
      (split (text "::") t).flatMap sideTokens := by
    induction split (text "::") t with
    | nil => rfl
    | cons run runs ih =>
      rw [flatMap_cons, ← ih, filter_cons, sideTokens]
      by_cases empty : run = []
      · simp [empty]
      · simp [empty]
  unfold plainIpv6 countOf
  dsimp only
  rw [groups]
  generalize (split (text "::") t).flatMap sideTokens = all
  generalize (split (text "::") t).length = runs
  simp only [Bool.and_eq_true, decide_eq_true_eq, ne_eq, length_eq_zero_iff,
    beq_iff_eq, and_assoc]
  refine and_congr_right fun _ => and_congr_right fun _ => and_congr_right fun _ => ?_
  split_ifs <;> simp_all

variable {words : List Text} {count : Nat}

theorem Counts.length (counts : Counts words count) : count ≤ words.length + 1 := by
  rcases counts with ⟨-, rfl⟩ | ⟨groups, quad, rfl, -, -, rfl⟩
  · omega
  · rw [length_append, length_singleton]

/-- Two words have a colon between them. -/
theorem colon_mem_joined (two : 2 ≤ words.length) : unit ':' ∈ joined words := by
  match words, two with
  | first :: second :: rest, _ =>
    rw [joined, intercalate_cons_cons]
    simp

/-- **What `plainIpv6` accepts.** -/
theorem plainIpv6_iff : plainIpv6 t = true ↔ ∃ form, ipv6Form t = some form ∧ form.Listed := by
  rw [plainIpv6_eq]
  have joins := intercalate_split double_ne_nil t
  unfold ipv6Form
  cases parts : split (text "::") t with
  | nil => exact absurd parts (split_ne_nil double_ne_nil t)
  | cons first rest =>
    rw [parts] at joins
    cases rest with
    | nil =>
      rw [intercalate_singleton] at joins
      subst joins
      simp only [flatMap_cons, flatMap_nil, append_nil, length_singleton,
        Option.some.injEq, exists_eq_left', Ipv6Form.Listed, ← countOf_eq_some]
      constructor
      · rintro ⟨-, -, -, count, counted, eight⟩
        rw [if_neg (by decide)] at eight
        rwa [eight] at counted
      · intro counted
        have long := ((countOf_eq_some _ _).mp counted).length
        have colon : unit ':' ∈ first := by
          have inside : unit ':' ∈ joined (sideTokens first) := colon_mem_joined (by omega)
          rwa [joined, intercalate_sideTokens] at inside
        refine ⟨List.contains_iff_mem.mpr colon, by decide, ?_, 8, counted, ?_⟩
        · intro empty
          rw [empty] at long
          exact absurd long (by decide)
        · rw [if_neg (by decide)]
    | cons second rest =>
      cases rest with
      | nil =>
        rw [intercalate_cons_cons, intercalate_singleton] at joins
        have colon : t.contains (unit ':') = true := by
          rw [← joins]
          exact List.contains_iff_mem.mpr (mem_append_left _
            (mem_append_right _ mem_cons_self))
        simp only [flatMap_cons, flatMap_nil, append_nil, length_cons,
          length_nil, Option.some.injEq, exists_eq_left', Ipv6Form.Listed, ← countOf_eq_some,
          colon, true_and]
        constructor
        · rintro ⟨-, some, count, counted, small⟩
          exact ⟨some, count, by rwa [if_pos trivial] at small, counted⟩
        · rintro ⟨some, count, small, counted⟩
          exact ⟨le_rfl, some, count, counted, by rwa [if_pos trivial]⟩
      | cons third rest => simp

/-- Groups that are a side of an IPv6 literal, and how many 16-bit groups they are. -/
def Reads (mayEndInV4 : Bool) (words : List Text) (count : Nat) : Prop :=
  (AreGroups words ∧ count = words.length) ∨
    mayEndInV4 = true ∧ ∃ groups quad, words = groups ++ [quad] ∧ AreGroups groups ∧
      bareIpv4 quad = true ∧ overflows quad = false ∧ count = groups.length + 2

theorem reads_iff (mayEndInV4 : Bool) (words : List Text) (count : Nat) :
    Reads mayEndInV4 words count ↔
      ∃ groups, expandIpv6Side mayEndInV4 words = some groups ∧ groups.length = count := by
  simp only [expandIpv6Side_eq_some]
  constructor
  · rintro (⟨all, rfl⟩ | ⟨may, groups, quad, rfl, all, isQuad, small, rfl⟩)
    · exact ⟨_, .inl ⟨all, rfl⟩, length_map _⟩
    · obtain ⟨v, read⟩ := (ipv4Value_isSome quad).mpr ⟨isQuad, small⟩
      exact ⟨_, .inr ⟨may, groups, quad, v, rfl, all, read, rfl⟩, by simp⟩
  · rintro ⟨_, ⟨all, rfl⟩ | ⟨may, groups, quad, v, rfl, all, read, rfl⟩, rfl⟩
    · exact .inl ⟨all, length_map _⟩
    · obtain ⟨isQuad, small⟩ := (ipv4Value_isSome quad).mp ⟨v, read⟩
      exact .inr ⟨may, groups, quad, rfl, all, isQuad, small, by simp⟩

/-- What the registry reads of the sides of a text. -/
def Ipv6Form.Read : Ipv6Form → Prop
  | .whole words => Reads true words 8
  | .compressed before after =>
    ∃ head tail, Reads false before head ∧ Reads true after tail ∧ head + tail ≤ 7

theorem Ipv6Form.value_isSome (form : Ipv6Form) : (∃ v, form.value = some v) ↔ form.Read := by
  cases form with
  | whole words =>
    simp only [Ipv6Form.Read, reads_iff, Ipv6Form.value]
    cases expandIpv6Side true words with
    | none => simp
    | some groups =>
      by_cases eight : groups.length = 8
      · simp [eight]
      · simp [eight]
  | compressed before after =>
    simp only [Ipv6Form.Read, reads_iff, Ipv6Form.value]
    cases expandIpv6Side false before with
    | none => simp
    | some head =>
      cases expandIpv6Side true after with
      | none => simp
      | some tail =>
        by_cases fits : head.length + tail.length ≤ 7
        · simp [fits]
        · simp [fits, Nat.lt_of_not_le fits]

/-- **What the registry reads.** -/
theorem loweredIpv6Value_iff :
    (∃ v, loweredIpv6Value t = some v) ↔ ∃ form, ipv6Form t = some form ∧ form.Read := by
  simp only [loweredIpv6Value_eq, Option.bind_eq_some_iff, ← Ipv6Form.value_isSome]
  constructor
  · rintro ⟨v, form, is, valued⟩
    exact ⟨form, is, v, valued⟩
  · rintro ⟨form, is, v, valued⟩
    exact ⟨v, form, is, valued⟩

/-! ### Where they differ -/

/-- The sides of a misread text: all zero, or with a dotted quad that overflows at the end, or with a
dotted quad before the double colon. -/
def Ipv6Form.Misread : Ipv6Form → Prop
  | .whole words => ∃ groups quad, words = groups ++ [quad] ∧ AreGroups groups ∧
      bareIpv4 quad = true ∧ overflows quad = true ∧ groups.length = 6
  | .compressed before after => (before = [] ∧ after = []) ∨
      (∃ groups quad, after = groups ++ [quad] ∧ AreGroups before ∧ AreGroups groups ∧
        bareIpv4 quad = true ∧ overflows quad = true ∧ before.length + groups.length ≤ 5) ∨
      (after = [] ∧ ∃ groups quad, before = groups ++ [quad] ∧ AreGroups groups ∧
        bareIpv4 quad = true ∧ groups.length ≤ 5)

theorem areGroups_append {first second : List Text} :
    AreGroups (first ++ second) ↔ AreGroups first ∧ AreGroups second := forall_mem_append

/-- A dotted quad is no group. -/
theorem not_areGroups {groups : List Text} {quad : Text} (isQuad : bareIpv4 quad = true) :
    ¬AreGroups (groups ++ [quad]) := by
  intro all
  have group := all quad (by simp)
  rw [group_no_quad group] at isQuad
  cases isQuad

/-- Two lists that end in a dotted quad are one when they are the same. -/
theorem quad_inj {first second : List Text} {q r : Text} (same : first ++ [q] = second ++ [r]) :
    first = second ∧ q = r := by
  obtain ⟨lists, lasts⟩ := append_inj' same rfl
  exact ⟨lists, List.singleton_inj.mp lasts⟩

theorem Ipv6Form.agree_whole (words : List Text) :
    ((Ipv6Form.whole words).Listed ↔ (Ipv6Form.whole words).Read) ↔ ¬(Ipv6Form.whole words).Misread := by
  simp only [Ipv6Form.Listed, Ipv6Form.Read, Ipv6Form.Misread]
  constructor
  · rintro agree ⟨groups, quad, rfl, all, isQuad, overflows, six⟩
    have read := agree.mp (.inr ⟨groups, quad, rfl, all, isQuad, by omega⟩)
    rcases read with ⟨every, -⟩ | ⟨-, others, other, same, -, -, small, -⟩
    · exact not_areGroups isQuad every
    · obtain ⟨rfl, rfl⟩ := quad_inj same
      rw [overflows] at small
      cases small
  · intro fine
    constructor
    · rintro (⟨all, eight⟩ | ⟨groups, quad, rfl, all, isQuad, eight⟩)
      · exact .inl ⟨all, eight⟩
      · refine .inr ⟨rfl, groups, quad, rfl, all, isQuad, ?_, eight⟩
        rw [Bool.eq_false_iff]
        exact fun overflows => fine ⟨groups, quad, rfl, all, isQuad, overflows, by omega⟩
    · rintro (⟨all, eight⟩ | ⟨-, groups, quad, rfl, all, isQuad, -, eight⟩)
      · exact .inl ⟨all, eight⟩
      · exact .inr ⟨groups, quad, rfl, all, isQuad, eight⟩

/-- What the registry reads before the double colon is groups. -/
theorem reads_false : Reads false words count ↔ AreGroups words ∧ count = words.length := by
  unfold Reads
  constructor
  · rintro (groups | ⟨may, -⟩)
    · exact groups
    · cases may
  · exact .inl

theorem Ipv6Form.agree_compressed (before after : List Text) :
    ((Ipv6Form.compressed before after).Listed ↔ (Ipv6Form.compressed before after).Read) ↔
      ¬(Ipv6Form.compressed before after).Misread := by
  simp only [Ipv6Form.Listed, Ipv6Form.Read, Ipv6Form.Misread, reads_false]
  constructor
  · rintro agree (⟨rfl, rfl⟩ | ⟨groups, quad, rfl, allBefore, all, isQuad, overflows, short⟩ |
      ⟨rfl, groups, quad, rfl, all, isQuad, short⟩)
    · -- All zero: the registry reads it.
      have listed := agree.mpr ⟨0, 0, ⟨fun _ isIn => (not_mem_nil isIn).elim, rfl⟩,
        .inl ⟨fun _ isIn => (not_mem_nil isIn).elim, rfl⟩, by decide⟩
      exact listed.1 rfl
    · -- The quad overflows: only the walk over the tokens of a command accepts it.
      have read := agree.mp ⟨by simp, before.length + groups.length + 2, by omega, .inr
        ⟨before ++ groups, quad, by simp, areGroups_append.mpr ⟨allBefore, all⟩, isQuad, by simp⟩⟩
      obtain ⟨head, tail, -, readTail, -⟩ := read
      rcases readTail with ⟨every, -⟩ | ⟨-, others, other, same, -, -, small, -⟩
      · exact not_areGroups isQuad every
      · obtain ⟨rfl, rfl⟩ := quad_inj same
        rw [overflows] at small
        cases small
    · -- The quad is before the double colon.
      have read := agree.mp ⟨by simp, groups.length + 2, by omega, .inr
        ⟨groups, quad, by simp, all, isQuad, rfl⟩⟩
      obtain ⟨head, tail, ⟨every, -⟩, -⟩ := read
      exact not_areGroups isQuad every
  · intro fine
    constructor
    · rintro ⟨some, count, small, ⟨all, rfl⟩ | ⟨groups, quad, same, all, isQuad, rfl⟩⟩
      · obtain ⟨first, second⟩ := areGroups_append.mp all
        rw [length_append] at small
        exact ⟨_, _, ⟨first, rfl⟩, .inl ⟨second, rfl⟩, by omega⟩
      · rcases eq_nil_or_concat after with rfl | ⟨others, last, rfl⟩
        · rw [append_nil] at same
          exact absurd (.inr (.inr ⟨rfl, groups, quad, same, all, isQuad, by omega⟩)) fine
        · rw [concat_eq_append, ← append_assoc] at same
          obtain ⟨rfl, rfl⟩ := quad_inj same
          obtain ⟨first, second⟩ := areGroups_append.mp all
          rw [length_append] at small
          refine ⟨_, _, ⟨first, rfl⟩, .inr ⟨rfl, others, last, by simp, second, isQuad, ?_, rfl⟩, by omega⟩
          rw [Bool.eq_false_iff]
          exact fun overflows => fine (.inr (.inl ⟨others, last, by simp, first, second, isQuad, overflows, by omega⟩))
    · rintro ⟨head, tail, ⟨first, rfl⟩, ⟨second, rfl⟩ |
        ⟨-, groups, quad, rfl, second, isQuad, small, rfl⟩, fits⟩
      · refine ⟨fun empty => ?_, before.length + after.length, by omega,
          .inl ⟨areGroups_append.mpr ⟨first, second⟩, by rw [length_append]⟩⟩
        exact fine (.inl (List.append_eq_nil_iff.mp empty))
      · exact ⟨by simp, before.length + groups.length + 2, by omega, .inr
          ⟨before ++ groups, quad, by simp, areGroups_append.mpr ⟨first, second⟩, isQuad, by simp⟩⟩

/-! ### Texts -/

/-- The text of some sides. -/
def Ipv6Form.spelled : Ipv6Form → Text
  | .whole words => joined words
  | .compressed before after => joined before ++ text "::" ++ joined after

theorem ipv6Form_text {t : Text} {form : Ipv6Form} (is : ipv6Form t = some form) :
    t = form.spelled := by
  have joins := intercalate_split double_ne_nil t
  unfold ipv6Form at is
  split at is
  · rename_i whole parts
    cases is
    rw [parts, intercalate_singleton] at joins
    rw [← joins, Ipv6Form.spelled, joined, intercalate_sideTokens]
  · rename_i before after parts
    cases is
    rw [parts, intercalate_cons_cons, intercalate_singleton] at joins
    rw [← joins, Ipv6Form.spelled, joined, joined, intercalate_sideTokens, intercalate_sideTokens]
  · cases is

theorem ipv6Form_whole_text (all : ∀ w ∈ words, isWordOfSide w) :
    ipv6Form (joined words) = some (.whole words) := ipv6Form_groups all

theorem ipv6Form_compressed_text {before after : List Text} (first : ∀ w ∈ before, isWordOfSide w)
    (second : ∀ w ∈ after, isWordOfSide w) :
    ipv6Form (joined before ++ text "::" ++ joined after) = some (.compressed before after) := by
  have one := split_groups second []
  rw [append_nil, split_nil, modifyHead_cons, append_nil] at one
  have sides : split (text "::") (joined before ++ text "::" ++ joined after) =
      [joined before, joined after] := by
    rw [append_assoc, joined, split_groups first]
    show (split (text "::") (unit ':' :: unit ':' :: joined after)).modifyHead _ = _
    rw [split_run, joined, one]
    simp
  unfold ipv6Form
  rw [sides]
  dsimp only
  rw [joined, joined, sideTokens_intercalate first, sideTokens_intercalate second]

theorem side_of_groups (all : AreGroups words) : ∀ w ∈ words, isWordOfSide w :=
  fun w isIn => isWordOfSide_group (all w isIn)

theorem side_of_quad {groups : List Text} {quad : Text} (all : AreGroups groups)
    (isQuad : bareIpv4 quad = true) : ∀ w ∈ groups ++ [quad], isWordOfSide w := by
  intro w isIn
  rcases List.mem_append.mp isIn with among | last
  · exact isWordOfSide_group (all w among)
  · rw [List.mem_singleton.mp last]
    exact isWordOfSide_quad isQuad

/-- The texts the two recognizers differ on: `::`; a literal whose dotted quad has an octet beyond a
byte; and one with a dotted quad before a double colon that ends it. -/
def Misread (t : Text) : Prop :=
  t = text "::" ∨
  (∃ groups quad, AreGroups groups ∧ groups.length = 6 ∧ bareIpv4 quad = true ∧
    overflows quad = true ∧ t = joined (groups ++ [quad])) ∨
  (∃ before groups quad, AreGroups before ∧ AreGroups groups ∧ before.length + groups.length ≤ 5 ∧
    bareIpv4 quad = true ∧ overflows quad = true ∧
    t = joined before ++ text "::" ++ joined (groups ++ [quad])) ∨
  ∃ groups quad, AreGroups groups ∧ groups.length ≤ 5 ∧ bareIpv4 quad = true ∧
    t = joined (groups ++ [quad]) ++ text "::"

theorem misread_iff : Misread t ↔ ∃ form, ipv6Form t = some form ∧ form.Misread := by
  constructor
  · rintro (rfl | ⟨groups, quad, all, six, isQuad, overflows, rfl⟩ |
      ⟨before, groups, quad, first, all, short, isQuad, overflows, rfl⟩ |
      ⟨groups, quad, all, short, isQuad, rfl⟩)
    · exact ⟨.compressed [] [], rfl, .inl ⟨rfl, rfl⟩⟩
    · exact ⟨_, ipv6Form_whole_text (side_of_quad all isQuad), groups, quad, rfl, all, isQuad, overflows, six⟩
    · exact ⟨_, ipv6Form_compressed_text (side_of_groups first) (side_of_quad all isQuad),
        .inr (.inl ⟨groups, quad, rfl, first, all, isQuad, overflows, short⟩)⟩
    · have form := ipv6Form_compressed_text (side_of_quad all isQuad)
        (fun w isIn => (not_mem_nil isIn).elim : ∀ w ∈ [], isWordOfSide w)
      rw [show joined [] = [] from rfl, append_nil] at form
      exact ⟨_, form, .inr (.inr ⟨rfl, groups, quad, rfl, all, isQuad, short⟩)⟩
  · rintro ⟨form, is, misread⟩
    have spelled := ipv6Form_text is
    cases form with
    | whole words =>
      obtain ⟨groups, quad, rfl, all, isQuad, overflows, six⟩ := misread
      exact .inr (.inl ⟨groups, quad, all, six, isQuad, overflows, spelled⟩)
    | compressed before after =>
      rcases misread with ⟨rfl, rfl⟩ | ⟨groups, quad, rfl, first, all, isQuad, overflows, short⟩ |
        ⟨rfl, groups, quad, rfl, all, isQuad, short⟩
      · exact .inl spelled
      · exact .inr (.inr (.inl ⟨before, groups, quad, first, all, short, isQuad, overflows, spelled⟩))
      · refine .inr (.inr (.inr ⟨groups, quad, all, short, isQuad, ?_⟩))
        rw [spelled]
        exact append_nil _

/-- **The two recognizers agree exactly on the texts that are not misread.** -/
theorem recognizers_agree_iff :
    (plainIpv6 t = true ↔ ∃ v, loweredIpv6Value t = some v) ↔ ¬Misread t := by
  rw [plainIpv6_iff, loweredIpv6Value_iff, misread_iff]
  cases ipv6Form t with
  | none => simp
  | some form =>
    simp only [Option.some.injEq, exists_eq_left']
    cases form with
    | whole words => exact Ipv6Form.agree_whole words
    | compressed before after => exact Ipv6Form.agree_compressed before after

/-- The IPv6 literals a command can name: eight groups, or fewer around a double colon, a dotted quad at
the end counting as two. -/
def IsListing (t : Text) : Prop :=
  (∃ words, Counts words 8 ∧ t = joined words) ∨
    ∃ before after count, before ++ after ≠ [] ∧ count < 8 ∧ Counts (before ++ after) count ∧
      t = joined before ++ text "::" ++ joined after

theorem Counts.side (counts : Counts words count) : ∀ w ∈ words, isWordOfSide w := by
  rcases counts with ⟨all, -⟩ | ⟨groups, quad, rfl, all, isQuad, -⟩
  · exact side_of_groups all
  · exact side_of_quad all isQuad

/-- **The tokens `plainIpv6` accepts** are the listings. -/
theorem plainIpv6_listing : plainIpv6 t = true ↔ IsListing t := by
  rw [plainIpv6_iff]
  constructor
  · rintro ⟨form, is, listed⟩
    have spelled := ipv6Form_text is
    cases form with
    | whole words => exact .inl ⟨words, listed, spelled⟩
    | compressed before after =>
      obtain ⟨some, count, small, counts⟩ := listed
      exact .inr ⟨before, after, count, some, small, counts, spelled⟩
  · rintro (⟨words, counts, rfl⟩ | ⟨before, after, count, some, small, counts, rfl⟩)
    · exact ⟨_, ipv6Form_whole_text counts.side, counts⟩
    · have side := counts.side
      exact ⟨_, ipv6Form_compressed_text (fun w isIn => side w (mem_append_left _ isIn))
        (fun w isIn => side w (mem_append_right _ isIn)), some, count, small, counts⟩

/-! ### Brackets -/

def IsPort (digits : Text) : Prop := digits ≠ [] ∧ ∀ c ∈ digits, isDigit c = true

/-- A path, a query or a fragment, on one line. -/
def IsPath (path : Text) : Prop :=
  ∃ c rest, path = c :: rest ∧ (c = unit '/' ∨ c = unit '?' ∨ c = unit '#') ∧
    ∀ d ∈ rest, isLineEnd d = false

/-- What follows the brackets. -/
def tailText (port path : Option Text) : Text :=
  (match port with
    | none => []
    | some digits => unit ':' :: digits) ++ path.getD []

/-- A literal in brackets, with a port and a path, if any. -/
def bracketed (t : Text) (port path : Option Text) : Text :=
  unit '[' :: (t ++ unit ']' :: tailText port path)

example : bracketed (text "::1") (some (text "80")) (some (text "/a")) = text "[::1]:80/a" := by decide

/-- **A path follows a port only.** -/
theorem portTail_tailText {port path : Option Text} (isPort : ∀ digits ∈ port, IsPort digits)
    (isPath : ∀ rest ∈ path, IsPath rest) :
    portTail (tailText port path) = true ↔ (port = none → path = none) := by
  cases port with
  | none =>
    cases path with
    | none => simp [tailText, portTail]
    | some rest =>
      obtain ⟨c, more, rfl, opens, -⟩ := isPath rest rfl
      have other : (c == unit ':') = false := by
        rcases opens with rfl | rfl | rfl <;> decide
      simp [tailText, portTail, other]
  | some digits =>
    obtain ⟨some, all⟩ := isPort digits rfl
    cases digits with
    | nil => exact absurd rfl some
    | cons first digits =>
      have digit := all first mem_cons_self
      cases path with
      | none =>
        have consumed : (first :: digits).dropWhile isDigit = [] := List.dropWhile_eq_nil_iff.mpr all
        simp [tailText, portTail, digit, consumed]
      | some rest =>
        obtain ⟨c, more, rfl, opens, line⟩ := isPath rest rfl
        have stops : isDigit c = false := by
          rcases opens with rfl | rfl | rfl <;> decide
        have consumed : (first :: digits ++ c :: more).dropWhile isDigit = c :: more := by
          rw [dropWhile_append_of_pos all, dropWhile_cons_of_neg (by rw [stops]; decide)]
        have ends : (more.all fun d => !isLineEnd d) = true :=
          List.all_eq_true.mpr fun d isIn => by rw [line d isIn]; rfl
        have opened : (c == unit '/' || c == unit '?' || c == unit '#') = true := by
          rcases opens with rfl | rfl | rfl <;> decide
        rw [cons_append] at consumed
        simp [tailText, portTail, digit, consumed, ends, opened]

theorem bareIpv6Host_plain {t : Text} (bracketless : unit '[' ∉ t) :
    bareIpv6Host t = if plainIpv6 t then some t else none := by
  have opens : startsWith t (text "[") = false := by
    rw [Bool.eq_false_iff]
    intro found
    obtain ⟨rest, starts⟩ := List.isPrefixOf_iff_prefix.mp found
    exact bracketless (starts ▸ mem_cons_self)
  unfold bareIpv6Host
  rw [bareIpv6HostLoop, if_neg (by rw [opens]; decide)]

/-- The first bracket that closes. -/
theorem indexOf_close {t : Text} (closeless : unit ']' ∉ t) (tail : Text) :
    indexOf (unit '[' :: (t ++ unit ']' :: tail)) (text "]") = some (t.length + 1) := by
  unfold indexOf
  rw [List.find?_range_eq_some]
  refine ⟨?_, ?_, ?_⟩
  · rw [drop_succ_cons, drop_left]
    rfl
  · rw [mem_range]
    simp
  · intro j before
    cases j with
    | zero => rfl
    | succ j =>
      have inside : j < t.length := by omega
      rw [drop_succ_cons, drop_append_of_le_length (by omega), drop_eq_getElem_cons inside]
      have other : ¬ unit ']' = t[j] := fun same => closeless (same ▸ getElem_mem inside)
      show (!((unit ']' == t[j]) && _)) = true
      rw [beq_eq_false_iff_ne.mpr other]
      rfl

/-- **A literal in brackets is the literal**, when what follows is a port with or without a path, or
nothing. -/
theorem bareIpv6Host_bracketed {t : Text} (bracketless : unit '[' ∉ t ∧ unit ']' ∉ t)
    (port path : Option Text) :
    bareIpv6Host (bracketed t port path) =
      if portTail (tailText port path) then bareIpv6Host t else none := by
  have inner : bareIpv6HostLoop (bracketed t port path).length t = bareIpv6Host t := by
    have opens : startsWith t (text "[") = false := by
      rw [Bool.eq_false_iff]
      intro found
      obtain ⟨rest, starts⟩ := List.isPrefixOf_iff_prefix.mp found
      exact bracketless.1 (starts ▸ mem_cons_self)
    rw [bareIpv6Host_plain bracketless.1]
    unfold bracketed
    rw [length_cons, bareIpv6HostLoop, if_neg (by rw [opens]; decide)]
  have tail : (bracketed t port path).drop (t.length + 1 + 1) = tailText port path := by
    rw [bracketed, drop_succ_cons, List.drop_append, drop_of_length_le (by omega)]
    simp
  have body : ((bracketed t port path).take (t.length + 1)).drop 1 = t := by
    rw [bracketed, take_succ_cons, take_left, drop_succ_cons, drop_zero]
  have opened : startsWith (bracketed t port path) (text "[") = true := rfl
  rw [bareIpv6Host, bareIpv6HostLoop, if_pos opened, bracketed, indexOf_close bracketless.2]
  rw [← bracketed]
  dsimp only
  rw [tail, body, inner]

/-! ### The main result -/

/-- An IPv6 literal is a target exactly when the registry reads it, and in brackets too. -/
def Seen (L : LowerCase) (t : Text) (port path : Option Text) : Prop :=
  ((bareIpv6Host t).isSome = true ↔ (ipv6Value L t).isSome = true) ∧
    ((bareIpv6Host t).isSome = true → bareIpv6Host (bracketed t port path) = some t)

/-- **Which IPv6 literals are targets exactly when the registry reads them**: those that are not misread;
and in brackets, a path follows a port only. -/
theorem target_seen_iff (L : LowerCase) {t : Text} (lower : L.lower t = t)
    (bracketless : unit '[' ∉ t ∧ unit ']' ∉ t) {port path : Option Text}
    (isPort : ∀ digits ∈ port, IsPort digits) (isPath : ∀ rest ∈ path, IsPath rest) :
    Seen L t port path ↔ ¬Misread t ∧ (IsListing t → port = none → path = none) := by
  have plain := bareIpv6Host_plain bracketless.1
  have accepts : (bareIpv6Host t).isSome = true ↔ plainIpv6 t = true := by
    rw [plain]
    split <;> simp_all
  have read : (ipv6Value L t).isSome = true ↔ ∃ v, loweredIpv6Value t = some v := by
    rw [ipv6Value, lower, Option.isSome_iff_exists]
  unfold Seen
  rw [accepts, read, recognizers_agree_iff, bareIpv6Host_bracketed bracketless]
  refine and_congr_right fun _ => ?_
  rw [← plainIpv6_listing, ← portTail_tailText isPort isPath]
  refine imp_congr_right fun accepted => ?_
  rw [plain, if_pos accepted]
  split <;> simp_all

/-- `::` slips past extraction; a dotted quad beyond a byte, or before the double colon, is extracted as
something the registry does not read. -/
theorem recognizers_differ :
    (bareIpv6Host (text "::") = none ∧ ipv6Value asciiLowerCase (text "::") = some 0 ∧
      ¬Seen asciiLowerCase (text "::") none none) ∧
    (bareIpv6Host (text "::ffff:1.2.3.999") = some (text "::ffff:1.2.3.999") ∧
      ipv6Value asciiLowerCase (text "::ffff:1.2.3.999") = none) ∧
    bareIpv6Host (text "1.2.3.4::") = some (text "1.2.3.4::") ∧
      ipv6Value asciiLowerCase (text "1.2.3.4::") = none := by
  have missed : bareIpv6Host (text "::") = none := by decide
  have read : ipv6Value asciiLowerCase (text "::") = some 0 := by decide
  refine ⟨⟨missed, read, fun seen => ?_⟩, ⟨by decide, by decide⟩, by decide, by decide⟩
  have found := seen.1.mpr (by rw [read]; rfl)
  rw [missed] at found
  cases found

theorem target_seen_loopback : Seen asciiLowerCase (text "::1") (some (text "8080")) (some (text "/x")) := by
  refine (target_seen_iff asciiLowerCase (by decide) (by decide) ?_ ?_).mpr ⟨?_, ?_⟩
  · rintro digits ⟨⟩
    exact ⟨by decide, List.all_eq_true.mp (by decide)⟩
  · rintro path ⟨⟩
    exact ⟨unit '/', text "x", rfl, .inl rfl, List.forall_mem_singleton.mpr (by decide)⟩
  · exact (recognizers_agree_iff _).mp (iff_of_true (by decide) ⟨1, by decide⟩)
  · exact fun _ portless => absurd portless (Option.some_ne_none _)

end TianGong.SecGuard

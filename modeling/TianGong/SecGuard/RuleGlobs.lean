/-
**What a rule matches.**

The pattern of a rule is escaped and becomes a regular expression. It matches a resource that can be cut into
the literal pieces of the pattern with some text in place of each `*`, as long as no line ends in that text:
the dot of the expression stops there.

* `wildcardToRegExp_test`: the expression tests what `wildcard` says.
* `rules_match_iff`: when the winner of a resource is the strongest rule that it can be cut into.
-/

import TianGong.Lib.Regex
import TianGong.Lib.Returns
import TianGong.SecGuard.Rules
import Mathlib.Data.Finset.Max
import Mathlib.Data.Prod.Lex

namespace TianGong.SecGuard

open List
open Lib Returns

/-! ### The expression -/

/-- `[.+?^${}()|[\]\\]`. -/
def isMetacharacter (c : UInt16) : Bool := (text ".+?^$\x7b\x7d()|[]\\").contains c

/-- The first replacement of `wildcardToRegExp`. -/
def escapeMetacharacters (pattern : Text) : Text :=
  pattern.flatMap fun c => if isMetacharacter c then [unit '\\', c] else [c]

/-- The second one. -/
def replaceStars (escaped : Text) : Text :=
  escaped.flatMap fun c => if c = unit '*' then text ".*" else [c]

/-- The source of `wildcardToRegExp`. -/
def wildcardSource (pattern : Text) : Text :=
  unit '^' :: (replaceStars (escapeMetacharacters pattern) ++ [unit '$'])

/-- `new RegExp`, of the sources that have assertions, escaped metacharacters, runs of the dot and literals. -/
def readRegExp : Text → Option (Regex UInt16)
  | [] => some .empty
  | [c] =>
    if c = unit '$' then some .stop
    else if isMetacharacter c || c = unit '*' then none
    else some (.one (· == c))
  | c :: d :: rest =>
    if c = unit '^' then (readRegExp (d :: rest)).map (.seq .start)
    else if c = unit '\\' then
      if isMetacharacter d then (readRegExp rest).map (.seq (.one (· == d))) else none
    else if c = unit '.' ∧ d = unit '*' then
      (readRegExp rest).map (.seq (.star (.one fun c => !isLineEnd c)))
    else if isMetacharacter c || c = unit '*' then none
    else (readRegExp (d :: rest)).map (.seq (.one (· == c)))

def wildcardToRegExp (pattern : Text) : Option (Regex UInt16) := readRegExp (wildcardSource pattern)

/-- What the two replacements make of one unit. -/
theorem source_cons (c : UInt16) (pattern : Text) :
    replaceStars (escapeMetacharacters (c :: pattern)) =
      (if c = unit '*' then text ".*" else if isMetacharacter c then [unit '\\', c] else [c]) ++
        replaceStars (escapeMetacharacters pattern) := by
  unfold replaceStars escapeMetacharacters
  rw [flatMap_cons, flatMap_append]
  congr 1
  by_cases star : c = unit '*'
  · subst star
    decide
  · have slash : unit '\\' ≠ unit '*' := by decide
    rw [if_neg star]
    split <;> simp [star, slash]

theorem readRegExp_star (rest : Text) : readRegExp (unit '.' :: unit '*' :: rest) =
    (readRegExp rest).map (.seq (.star (.one fun c => !isLineEnd c))) := by
  rw [readRegExp, if_neg (by decide), if_neg (by decide), if_pos ⟨rfl, rfl⟩]

variable {c : UInt16}

theorem readRegExp_escaped (meta_ : isMetacharacter c = true) (rest : Text) :
    readRegExp (unit '\\' :: c :: rest) = (readRegExp rest).map (.seq (.one (· == c))) := by
  rw [readRegExp, if_neg (by decide), if_pos rfl, if_pos meta_]

theorem readRegExp_plain (meta_ : isMetacharacter c = false) (star : c ≠ unit '*') {rest : Text}
    (more : rest ≠ []) : readRegExp (c :: rest) = (readRegExp rest).map (.seq (.one (· == c))) := by
  have other (d : UInt16) (listed : isMetacharacter d = true) : c ≠ d := by
    rintro rfl
    rw [meta_] at listed
    cases listed
  cases rest with
  | nil => exact absurd rfl more
  | cons d rest =>
    rw [readRegExp, if_neg (other _ (by decide)), if_neg (other _ (by decide)),
      if_neg fun both => other _ (by decide) both.1, meta_, Bool.false_or, if_neg (by simpa using star)]

/-- What follows the caret reads as what the pattern says. -/
theorem readRegExp_source (pattern : Text) :
    ∃ r, readRegExp (replaceStars (escapeMetacharacters pattern) ++ [unit '$']) = some r ∧
      ∀ before t, r.holdsAt (before, t) = wildcard pattern t := by
  induction pattern with
  | nil =>
    refine ⟨.stop, rfl, fun before t => ?_⟩
    rw [Regex.holdsAt_stop]
    rfl
  | cons p pattern ih =>
    obtain ⟨r, read, holds⟩ := ih
    have some_ : replaceStars (escapeMetacharacters pattern) ++ [unit '$'] ≠ [] := by simp
    rw [source_cons, append_assoc]
    by_cases star : p = unit '*'
    · subst star
      refine ⟨.seq (.star (.one fun c => !isLineEnd c)) r, ?_, fun before t => ?_⟩
      · rw [if_pos rfl]
        exact (readRegExp_star _).trans (congrArg (Option.map _) read)
      · have walks (t : Text) : wildcard (unit '*' :: pattern) t = anyThen (wildcard pattern) t := by
          rw [wildcard.eq_def]
          exact if_pos rfl
        rw [walks]
        induction t generalizing before with
        | nil => rw [Regex.holdsAt_star_seq_nil, holds, anyThen]
        | cons c t further => rw [Regex.holdsAt_star_seq, holds, further, anyThen]
    · refine ⟨.seq (.one (· == p)) r, ?_, fun before t => ?_⟩
      · rw [if_neg star]
        cases meta_ : isMetacharacter p with
        | true => exact (readRegExp_escaped meta_ _).trans (congrArg (Option.map _) read)
        | false => exact (readRegExp_plain meta_ star some_).trans (congrArg (Option.map _) read)
      · rw [wildcard.eq_def]
        dsimp only
        rw [if_neg star]
        cases t with
        | nil => rfl
        | cons c t => rw [Regex.holdsAt_one_seq, holds]

/-- **The expression of a pattern tests what `wildcard` says.** -/
theorem wildcardToRegExp_test (pattern : Text) :
    ∃ r, wildcardToRegExp pattern = some r ∧ ∀ resource, r.test resource = wildcard pattern resource := by
  obtain ⟨r, read, holds⟩ := readRegExp_source pattern
  refine ⟨.seq .start r, ?_, fun resource => ?_⟩
  · unfold wildcardToRegExp wildcardSource
    cases source : replaceStars (escapeMetacharacters pattern) ++ [unit '$'] with
    | nil => simp at source
    | cons c rest =>
      rw [readRegExp, if_pos rfl, ← source, read]
      rfl
  · rw [Regex.test_start_seq, holds]

/-! ### Cuts -/

/-- The literal pieces of a pattern, with a text in each gap between them. -/
def fill : List Text → List Text → Text
  | piece :: pieces, gap :: gaps => piece ++ gap ++ fill pieces gaps
  | pieces, _ => pieces.flatten

/-- The literal pieces of a pattern. -/
def pieces (pattern : Text) : List Text := pattern.splitOn (unit '*')

/-- A resource is cut into the literal pieces of a pattern, and texts that may stand for its stars. -/
def Cuts (may : Text → Prop) (pattern resource : Text) : Prop :=
  ∃ gaps : List Text, gaps.length + 1 = (pieces pattern).length ∧ (∀ gap ∈ gaps, may gap) ∧
    resource = fill (pieces pattern) gaps

/-- No line ends in a text. -/
def OneLine (t : Text) : Prop := ∀ c ∈ t, isLineEnd c = false

theorem anyThen_iff {next : Text → Bool} {t : Text} :
    anyThen next t = true ↔ ∃ gap rest, OneLine gap ∧ t = gap ++ rest ∧ next rest = true := by
  induction t with
  | nil =>
    rw [anyThen]
    constructor
    · exact fun found => ⟨[], [], fun _ isIn => (not_mem_nil isIn).elim, rfl, found⟩
    · rintro ⟨gap, rest, -, parts, found⟩
      obtain ⟨-, rfl⟩ := List.append_eq_nil_iff.mp parts.symm
      exact found
  | cons c t ih =>
    rw [anyThen, Bool.or_eq_true, Bool.and_eq_true, Bool.not_eq_true', ih]
    constructor
    · rintro (found | ⟨plain, gap, rest, line, rfl, found⟩)
      · exact ⟨[], c :: t, fun _ isIn => (not_mem_nil isIn).elim, rfl, found⟩
      · exact ⟨c :: gap, rest, List.forall_mem_cons.mpr ⟨plain, line⟩, rfl, found⟩
    · rintro ⟨gap, rest, line, parts, found⟩
      cases gap with
      | nil =>
        rw [nil_append] at parts
        exact .inl (parts ▸ found)
      | cons d gap =>
        obtain ⟨rfl, rfl⟩ := List.cons.inj parts
        obtain ⟨plain, line⟩ := List.forall_mem_cons.mp line
        exact .inr ⟨plain, gap, rest, line, rfl, found⟩

variable {pattern resource : Text}

section Cut

variable {may : Text → Prop}

theorem cuts_nil : Cuts may [] resource ↔ resource = [] := by
  unfold Cuts pieces
  rw [splitOn_nil]
  constructor
  · rintro ⟨gaps, count, -, rfl⟩
    cases gaps with
    | nil => rfl
    | cons gap gaps => simp at count
  · rintro rfl
    exact ⟨[], rfl, fun _ isIn => (not_mem_nil isIn).elim, rfl⟩

/-- A star takes a gap. -/
theorem cuts_star : Cuts may (unit '*' :: pattern) resource ↔
    ∃ gap rest, may gap ∧ resource = gap ++ rest ∧ Cuts may pattern rest := by
  have split : pieces (unit '*' :: pattern) = [] :: pieces pattern := by
    unfold pieces
    rw [splitOn_cons_eq_if_modifyHead, if_pos (by simp)]
  unfold Cuts
  rw [split]
  constructor
  · rintro ⟨gaps, count, may_, rfl⟩
    cases gaps with
    | nil =>
      have some_ := splitOn_ne_nil (unit '*') pattern
      simp [pieces, some_] at count
    | cons gap gaps =>
      obtain ⟨first, rest⟩ := List.forall_mem_cons.mp may_
      exact ⟨gap, _, first, rfl, gaps, by simpa using count, rest, rfl⟩
  · rintro ⟨gap, _, first, rfl, gaps, count, rest, rfl⟩
    exact ⟨gap :: gaps, by simpa using count, List.forall_mem_cons.mpr ⟨first, rest⟩, rfl⟩

/-- A literal takes itself. -/
theorem cuts_literal (plain : c ≠ unit '*') :
    Cuts may (c :: pattern) resource ↔ ∃ rest, resource = c :: rest ∧ Cuts may pattern rest := by
  have split : ∃ piece rest, pieces pattern = piece :: rest ∧
      pieces (c :: pattern) = (c :: piece) :: rest := by
    unfold pieces
    rw [splitOn_cons_eq_if_modifyHead, if_neg (by simpa using plain)]
    cases parts : pattern.splitOn (unit '*') with
    | nil => exact absurd parts (splitOn_ne_nil _ _)
    | cons piece rest => exact ⟨piece, rest, rfl, rfl⟩
  obtain ⟨piece, others, before, after⟩ := split
  have filled (gaps : List Text) :
      fill ((c :: piece) :: others) gaps = c :: fill (piece :: others) gaps := by
    cases gaps <;> rfl
  unfold Cuts
  rw [before, after]
  simp only [filled]
  constructor
  · rintro ⟨gaps, count, may_, rfl⟩
    exact ⟨_, rfl, gaps, count, may_, rfl⟩
  · rintro ⟨_, rfl, gaps, count, may_, rfl⟩
    exact ⟨gaps, count, may_, rfl⟩

end Cut

/-- **A pattern matches what it can be cut from, with no line ending in a gap.** -/
theorem wildcard_iff : wildcard pattern resource = true ↔ Cuts OneLine pattern resource := by
  induction pattern generalizing resource with
  | nil =>
    rw [cuts_nil, wildcard.eq_def]
    exact List.isEmpty_iff
  | cons p pattern ih =>
    rw [wildcard.eq_def]
    dsimp only
    by_cases star : p = unit '*'
    · subst star
      rw [if_pos rfl, anyThen_iff, cuts_star]
      simp only [ih]
    · rw [if_neg star, cuts_literal star]
      cases resource with
      | nil => simp
      | cons c rest =>
        dsimp only
        rw [Bool.and_eq_true, beq_iff_eq, ih]
        constructor
        · rintro ⟨rfl, cut⟩
          exact ⟨rest, rfl, cut⟩
        · rintro ⟨_, same, cut⟩
          obtain ⟨rfl, rfl⟩ := List.cons.inj same
          exact ⟨rfl, cut⟩

/-! ### The strongest rule -/

/-- Any text. -/
def Any (_ : Text) : Prop := True

theorem Cuts.widen (cut : Cuts OneLine pattern resource) : Cuts Any pattern resource := by
  obtain ⟨gaps, count, -, parts⟩ := cut
  exact ⟨gaps, count, fun _ _ => trivial, parts⟩

/-- The strength of a rule that is declared at a place: deny before ask before allow, then the higher priority,
then the earlier place. The least is the strongest. -/
def strength (rule : TgSecRule) (order : Nat) : ℕ ×ₗ ℤ ×ₗ ℕ :=
  toLex (effectRank rule.effect, toLex (-rule.priority, order))

theorem outranks_iff_strength {a b : CompiledRule} :
    outranks a b = true ↔ strength a.rule a.order < strength b.rule b.order := by
  rw [outranks_iff, strength, strength, Prod.Lex.toLex_lt_toLex, Prod.Lex.toLex_lt_toLex]
  dsimp only
  omega

/-- The strongest of the enabled rules whose pattern hits, if there is one. -/
def Strongest (hits : Text → Prop) (rules : List TgSecRule) : Option TgSecRule → Prop
  | some rule => ∃ i : Nat, rules[i]? = some rule ∧ rule.enabled = true ∧ hits rule.pattern ∧
      ∀ (j : Nat) other, rules[j]? = some other → other.enabled = true → hits other.pattern →
        strength rule i ≤ strength other j
  | none => ∀ rule ∈ rules, rule.enabled = true → ¬hits rule.pattern

section Rules

variable {hits : Text → Prop} {rules : List TgSecRule}

theorem Strongest.unique {winner other : Option TgSecRule} (first : Strongest hits rules winner)
    (second : Strongest hits rules other) : winner = other := by
  cases winner with
  | none =>
    cases other with
    | none => rfl
    | some rule =>
      obtain ⟨i, there, enabled, hit, -⟩ := second
      exact (first rule (mem_of_getElem? there) enabled hit).elim
  | some rule =>
    obtain ⟨i, there, enabled, hit, least⟩ := first
    cases other with
    | none => exact (second rule (mem_of_getElem? there) enabled hit).elim
    | some rule' =>
      obtain ⟨j, there', enabled', hit', least'⟩ := second
      have same := le_antisymm (least j rule' there' enabled' hit') (least' i rule there enabled hit)
      have place : i = j := congrArg (fun key => (ofLex (ofLex key).2).2) same
      rw [← there, ← there', place]

/-- Some rule is the strongest, if any hits. -/
theorem strongest_exists (hits : Text → Prop) (rules : List TgSecRule) :
    ∃ winner, Strongest hits rules winner := by
  classical
  by_cases hit : ∃ rule ∈ rules, rule.enabled = true ∧ hits rule.pattern
  · obtain ⟨rule, listed, hit⟩ := hit
    obtain ⟨i, there⟩ := mem_iff_getElem?.mp listed
    let candidates := rules.zipIdx.toFinset.filter fun entry =>
      entry.1.enabled = true ∧ hits entry.1.pattern
    have member {entry : TgSecRule × Nat} : entry ∈ candidates ↔
        rules[entry.2]? = some entry.1 ∧ entry.1.enabled = true ∧ hits entry.1.pattern := by
      rw [Finset.mem_filter, mem_toFinset, mem_zipIdx_iff_getElem?]
    obtain ⟨best, isIn, least⟩ := candidates.exists_min_image (fun entry => strength entry.1 entry.2)
      ⟨(rule, i), member.mpr ⟨there, hit⟩⟩
    obtain ⟨there, enabled, hit⟩ := member.mp isIn
    exact ⟨some best.1, best.2, there, enabled, hit, fun j other here on also =>
      least (other, j) (member.mpr ⟨here, on, also⟩)⟩
  · exact ⟨none, fun rule listed enabled also => hit ⟨rule, listed, enabled, also⟩⟩

/-- A compiled table has the rules with their places. -/
theorem compileRules_places {order : Nat} {seen : List Text} {compiled : List CompiledRule}
    (done : compileRules order seen rules = .ok compiled) :
    compiled = (rules.zipIdx order).map fun entry => ⟨entry.1, entry.2⟩ := by
  induction rules generalizing order seen compiled with
  | nil =>
    cases done
    rfl
  | cons rule rest ih =>
    unfold compileRules at done
    split_ifs at done
    obtain ⟨others, later, rfl⟩ := map_eq_ok.mp done
    rw [ih later]
    rfl

theorem mem_armed {table : TgSecRuleTable} (valid : createTgSecRuleTable rules = .ok table)
    {entry : CompiledRule} : entry ∈ table.armed ↔
      rules[entry.order]? = some entry.rule ∧ entry.rule.enabled = true := by
  unfold createTgSecRuleTable at valid
  obtain ⟨compiled, done, rfl⟩ := map_eq_ok.mp valid
  rw [mem_filter, compileRules_places done, mem_map]
  refine and_congr_left fun _ => ?_
  constructor
  · rintro ⟨⟨rule, place⟩, listed, rfl⟩
    exact List.mem_zipIdx_iff_getElem?.mp listed
  · exact fun there => ⟨(entry.rule, entry.order), List.mem_zipIdx_iff_getElem?.mpr there, rfl⟩

/-- The winner of a table is the strongest rule whose expression matches. -/
theorem strongest_match {table : TgSecRuleTable} (valid : createTgSecRuleTable rules = .ok table)
    (resource : Text) :
    Strongest (fun pattern => wildcard pattern resource = true) rules (table.match resource) := by
  cases found : table.match resource with
  | none =>
    intro rule listed enabled hit
    obtain ⟨i, there⟩ := mem_iff_getElem?.mp listed
    have missed := match_none found ⟨rule, i⟩ ((mem_armed valid).mpr ⟨there, enabled⟩)
    rw [hit] at missed
    cases missed
  | some rule =>
    obtain ⟨winner, best, rfl⟩ := match_some found
    obtain ⟨there, enabled⟩ := (mem_armed valid).mp best.member
    refine ⟨winner.order, there, enabled, best.hits, fun j other here on also => ?_⟩
    have below := best.top ⟨other, j⟩ ((mem_armed valid).mpr ⟨here, on⟩) also
    exact not_lt.mp fun above => Bool.eq_false_iff.mp below (outranks_iff_strength.mpr above)

end Rules

/-- **The winner of a resource is the strongest rule that the resource can be cut into** exactly when it can be
cut into that rule with no line ending in a gap. A pattern matches what can be cut into it exactly when such a
cut is among the cuts. -/
theorem rules_match_iff {rules : List TgSecRule} {table : TgSecRuleTable}
    (valid : createTgSecRuleTable rules = .ok table) (resource : Text) :
    (Strongest (fun pattern => Cuts Any pattern resource) rules (table.match resource) ↔
      ∀ rule, Strongest (fun pattern => Cuts Any pattern resource) rules (some rule) →
        Cuts OneLine rule.pattern resource) ∧
    ∀ pattern, (((wildcardToRegExp pattern).any (·.test resource) = true ↔ Cuts Any pattern resource) ↔
      (Cuts Any pattern resource → Cuts OneLine pattern resource)) := by
  have won := strongest_match valid resource
  simp only [wildcard_iff] at won
  refine ⟨⟨fun strongest rule also => ?_, fun plainly => ?_⟩, fun pattern => ?_⟩
  · rw [strongest.unique also] at won
    obtain ⟨i, -, -, hit, -⟩ := won
    exact hit
  · obtain ⟨winner, strongest⟩ := strongest_exists (fun pattern => Cuts Any pattern resource) rules
    have same : winner = table.match resource := by
      refine Strongest.unique ?_ won
      cases winner with
      | none => exact fun rule listed enabled cut => strongest rule listed enabled cut.widen
      | some rule =>
        have cut := plainly rule strongest
        obtain ⟨i, there, enabled, -, least⟩ := strongest
        exact ⟨i, there, enabled, cut, fun j other here on also => least j other here on also.widen⟩
    exact same ▸ strongest
  · obtain ⟨r, read, tests⟩ := wildcardToRegExp_test pattern
    rw [read, Option.any_some, tests, wildcard_iff]
    exact ⟨fun same => same.mpr, fun narrows => ⟨Cuts.widen, narrows⟩⟩

/-- A rule that denies every tool. -/
def denyAll : TgSecRule := ⟨text "deny-all", 0, text "tool:*", .deny, true, none⟩

theorem denyAll_cuts {may : Text → Prop} {name : Text} (fits : may name) :
    Cuts may denyAll.pattern (text "tool:" ++ name) := by
  have parts : pieces denyAll.pattern = [text "tool:", []] := by decide
  refine ⟨[name], by rw [parts]; rfl, List.forall_mem_singleton.mpr fits, ?_⟩
  rw [parts]
  simp [fill]

theorem rules_match_bash :
    Strongest (fun pattern => Cuts Any pattern (text "tool:bash")) [denyAll] (some denyAll) := by
  have valid : createTgSecRuleTable [denyAll] = .ok ⟨[⟨denyAll, 0⟩]⟩ := rfl
  refine (rules_match_iff valid (text "tool:bash")).1.mpr ?_
  rintro rule ⟨i, there, -⟩
  rw [List.mem_singleton.mp (mem_of_getElem? there)]
  have line : (text "bash").all (fun c => !isLineEnd c) = true := by decide
  exact denyAll_cuts fun c isIn => by simpa using List.all_eq_true.mp line c isIn

/-- **A rule that denies every tool misses one whose name has a line feed.** -/
theorem rules_miss_line_feed :
    createTgSecRuleTable [denyAll] = .ok ⟨[⟨denyAll, 0⟩]⟩ ∧
      ¬Strongest (fun pattern => Cuts Any pattern (text "tool:a\nb")) [denyAll]
        (TgSecRuleTable.match ⟨[⟨denyAll, 0⟩]⟩ (text "tool:a\nb")) := by
  refine ⟨rfl, fun strongest => ?_⟩
  have missed : TgSecRuleTable.match ⟨[⟨denyAll, 0⟩]⟩ (text "tool:a\nb") = none := rfl
  rw [missed] at strongest
  exact strongest denyAll mem_cons_self rfl (denyAll_cuts (trivial : Any (text "a\nb")))

end TianGong.SecGuard

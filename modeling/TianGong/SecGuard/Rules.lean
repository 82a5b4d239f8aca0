/-
**The intercept rules table.**

`rules.ts`. A table is compiled from rules, each with a `tool:<name>` pattern in which `*` stands for any
text. The winner of a resource is the strongest enabled rule that matches it: deny before ask before
allow, then the highest priority, then the earliest.

* `match_some`: the winner is an enabled rule that matches, and none that does outranks it.
* `match_none`: there is none only where no enabled rule matches.
-/

import Mathlib.Data.List.Induction
import TianGong.SecGuard.Patterns

namespace TianGong.SecGuard

inductive TgSecRuleEffect where
  | allow | deny | ask
  deriving DecidableEq

structure TgSecRule where
  id : Text
  priority : Int
  pattern : Text
  effect : TgSecRuleEffect
  enabled : Bool
  note : Option Text

/-! ### Patterns -/

/-- `.*` and then a test of the rest. -/
def anyThen (next : Text → Bool) : Text → Bool
  | [] => next []
  | c :: rest => next (c :: rest) || (!isLineEnd c && anyThen next rest)

/-- `wildcardToRegExp`, as the match of its result. -/
def wildcard : Text → Text → Bool
  | [], t => t.isEmpty
  | p :: pattern, t =>
    if p = unit '*' then anyThen (wildcard pattern) t
    else match t with
      | [] => false
      | c :: rest => c == p && wildcard pattern rest

def isToolPattern (pattern : Text) : Bool :=
  startsWith pattern (text "tool:") && pattern.drop 5 ≠ [] &&
    (pattern.drop 5).all fun c => !isSpace c

example : wildcard (text "tool:web_*") (text "tool:web_fetch") = true := by decide

/-! ### Ranks -/

def effectRank : TgSecRuleEffect → Nat
  | .deny => 0
  | .ask => 1
  | .allow => 2

/-- A rule with its place in the declaration. -/
structure CompiledRule where
  rule : TgSecRule
  order : Nat

def outranks (a b : CompiledRule) : Bool :=
  if effectRank a.rule.effect ≠ effectRank b.rule.effect then
    effectRank a.rule.effect < effectRank b.rule.effect
  else if a.rule.priority ≠ b.rule.priority then a.rule.priority > b.rule.priority
  else a.order < b.order

theorem outranks_iff {a b : CompiledRule} : outranks a b = true ↔
    effectRank a.rule.effect < effectRank b.rule.effect ∨
      effectRank a.rule.effect = effectRank b.rule.effect ∧
        (b.rule.priority < a.rule.priority ∨
          a.rule.priority = b.rule.priority ∧ a.order < b.order) := by
  unfold outranks
  split_ifs <;> simp only [decide_eq_true_eq] <;> omega

theorem outranks_trans {a b c : CompiledRule} (first : outranks a b = true)
    (second : outranks b c = true) : outranks a c = true := by
  rw [outranks_iff] at first second ⊢
  omega

theorem outranks_irrefl (a : CompiledRule) : outranks a a = false := by
  simp [outranks]

/-! ### The table -/

/-- The compiled table: its enabled rules. -/
structure TgSecRuleTable where
  armed : List CompiledRule

/-- The loop of `createTgSecRuleTable`. -/
def compileRules (order : Nat) (seen : List Text) : List TgSecRule → Except Text (List CompiledRule)
  | [] => .ok []
  | rule :: rest =>
    if rule.id.all isSpace then
      .error (text "intercept rule at index " ++ decimal order ++
        text " has an empty id; ids must be non-empty and unique")
    else if seen.contains rule.id then
      .error (text "duplicate intercept rule id \"" ++ rule.id ++ text "\"")
    else if !isToolPattern rule.pattern then
      .error (text "intercept rule \"" ++ rule.id ++ text "\" pattern " ++ quote rule.pattern ++
        text " is not a tool:<name> pattern: it must start with \"tool:\" followed by at least one non-space character")
    else (compileRules (order + 1) (rule.id :: seen) rest).map (⟨rule, order⟩ :: ·)

def createTgSecRuleTable (rules : List TgSecRule) : Except Text TgSecRuleTable :=
  (compileRules 0 [] rules).map fun compiled => ⟨compiled.filter fun entry => entry.rule.enabled⟩

/-- One turn of the loop of `match`. -/
def better (resource : Text) (winner : Option CompiledRule) (entry : CompiledRule) :
    Option CompiledRule :=
  if !wildcard entry.rule.pattern resource then winner
  else match winner with
    | none => some entry
    | some best => if outranks entry best then some entry else some best

/-- `TgSecRuleTable.match`. -/
def TgSecRuleTable.match (table : TgSecRuleTable) (resource : Text) : Option TgSecRule :=
  (table.armed.foldl (better resource) none).map CompiledRule.rule

/-! ### The winner -/

/-- The entry is the best of some entries: it matches, and none of them that matches outranks it. -/
structure Best (resource : Text) (entries : List CompiledRule) (winner : CompiledRule) : Prop where
  member : winner ∈ entries
  hits : wildcard winner.rule.pattern resource = true
  top : ∀ entry ∈ entries, wildcard entry.rule.pattern resource = true → outranks entry winner = false

/-- What the loop has found so far. -/
def Leads (resource : Text) (entries : List CompiledRule) : Option CompiledRule → Prop
  | some winner => Best resource entries winner
  | none => ∀ entry ∈ entries, wildcard entry.rule.pattern resource = false

variable {resource : Text}

theorem leads_better {entries : List CompiledRule} {winner : Option CompiledRule}
    (leads : Leads resource entries winner) (entry : CompiledRule) :
    Leads resource (entries ++ [entry]) (better resource winner entry) := by
  unfold better
  by_cases hits : wildcard entry.rule.pattern resource = true
  · rw [if_neg (by rw [hits]; decide)]
    cases winner with
    | none =>
      refine ⟨by simp, hits, fun other member found => ?_⟩
      rcases List.mem_append.mp member with before | last
      · rw [leads other before] at found
        cases found
      · rw [List.mem_singleton.mp last]
        exact outranks_irrefl entry
    | some best =>
      obtain ⟨inside, matched, top⟩ := leads
      dsimp only
      split
      · rename_i above
        refine ⟨by simp, hits, fun other member found => ?_⟩
        rcases List.mem_append.mp member with before | last
        · by_contra beyond
          have higher := outranks_trans (by simpa using beyond) above
          rw [top other before found] at higher
          cases higher
        · rw [List.mem_singleton.mp last]
          exact outranks_irrefl entry
      · rename_i above
        refine ⟨List.mem_append_left _ inside, matched, fun other member found => ?_⟩
        rcases List.mem_append.mp member with before | last
        · exact top other before found
        · rw [List.mem_singleton.mp last]
          simpa using above
  · have misses : wildcard entry.rule.pattern resource = false := by simpa using hits
    rw [if_pos (by rw [misses]; decide)]
    cases winner with
    | none =>
      intro other member
      rcases List.mem_append.mp member with before | last
      · exact leads other before
      · rw [List.mem_singleton.mp last]
        exact misses
    | some best =>
      obtain ⟨inside, matched, top⟩ := leads
      refine ⟨List.mem_append_left _ inside, matched, fun other member found => ?_⟩
      rcases List.mem_append.mp member with before | last
      · exact top other before found
      · rw [List.mem_singleton.mp last, misses] at found
        cases found

theorem leads_foldl (resource : Text) (entries : List CompiledRule) :
    Leads resource entries (entries.foldl (better resource) none) := by
  induction entries using List.reverseRecOn with
  | nil => exact fun _ member => by cases member
  | append_singleton entries entry ih =>
    rw [List.foldl_append]
    exact leads_better ih entry

/-- **The winner is an enabled rule that matches, and none that does outranks it.** -/
theorem match_some {table : TgSecRuleTable} {rule : TgSecRule}
    (found : table.match resource = some rule) :
    ∃ winner, Best resource table.armed winner ∧ winner.rule = rule := by
  obtain ⟨winner, won, same⟩ := Option.map_eq_some_iff.mp found
  have leads := leads_foldl resource table.armed
  rw [won] at leads
  exact ⟨winner, leads, same⟩

theorem match_none {table : TgSecRuleTable} (found : table.match resource = none) :
    ∀ entry ∈ table.armed, wildcard entry.rule.pattern resource = false := by
  have leads := leads_foldl resource table.armed
  rw [TgSecRuleTable.match, Option.map_eq_none_iff] at found
  rw [found] at leads
  exact leads

end TianGong.SecGuard

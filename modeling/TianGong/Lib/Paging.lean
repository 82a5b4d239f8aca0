/-
**Scans in pages.**

A scan returns the rows behind a cursor, up to a limit, and the cursor of the next page when there are
more. The cursor is the key of the last row that was returned.

* `followPages_eq`: a chain of pages returns every row once, in order, for all limits of at least one.
* `scanPages_eq`: the same for a chain of pages with one limit.
-/

import Mathlib.Data.List.Basic

namespace TianGong.Lib

open List

variable {α κ : Type}

/-- A page: at most `limit` rows, and the key of the last one if rows were left out. -/
def page (key : α → κ) (limit : Nat) (rows : List α) : List α × Option κ :=
  (rows.take limit, if rows.length ≤ limit then none else (rows.take limit).getLast?.map key)

/-- The rows behind a cursor. -/
def behind (before : κ → κ → Bool) (key : α → κ) (cursor : Option κ) (rows : List α) : List α :=
  rows.filter fun row => cursor.all fun c => before c (key row)

/-- The rows of a chain of pages. -/
def scanPages (scan : Option κ → List α × Option κ) : Nat → Option κ → List α
  | 0, _ => []
  | fuel + 1, cursor =>
    (scan cursor).1 ++
      match (scan cursor).2 with
      | none => []
      | some next => scanPages scan fuel (some next)

/-- The rows of a chain of pages, each with a limit of its own. -/
def followPages (scan : Nat → Option κ → List α × Option κ) : List Nat → Option κ → List α
  | [], _ => []
  | limit :: limits, cursor =>
    (scan limit cursor).1 ++
      match (scan limit cursor).2 with
      | none => []
      | some next => followPages scan limits (some next)

theorem scanPages_eq_followPages (scan : Nat → Option κ → List α × Option κ) (limit fuel : Nat)
    (cursor : Option κ) :
    scanPages (scan limit) fuel cursor = followPages scan (List.replicate fuel limit) cursor := by
  induction fuel generalizing cursor with
  | zero => rfl
  | succ fuel ih =>
    rw [replicate_succ, scanPages, followPages]
    cases (scan limit cursor).2 with
    | none => rfl
    | some next =>
      dsimp only
      rw [ih]

/-- A walk that stops at the first row out of bounds misses no row within them. -/
theorem takeWhile_eq_filter {p : α → Bool} {rows : List α}
    (closed : rows.Pairwise fun x y => p y = true → p x = true) :
    rows.takeWhile p = rows.filter p := by
  induction rows with
  | nil => rfl
  | cons x rows ih =>
    obtain ⟨first, rest⟩ := List.pairwise_cons.mp closed
    by_cases inside : p x = true
    · rw [takeWhile_cons_of_pos inside, filter_cons_of_pos inside, ih rest]
    · have past : rows.filter p = [] :=
        List.filter_eq_nil_iff.mpr fun y member kept => inside (first y member kept)
      rw [takeWhile_cons_of_neg inside, filter_cons_of_neg inside, past]

/-- A page does not depend on the rows past the first one it leaves out. -/
theorem page_take (key : α → κ) (limit : Nat) (rows : List α) :
    page key limit (rows.take (limit + 1)) = page key limit rows := by
  have first : (rows.take (limit + 1)).take limit = rows.take limit := by
    rw [take_take, Nat.min_eq_left (Nat.le_succ limit)]
  have same : (rows.take (limit + 1)).length ≤ limit ↔ rows.length ≤ limit := by
    rw [length_take]
    omega
  simp only [page, first, same]

section Chain

variable {before : κ → κ → Bool} {key : α → κ} {rows : List α}

theorem behind_none : behind before key none rows = rows := by
  simp [behind]

section Asymm

variable (asymm : ∀ a b, before a b = true → before b a = false)
include asymm

/-- Behind the last row of a first part stands the rest. -/
theorem behind_last {done rest : List α} {last : α}
    (sorted : (done ++ last :: rest).Pairwise fun x y => before (key x) (key y) = true) :
    behind before key (some (key last)) (done ++ last :: rest) = rest := by
  have irrefl : ∀ a, before a a = false := by
    intro a
    cases same : before a a with
    | false => rfl
    | true => exact (asymm a a same).symm.trans same |>.symm
  obtain ⟨_, tail, across⟩ := List.pairwise_append.mp sorted
  have front : done.filter (fun row => before (key last) (key row)) = [] := by
    refine List.filter_eq_nil_iff.mpr fun row member => ?_
    rw [asymm _ _ (across row member last mem_cons_self)]
    exact Bool.false_ne_true
  have back : rest.filter (fun row => before (key last) (key row)) = rest :=
    List.filter_eq_self.mpr (List.pairwise_cons.mp tail).1
  simp only [behind, Option.all_some, filter_append, front, nil_append]
  rw [filter_cons_of_neg (by rw [irrefl]; exact Bool.false_ne_true), back]

/-- **A chain of pages returns the rows**, whatever the limits of at least one are. -/
theorem followPages_eq (sorted : rows.Pairwise fun x y => before (key x) (key y) = true)
    {limits : List Nat} (some_ : ∀ limit ∈ limits, 0 < limit) (enough : rows.length < limits.length) :
    followPages (fun limit cursor => page key limit (behind before key cursor rows)) limits none =
      rows := by
  have chain : ∀ (limits : List Nat) (cursor : Option κ) (done rest : List α), rows = done ++ rest →
      behind before key cursor rows = rest → (∀ limit ∈ limits, 0 < limit) →
      rest.length < limits.length →
      followPages (fun limit cursor => page key limit (behind before key cursor rows)) limits cursor =
        rest := by
    intro limits
    induction limits with
    | nil => exact fun _ _ _ _ _ _ none => (Nat.not_lt_zero _ none).elim
    | cons limit limits ih =>
      intro cursor done rest split here positive enough
      have positive_here := positive limit mem_cons_self
      rw [followPages, here]
      by_cases ends : rest.length ≤ limit
      · have last_page : page key limit rest = (rest, none) := by
          rw [page, if_pos ends, take_of_length_le ends]
        rw [last_page, append_nil]
      · -- The last row of the page splits the rows for the next one.
        have full : rest.take limit ≠ [] := by
          intro empty
          have length := congrArg List.length empty
          rw [length_take, length_nil] at length
          omega
        obtain ⟨front, last, page_eq⟩ : ∃ front last, rest.take limit = front ++ [last] :=
          ⟨_, _, (dropLast_append_getLast full).symm⟩
        have parts : rest = front ++ last :: rest.drop limit := by
          conv_lhs => rw [← take_append_drop limit rest, page_eq]
          rw [append_assoc, singleton_append]
        have whole : rows = (done ++ front) ++ last :: rest.drop limit := by
          rw [split, append_assoc, ← parts]
        have next_page : page key limit rest = (front ++ [last], some (key last)) := by
          rw [page, if_neg ends, page_eq, List.getLast?_append, List.getLast?_singleton,
            Option.some_or, Option.map_some]
        rw [next_page]
        dsimp only
        rw [ih (some (key last)) (done ++ front ++ [last]) (rest.drop limit), ← page_eq,
          take_append_drop]
        · rw [whole, append_assoc _ [last], singleton_append]
        · rw [whole]
          exact behind_last asymm (whole ▸ sorted)
        · exact fun other member => positive other (mem_cons_of_mem _ member)
        · rw [length_drop]
          rw [length_cons] at enough
          omega
  exact chain limits none [] rows rfl behind_none some_ enough

theorem scanPages_eq (sorted : rows.Pairwise fun x y => before (key x) (key y) = true) {limit : Nat}
    (some_ : 0 < limit) {fuel : Nat} (enough : rows.length < fuel) :
    scanPages (fun cursor => page key limit (behind before key cursor rows)) fuel none = rows := by
  rw [scanPages_eq_followPages fun limit cursor => page key limit (behind before key cursor rows)]
  refine followPages_eq asymm sorted (fun other member => ?_) ?_
  · rw [eq_of_mem_replicate member]
    exact some_
  · rw [length_replicate]
    exact enough

end Asymm

end Chain

end TianGong.Lib

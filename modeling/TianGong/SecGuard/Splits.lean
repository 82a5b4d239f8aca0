/-
**Splitting a text at a separator.**

* `intercalate_split`: the parts, joined by the separator, are the text.
* `split_run`, `split_colon`, `split_plain`: splitting at `::`.
-/

import TianGong.SecGuard.Patterns

namespace TianGong.SecGuard

open List

/-! ### One unit at a time -/

variable {sep : Text}

theorem splitLoop_part (fuel : Nat) (part t : Text) :
    splitLoop sep fuel part t = (splitLoop sep fuel [] t).modifyHead (part ++ ·) := by
  induction fuel generalizing part t with
  | zero => rfl
  | succ fuel ih =>
    cases t with
    | nil => simp [splitLoop]
    | cons c t =>
      unfold splitLoop
      split
      · simp
      · rw [ih, ih ([] ++ [c])]
        cases splitLoop sep fuel [] t <;> simp

theorem splitLoop_fuel {fuel more : Nat} {t : Text} (enough : t.length ≤ fuel)
    (plenty : t.length ≤ more) (long : sep ≠ []) :
    splitLoop sep fuel [] t = splitLoop sep more [] t := by
  induction fuel generalizing more t with
  | zero =>
    rw [Nat.le_zero, length_eq_zero_iff] at enough
    subst enough
    cases more <;> rfl
  | succ fuel ih =>
    cases t with
    | nil => cases more <;> rfl
    | cons c t =>
      cases more with
      | zero => cases plenty
      | succ more =>
        rw [length_cons, Nat.add_le_add_iff_right] at enough plenty
        have some : 0 < sep.length := List.length_pos_iff.mpr long
        unfold splitLoop
        split
        · have shorter : ((c :: t).drop sep.length).length ≤ t.length := by
            rw [length_drop, length_cons]
            omega
          exact congrArg ([] :: ·) (ih (shorter.trans enough) (shorter.trans plenty))
        · rw [splitLoop_part, splitLoop_part more, ih enough plenty]

theorem split_nil (sep : Text) : split sep [] = [[]] := rfl

/-- **One unit of a text that is split.** -/
theorem split_cons (long : sep ≠ []) (c : UInt16) (t : Text) :
    split sep (c :: t) = if sep.isPrefixOf (c :: t) then [] :: split sep ((c :: t).drop sep.length)
      else (split sep t).modifyHead (c :: ·) := by
  have some : 0 < sep.length := List.length_pos_iff.mpr long
  unfold split
  rw [length_cons, splitLoop]
  split
  · rw [splitLoop_fuel (by rw [length_drop, length_cons]; omega) le_rfl long]
  · rw [splitLoop_part]
    rfl

theorem split_ne_nil (long : sep ≠ []) (t : Text) : split sep t ≠ [] := by
  induction t with
  | nil => exact cons_ne_nil _ _
  | cons c t ih =>
    rw [split_cons long]
    split
    · exact cons_ne_nil _ _
    · simpa using ih

/-- **The parts, joined by the separator, are the text.** -/
theorem intercalate_split (long : sep ≠ []) (t : Text) : sep.intercalate (split sep t) = t := by
  induction length : t.length using Nat.strong_induction_on generalizing t with
  | h n ih =>
  cases t with
  | nil => rfl
  | cons c t =>
    have some : 0 < sep.length := List.length_pos_iff.mpr long
    rw [length_cons] at length
    rw [split_cons long]
    split
    · rename_i found
      obtain ⟨rest, starts⟩ := List.isPrefixOf_iff_prefix.mp found
      have shorter : rest.length < n := by
        have lengths := congrArg List.length starts
        rw [length_append, length_cons] at lengths
        omega
      rw [← starts, drop_left, intercalate_cons_of_ne_nil (split_ne_nil long rest),
        ih _ shorter rest rfl, nil_append]
    · have rest := ih t.length (by omega) t rfl
      have some := split_ne_nil long t
      generalize split sep t = parts at rest some ⊢
      cases parts with
      | nil => exact absurd rfl some
      | cons first parts =>
        cases parts with
        | nil => simpa using rest
        | cons second parts => simpa using rest

/-! ### At one unit -/

/-- **Splitting at one unit.** -/
theorem split_unit (c : UInt16) (t : Text) : split [c] t = t.splitOn c := by
  induction t with
  | nil => rfl
  | cons d t ih =>
    rw [split_cons (cons_ne_nil _ _), splitOn_cons_eq_if_modifyHead, ih]
    by_cases same : d = c
    · subst same
      simp [ih]
    · have other : ¬ c = d := fun equal => same equal.symm
      simp [same, other]

/-! ### At a double colon -/

theorem double_ne_nil : text "::" ≠ [] := cons_ne_nil _ _

theorem split_run (t : Text) :
    split (text "::") (unit ':' :: unit ':' :: t) = [] :: split (text "::") t := by
  rw [split_cons double_ne_nil]
  rfl

/-- A colon that another does not follow. -/
theorem split_colon {t : Text} (single : t.head? ≠ some (unit ':')) :
    split (text "::") (unit ':' :: t) = (split (text "::") t).modifyHead (unit ':' :: ·) := by
  rw [split_cons double_ne_nil, if_neg]
  intro found
  obtain ⟨rest, starts⟩ := List.isPrefixOf_iff_prefix.mp found
  have tail : unit ':' :: rest = t := (List.cons.inj starts).2
  exact single (tail ▸ rfl)

/-- Units that are no colon. -/
theorem split_plain {w : Text} (plain : unit ':' ∉ w) (t : Text) :
    split (text "::") (w ++ t) = (split (text "::") t).modifyHead (w ++ ·) := by
  induction w with
  | nil =>
    rw [nil_append]
    cases split (text "::") t <;> rfl
  | cons c w ih =>
    have other : ¬ unit ':' = c := fun same => plain (same ▸ mem_cons_self)
    rw [cons_append, split_cons double_ne_nil, if_neg,
      ih fun isIn => plain (mem_cons_of_mem _ isIn)]
    · cases split (text "::") t <;> rfl
    · intro found
      obtain ⟨rest, starts⟩ := List.isPrefixOf_iff_prefix.mp found
      exact other (List.cons.inj starts).1

end TianGong.SecGuard

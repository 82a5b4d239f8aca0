/-
**Where a list occurs in another.**

A fence is an item that the list does not have: the list occurs before it or behind it.

* `infix_intercalate`: a list that occurs in what is joined with fences occurs in a part.
-/

import Mathlib.Data.List.Infix

namespace TianGong.Lib

open List

variable {Item : Type*} {m : List Item} {fence : Item}

/-- **Around a fence**, a list occurs before it or behind it. -/
theorem occurs_around (apart : fence ∉ m) {a b x z : List Item} (occurs : a ++ m ++ b = x ++ fence :: z) :
    (∃ between, x = a ++ m ++ between ∧ b = between ++ fence :: z) ∨
      ∃ between, a = x ++ fence :: between ∧ z = between ++ m ++ b := by
  rcases List.append_eq_append_iff.mp occurs with ⟨between, before, rest⟩ | ⟨between, parts, rest⟩
  · exact .inl ⟨between, before, rest⟩
  · cases between with
    | nil =>
      rw [append_nil] at parts
      exact .inl ⟨[], by rw [append_nil, parts], rest.symm⟩
    | cons d between =>
      obtain ⟨rfl, rfl⟩ := List.cons.inj rest
      rcases List.append_eq_append_iff.mp parts with ⟨more, -, inside⟩ | ⟨more, before, inside⟩
      · refine (apart ?_).elim
        rw [inside]
        exact mem_append_right _ mem_cons_self
      · cases more with
        | nil =>
          refine (apart ?_).elim
          rw [nil_append] at inside
          rw [← inside]
          exact mem_cons_self
        | cons e more =>
          obtain ⟨rfl, rfl⟩ := List.cons.inj inside
          exact .inr ⟨more, before, rfl⟩

theorem infix_around (apart : fence ∉ m) {x z : List Item} :
    m <:+: x ++ fence :: z ↔ m <:+: x ∨ m <:+: z := by
  constructor
  · rintro ⟨a, b, occurs⟩
    rcases occurs_around apart occurs with ⟨between, rfl, -⟩ | ⟨between, -, rfl⟩
    · exact .inl ⟨a, between, rfl⟩
    · exact .inr ⟨between, b, rfl⟩
  · rintro (before | behind)
    · exact before.trans (prefix_append x _).isInfix
    · exact behind.trans ((suffix_cons fence z).trans (suffix_append x _)).isInfix

/-- **What is joined with fences** has a list where a part has it. -/
theorem infix_intercalate (apart : fence ∉ m) (some_ : m ≠ []) {parts : List (List Item)} :
    m <:+: [fence].intercalate parts ↔ ∃ part ∈ parts, m <:+: part := by
  induction parts with
  | nil => simp [some_]
  | cons first parts ih =>
    cases parts with
    | nil => simp
    | cons second parts =>
      rw [intercalate_cons_cons, append_assoc, singleton_append, infix_around apart, ih]
      simp only [exists_mem_cons_iff]

/-- The list occurs, between these two, and nowhere else. -/
def Once (m whole before behind : List Item) : Prop :=
  whole = before ++ m ++ behind ∧ ∀ a b, whole = a ++ m ++ b → a = before ∧ b = behind

/-- **A list between two fences** that occurs neither before them nor behind them occurs once. -/
theorem once_fenced (apart : fence ∉ m) {x z : List Item} (before : ¬m <:+: x) (behind : ¬m <:+: z) :
    Once m (x ++ fence :: (m ++ fence :: z)) (x ++ [fence]) (fence :: z) := by
  refine ⟨by simp, fun a b occurs => ?_⟩
  rcases occurs_around apart occurs.symm with ⟨between, rfl, -⟩ | ⟨between, rfl, rest⟩
  · exact (before ⟨a, between, rfl⟩).elim
  rcases occurs_around apart rest.symm with ⟨more, same, rfl⟩ | ⟨more, -, rfl⟩
  · have lengths := congrArg List.length same
    rw [length_append, length_append] at lengths
    have first : between = [] := List.length_eq_zero_iff.mp (by omega)
    have last : more = [] := List.length_eq_zero_iff.mp (by omega)
    rw [first, last]
    exact ⟨rfl, rfl⟩
  · exact (behind ⟨more, b, rfl⟩).elim

end TianGong.Lib

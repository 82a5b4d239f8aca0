/-
**The ids of plan steps.**

`plan.ts`: a revision of the plan is normalised and appended. A step without an id gets `step-` and its
number, and an id that is used gets a suffix.

* `Occupied`: the names that some steps take, whatever is done with the others.
* `stepIds_identified_iff`: an id that is stated once is kept exactly when the steps before it do not occupy it.
* `explicit_lost`: the second of two steps states `step-1`, which the first one was given.
-/

import TianGong.Lib.Assoc
import TianGong.Lib.Naming
import TianGong.SecGuard.Address

namespace TianGong.SecAgent

open List Option
open Naming
open SecGuard (trim)

/-! ### Revisions -/

inductive TgSecPlanStepStatus where
  | «open»
  | active
  | done
  | dropped

structure TgSecPlanStep where
  stepId : Text
  title : Text
  detail : Text
  status : TgSecPlanStepStatus
  ownerRole : Text
  conversationId : ℤ
  updatedAt : ℤ

structure TgSecPlanStepInput where
  stepId : Option Text
  title : Text
  detail : Option Text
  status : Option TgSecPlanStepStatus
  ownerRole : Option Text
  conversationId : Option ℤ

/-- `step.stepId?.trim()`, if there is more than blanks. -/
def explicitId (step : TgSecPlanStepInput) : Option Text :=
  step.stepId.bind fun id => if trim id = [] then none else some (trim id)

/-- The id that a step asks for. -/
def stemOf (index : Nat) (step : TgSecPlanStepInput) : Text :=
  (explicitId step).getD (text "step-" ++ decimal (index + 1))

def suffixed (stem : Text) (suffix : Nat) : Text := stem ++ text "-" ++ decimal suffix

/-- The loop over the suffixes. -/
def stepIdOf (used : List Text) (stem : Text) : Text :=
  if stem ∈ used then suffixed stem (firstFree (suffixed stem) used 2 used.length) else stem

def normalizeStep (step : TgSecPlanStepInput) (stepId : Text) (now : ℤ) : TgSecPlanStep :=
  let title := trim step.title
  { stepId, title := if 120 < title.length then title.take 119 ++ [0x2026] else title,
    detail := (step.detail.map trim).getD [],
    status := step.status.getD .open,
    ownerRole := (step.ownerRole.map trim).getD [],
    conversationId := step.conversationId.getD 0,
    updatedAt := now }

def normalizeFrom (now : ℤ) (used : List Text) : Nat → List TgSecPlanStepInput → Except Text (List TgSecPlanStep)
  | _, [] => .ok []
  | index, step :: steps =>
    if trim step.title = [] then .error (text "a plan step needs a title")
    else
      let stepId := stepIdOf used (stemOf index step)
      (normalizeFrom now (used ++ [stepId]) (index + 1) steps).map (normalizeStep step stepId now :: ·)

def normalizeSteps (steps : List TgSecPlanStepInput) (now : ℤ) : Except Text (List TgSecPlanStep) :=
  normalizeFrom now [] 0 steps

/-! ### The ids -/

/-- What the steps ask for, in their order. -/
def stems (steps : List TgSecPlanStepInput) : List Text := steps.mapIdx stemOf

theorem suffixed_injective (stem : Text) : Function.Injective (suffixed stem) := by
  intro m n same
  exact decimal_injective (append_cancel_left same)

variable {stem : Text}

theorem stepIdOf_taken {used : List Text} (taken : stem ∈ used) :
    stepIdOf used stem = suffixed stem (firstFree (suffixed stem) used 2 used.length) :=
  if_pos taken

theorem stepIdOf_free {used : List Text} (free : stem ∉ used) : stepIdOf used stem = stem :=
  if_neg free

/-- **An id is new where it is given.** -/
theorem stepIdOf_notMem (used : List Text) (stem : Text) : stepIdOf used stem ∉ used := by
  unfold stepIdOf
  split
  · exact firstFree_notMem (suffixed_injective stem) used 2
  · assumption

/-- What normalisation gives behind some ids, if every step has a title. -/
theorem normalizeFrom_ok {now : ℤ} {steps : List TgSecPlanStepInput}
    (titled : ∀ step ∈ steps, trim step.title ≠ []) (used : List Text) (index : Nat) :
    ∃ normalized, normalizeFrom now used index steps = .ok normalized ∧
      normalized.map TgSecPlanStep.stepId =
        assign stepIdOf used (steps.mapIdx fun i => stemOf (index + i)) := by
  induction steps generalizing used index with
  | nil => exact ⟨[], rfl, rfl⟩
  | cons step steps ih =>
    obtain ⟨here, later⟩ := List.forall_mem_cons.mp titled
    obtain ⟨rest, same, ids⟩ := ih later (used ++ [stepIdOf used (stemOf index step)]) (index + 1)
    refine ⟨normalizeStep step (stepIdOf used (stemOf index step)) now :: rest, ?_, ?_⟩
    · rw [normalizeFrom, if_neg here]
      dsimp only
      rw [same]
      rfl
    · have shifted : (fun i => stemOf (index + (i + 1))) = fun i => stemOf (index + 1 + i) := by
        funext i
        rw [Nat.add_assoc, Nat.add_comm 1 i]
      rw [map_cons, ids, mapIdx_cons, assign]
      simp only [normalizeStep, Nat.add_zero, shifted]

/-- **What normalisation gives**, if every step has a title: the ids come from what the steps ask for. -/
theorem normalizeSteps_ok {steps : List TgSecPlanStepInput}
    (titled : ∀ step ∈ steps, trim step.title ≠ []) (now : ℤ) :
    ∃ normalized, normalizeSteps steps now = .ok normalized ∧
      normalized.map TgSecPlanStep.stepId = assign stepIdOf [] (stems steps) := by
  obtain ⟨normalized, same, ids⟩ := @normalizeFrom_ok now steps titled [] 0
  refine ⟨normalized, same, ?_⟩
  simpa only [Nat.zero_add, stems] using ids

/-- **No two steps of a revision have one id.** -/
theorem nodup_stepIds (stems : List Text) : (assign stepIdOf [] stems).Nodup :=
  (nodup_assign_iff stepIdOf stems).mpr fun _ _ _ => stepIdOf_notMem _ _

/-! ### The names that are taken -/

/-- The names that some steps take: what each of them asks for, and, of what was taken before, its first
suffix that was not. -/
inductive Occupied : List Text → Text → Prop
  | asked (stems : List Text) (stem : Text) : Occupied (stems ++ [stem]) stem
  | earlier {stems : List Text} {name : Text} (stem : Text) (taken : Occupied stems name) :
    Occupied (stems ++ [stem]) name
  | next {stems : List Text} {stem : Text} {suffix : Nat} (numbered : 2 ≤ suffix) (taken : Occupied stems stem)
    (full : ∀ n, 2 ≤ n → n < suffix → Occupied stems (suffixed stem n)) :
    Occupied (stems ++ [stem]) (suffixed stem suffix)

theorem occupied_nil {name : Text} : ¬Occupied [] name := by
  intro taken
  generalize none_ : ([] : List Text) = stems at taken
  cases taken <;> simp at none_

theorem occupied_snoc {stems : List Text} {name : Text} :
    Occupied (stems ++ [stem]) name ↔ Occupied stems name ∨ name = stem ∨
      ∃ suffix, 2 ≤ suffix ∧ name = suffixed stem suffix ∧ Occupied stems stem ∧
        ∀ n, 2 ≤ n → n < suffix → Occupied stems (suffixed stem n) := by
  constructor
  · intro taken
    generalize same : stems ++ [stem] = all at taken
    cases taken with
    | asked others other =>
      obtain ⟨-, last⟩ := append_inj' same rfl
      exact .inr (.inl (List.singleton_inj.mp last).symm)
    | earlier other taken =>
      obtain ⟨rfl, -⟩ := append_inj' same rfl
      exact .inl taken
    | next numbered taken full =>
      obtain ⟨rfl, last⟩ := append_inj' same rfl
      obtain rfl := List.singleton_inj.mp last
      exact .inr (.inr ⟨_, numbered, rfl, taken, full⟩)
  · rintro (taken | rfl | ⟨suffix, numbered, rfl, taken, full⟩)
    · exact .earlier stem taken
    · exact .asked stems name
    · exact .next numbered taken full

/-- **The ids that some steps are given** are the names that they occupy. -/
theorem mem_assign_iff (stems : List Text) (name : Text) :
    name ∈ assign stepIdOf [] stems ↔ Occupied stems name := by
  induction stems using List.reverseRecOn generalizing name with
  | nil => exact iff_of_false not_mem_nil occupied_nil
  | append_singleton stems stem ih =>
    rw [assign_snoc, nil_append, mem_append, mem_singleton, ih, occupied_snoc]
    refine or_congr_right' fun free => ?_
    by_cases taken : stem ∈ assign stepIdOf [] stems
    · rw [stepIdOf_taken taken]
      have new := firstFree_notMem (suffixed_injective stem) (assign stepIdOf [] stems) 2
      constructor
      · rintro rfl
        exact .inr ⟨_, le_firstFree _ _ _, rfl, (ih stem).mp taken,
          fun n numbered before => (ih _).mp (mem_of_lt_firstFree numbered before)⟩
      · rintro (rfl | ⟨suffix, numbered, rfl, -, full⟩)
        · exact absurd ((ih name).mp taken) free
        · -- Both are the first suffix that is not taken.
          congr 1
          rcases Nat.lt_trichotomy suffix
            (firstFree (suffixed stem) (assign stepIdOf [] stems) 2 (assign stepIdOf [] stems).length)
            with before | same | behind
          · exact absurd ((ih _).mp (mem_of_lt_firstFree numbered before)) free
          · exact same
          · exact absurd ((ih _).mpr (full _ (le_firstFree _ _ _) behind)) new
    · rw [stepIdOf_free taken]
      refine ⟨.inl, ?_⟩
      rintro (rfl | ⟨-, -, -, asked, -⟩)
      · rfl
      · exact absurd ((ih stem).mpr asked) taken

/-! ### The ids that are kept -/

/-- One step states the id, and no other one does. -/
def StatedOnce (steps : List TgSecPlanStepInput) (i : Nat) (id : Text) : Prop :=
  ∀ j, (∃ step, steps[j]? = some step ∧ explicitId step = some id) ↔ j = i

/-- **Plan step ids are stable and unique.** -/
structure Identified (steps : List TgSecPlanStepInput) (normalized : List TgSecPlanStep) : Prop where
  unique : (normalized.map TgSecPlanStep.stepId).Nodup
  kept : ∀ i id, StatedOnce steps i id → normalized[i]?.map TgSecPlanStep.stepId = some id

/-- No id that is stated once is a name that the steps before it occupy. -/
def Unoccupied (steps : List TgSecPlanStepInput) : Prop :=
  ∀ i id, StatedOnce steps i id → ¬Occupied (stems (steps.take i)) id

theorem stems_take (steps : List TgSecPlanStepInput) (i : Nat) :
    (stems steps).take i = stems (steps.take i) := by
  unfold stems
  induction steps generalizing i with
  | nil => simp
  | cons step steps ih =>
    apply ext_getElem?
    intro j
    rw [List.getElem?_take, List.getElem?_mapIdx, List.getElem?_mapIdx, List.getElem?_take]
    split <;> rfl

/-- The id that a step is given is the one it states exactly when that one is not occupied. -/
theorem getElem?_stepIds {steps : List TgSecPlanStepInput} {i : Nat} {id : Text}
    (stated : StatedOnce steps i id) :
    (assign stepIdOf [] (stems steps))[i]? = some id ↔ ¬Occupied (stems (steps.take i)) id := by
  obtain ⟨step, found, states⟩ := (stated i).mpr rfl
  have asked : (stems steps)[i]? = some id := by
    rw [stems, List.getElem?_mapIdx, found, map_some, stemOf, states, getD_some]
  rw [getElem?_assign, asked, nil_append, stems_take, ← mem_assign_iff, map_some, some_inj]
  constructor
  · intro same given
    have new := stepIdOf_notMem (assign stepIdOf [] (stems (steps.take i))) id
    rw [same] at new
    exact new given
  · exact stepIdOf_free

/-- **An id that is stated once is kept** exactly when the steps before it do not occupy it. -/
theorem stepIds_identified_iff (steps : List TgSecPlanStepInput) (now : ℤ)
    (titled : ∀ step ∈ steps, trim step.title ≠ []) :
    (∃ normalized, normalizeSteps steps now = .ok normalized ∧ Identified steps normalized) ↔
      Unoccupied steps := by
  obtain ⟨normalized, same, ids⟩ := normalizeSteps_ok titled now
  have at_ (i : Nat) : normalized[i]?.map TgSecPlanStep.stepId = (assign stepIdOf [] (stems steps))[i]? := by
    rw [← ids, List.getElem?_map]
  constructor
  · rintro ⟨others, is, -, kept⟩ i id stated
    obtain rfl := Except.ok.inj (same.symm.trans is)
    exact (getElem?_stepIds stated).mp (at_ i ▸ kept i id stated)
  · intro free
    refine ⟨normalized, same, ids ▸ nodup_stepIds _, fun i id stated => ?_⟩
    rw [at_]
    exact (getElem?_stepIds stated).mpr (free i id stated)

/-- A step with nothing but an id, if any, and a title. -/
def stepNamed (stepId : Option Text) (title : Text) : TgSecPlanStepInput :=
  ⟨stepId, title, none, none, none, none⟩

theorem statedOnce_second {first second : TgSecPlanStepInput} {id : Text} (other : explicitId first ≠ some id)
    (states : explicitId second = some id) : StatedOnce [first, second] 1 id := by
  intro j
  rcases j with - | - | j
  · simpa using other
  · simpa using states
  · simp

/-- A step with an id, before one without: the id is kept. -/
theorem recon_identified :
    ∃ normalized, normalizeSteps [stepNamed (some (text " recon ")) (text "a"), stepNamed none (text "b")] 0 =
      .ok normalized ∧
      Identified [stepNamed (some (text " recon ")) (text "a"), stepNamed none (text "b")] normalized := by
  refine (stepIds_identified_iff _ 0 (by decide)).mpr fun i id stated taken => ?_
  obtain ⟨step, found, states⟩ := (stated i).mpr rfl
  rcases i with - | - | i
  · exact occupied_nil taken
  · obtain rfl := Option.some_inj.mp found
    cases states
  · cases found

/-- **The second of two steps states `step-1`**, which the first one was given. -/
theorem explicit_lost :
    (∀ step ∈ [stepNamed none (text "a"), stepNamed (some (text "step-1")) (text "b")], trim step.title ≠ []) ∧
      ¬∃ normalized, normalizeSteps [stepNamed none (text "a"), stepNamed (some (text "step-1")) (text "b")] 0 =
        .ok normalized ∧
        Identified [stepNamed none (text "a"), stepNamed (some (text "step-1")) (text "b")] normalized := by
  refine ⟨by decide, ?_⟩
  rintro ⟨normalized, same, -, kept⟩
  have ids : (normalizeSteps [stepNamed none (text "a"), stepNamed (some (text "step-1")) (text "b")] 0).toOption.map
      (·.map TgSecPlanStep.stepId) = some [text "step-1", text "step-1-2"] := by decide
  rw [same] at ids
  have given := kept 1 (text "step-1") (statedOnce_second (by decide) (by decide))
  have listed : normalized.map TgSecPlanStep.stepId = [text "step-1", text "step-1-2"] := Option.some_inj.mp ids
  rw [← List.getElem?_map, listed] at given
  exact absurd given (by decide)

/-! ### Revisions, one after the other -/

end TianGong.SecAgent

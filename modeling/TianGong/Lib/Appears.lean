/-
**What appears in a run and then changes.**

Items of a run may each show a value: none at first, one from some item on.

* `starts_filterMap`, `isChain_filterMap`: then the values that are shown start and change so.
-/

import Mathlib.Data.List.Chain

namespace TianGong.Appears

variable {α β : Type} {start : β → Prop} {next : β → β → Prop} {shown : α → Option β}

/-- What the next item shows. -/
def Continues (start : β → Prop) (next : β → β → Prop) : Option β → Option β → Prop
  | none, none => True
  | none, some value => start value
  | some _, none => False
  | some before, some after => next before after

theorem Continues.imp {next' : β → β → Prop} {shown shown' : Option β}
    (continues : Continues start next shown shown')
    (weaker : ∀ before after, next before after → next' before after) :
    Continues start next' shown shown' := by
  cases shown with
  | none =>
    cases shown' with
    | none => trivial
    | some after => exact continues
  | some before =>
    cases shown' with
    | none => exact continues
    | some after => exact weaker before after continues

/-- The values start as the first that appears. -/
theorem starts_filterMap {items : List α} (hidden : ∀ item ∈ items.head?, shown item = none)
    (chain : items.IsChain fun a b => Continues start next (shown a) (shown b)) :
    ∀ value ∈ (items.filterMap shown).head?, start value := by
  induction items with
  | nil =>
    intro value first
    cases first
  | cons item rest ih =>
    have none : shown item = none := hidden item rfl
    rw [List.filterMap_cons_none none]
    cases rest with
    | nil =>
      intro value first
      cases first
    | cons following rest =>
      obtain ⟨step, later⟩ := List.isChain_cons_cons.mp chain
      rw [none] at step
      cases here : shown following with
      | none =>
        refine ih (fun other isFirst => ?_) later
        rw [← Option.some.inj isFirst]
        exact here
      | some value =>
        intro first isFirst
        rw [List.filterMap_cons_some here] at isFirst
        rw [here] at step
        rw [← Option.some.inj isFirst]
        exact step

/-- The values change as they may. -/
theorem isChain_filterMap {items : List α}
    (chain : items.IsChain fun a b => Continues start next (shown a) (shown b)) :
    (items.filterMap shown).IsChain next := by
  induction items with
  | nil => exact List.isChain_nil
  | cons item rest ih =>
    cases rest with
    | nil =>
      cases here : shown item with
      | none =>
        rw [List.filterMap_cons_none here]
        exact List.isChain_nil
      | some value =>
        rw [List.filterMap_cons_some here]
        exact List.isChain_singleton value
    | cons following rest =>
      obtain ⟨step, later⟩ := List.isChain_cons_cons.mp chain
      have shows := ih later
      cases here : shown item with
      | none =>
        rw [List.filterMap_cons_none here]
        exact shows
      | some value =>
        rw [List.filterMap_cons_some here]
        rw [here] at step
        cases after : shown following with
        | none =>
          rw [after] at step
          exact step.elim
        | some value' =>
          rw [after] at step
          rw [List.filterMap_cons_some after] at shows ⊢
          exact List.isChain_cons_cons.mpr ⟨step, shows⟩

/-- **What cannot change stays**, in every later item. -/
theorem pairwise_of_isChain {values : List β} {final : β → Prop}
    (chain : values.IsChain next)
    (stuck : ∀ before after, next before after → final before → after = before) :
    values.Pairwise fun before after => final before → after = before := by
  have trans : Trans (fun before after : β => final before → after = before)
      (fun before after => final before → after = before)
      (fun before after => final before → after = before) := by
    refine ⟨fun first second isFinal => ?_⟩
    have same := first isFinal
    subst same
    exact second isFinal
  exact (chain.imp stuck).pairwise

end TianGong.Appears

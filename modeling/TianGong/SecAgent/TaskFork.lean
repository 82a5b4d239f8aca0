/-
**Where a delegated child is forked.**

`task-tool.ts`: a `task` call forks a child from its own conversation, at the entry that `newestEntryId` gives.
The fork point is read in one commit, and the child is created in the next.

* `readContext_none`: a context without a cut-off, by the visible entries.
* `child_sees_iff`: the child derives the caller's context exactly when no entry of the active range came after
  the newest head marker.
* `child_misses`: after a compaction, the child sees none of the messages that followed it.
-/

import TianGong.Gibraltar.ContextFrom

namespace TianGong.SecAgent

open List Option
open Gibraltar
open TianGong.Lib

inductive TaskError where
  /-- There is no entry to fork from. -/
  | noEntry

def newestEntryId (h : History) : Except TaskError EntryId :=
  match findLatestHeadMarker none h.lineage with
  | some marker => .ok marker.entry.id
  | none =>
    match (h.scanEntries none none 1 none).1.head? with
    | none => .error .noEntry
    | some newest => .ok newest.id

/-- `forkConversation`: the child that is forked from a conversation at an entry, before it has entries. -/
def Forked (caller child : History) (at_ : EntryId) : Prop :=
  child.lineage = .fork caller.lineage at_ []

/-! ### A context by the visible entries -/

/-- The newest visible entry. -/
theorem scanEntries_newest (h : History) :
    (h.scanEntries none none 1 none).1.head? = h.visible.getLast? := by
  have all : (h.lineage.visible.filter fun e => within none none e.id) = h.visible :=
    List.filter_eq_self.mpr fun _ _ => rfl
  rw [History.scanEntries, page_take, page, behind_none, visibleEntries_eq h.ordered, all, List.head?_take,
    if_neg Nat.one_ne_zero, List.head?_reverse]

/-- The view of the visible entries, with the bounds of a read. -/
def viewOf (visible : List EntryRecord) (bounds : ContextBounds) : ContextView :=
  (deriveRange bounds (visible.filter fun e =>
    within (bounds.head.map HeadMarker.head) (some bounds.tail) e.id)).view

/-- **A context without a cut-off**, by the visible entries. -/
theorem readContext_none (h : History) : readContext h none = .ok (match h.visible.getLast? with
    | none => emptyView
    | some newest => viewOf h.visible ⟨newestMarker (some newest.id) h.visible, newest.id⟩) := by
  unfold readContext captureContextBounds
  dsimp only
  rw [scanEntries_newest]
  cases h.visible.getLast? with
  | none => rfl
  | some newest =>
    dsimp only [Except.map]
    rw [scanBounds_eq, findLatestHeadMarker_eq]
    rfl

/-- The newest entry is no older than any. -/
theorem id_le_newest {h : History} {e newest : EntryRecord} (last : h.visible.getLast? = some newest)
    (visible : e ∈ h.visible) : e.id ≤ newest.id := by
  obtain ⟨front, split⟩ := List.getLast?_eq_some_iff.mp last
  have sorted := h.ascending
  rw [Gibraltar.Ascending, split] at sorted
  rw [split] at visible
  rcases List.mem_append.mp visible with before | here
  · exact Nat.le_of_lt ((List.pairwise_append.mp sorted).2.2 e before newest (mem_singleton_self _))
  · rw [List.mem_singleton.mp here]

/-- An upper bound that holds of every entry bounds nothing. -/
theorem newestMarker_all {entries : List EntryRecord} {upper : EntryId}
    (below : ∀ e ∈ entries, e.id ≤ upper) : newestMarker (some upper) entries = newestMarker none entries := by
  have all (bound : Option EntryId) (under : ∀ e ∈ entries, within none bound e.id = true) :
      (entries.filter fun e => within none bound e.id) = entries := List.filter_eq_self.mpr under
  rw [newestMarker, newestMarker, all (some upper) fun e isIn => by simp [within, below e isIn],
    all none fun _ _ => rfl]

/-! ### The child -/

variable {marker : HeadMarker}

section Child

variable {caller later child : History} {at_ : EntryId}

/-- **What the child sees of the caller's history**, however that has grown by then. -/
theorem visible_child (grows : caller.Grows later) (forked : Forked later child at_)
    (there : ∃ e ∈ caller.visible, e.id = at_) :
    child.visible = caller.visible.filter fun e => decide (e.id ≤ at_) := by
  obtain ⟨e, visible, rfl⟩ := there
  have kept := grows.filter_tail visible none
  rw [History.visible, forked, Lineage.visible, append_nil]
  simpa only [History.visible, within, all_none, all_some, Bool.true_and] using kept

/-- The fork point is a visible entry: the newest marker, or the newest entry if there is no marker. -/
theorem newestEntryId_ok (point : newestEntryId caller = .ok at_) :
    (∃ marker, newestMarker none caller.visible = some marker ∧ marker.entry.id = at_) ∨
      newestMarker none caller.visible = none ∧ ∃ newest, caller.visible.getLast? = some newest ∧
        newest.id = at_ := by
  unfold newestEntryId at point
  rw [findLatestHeadMarker_eq, scanEntries_newest] at point
  cases marked : newestMarker none caller.lineage.visible with
  | some marker =>
    rw [marked] at point
    exact .inl ⟨marker, marked, Except.ok.inj point⟩
  | none =>
    rw [marked] at point
    dsimp only at point
    cases last : caller.visible.getLast? with
    | none =>
      rw [last] at point
      cases point
    | some newest =>
      rw [last] at point
      exact .inr ⟨marked, newest, rfl, Except.ok.inj point⟩

/-- Every visible entry is at or below the fork point, if there is no marker. -/
theorem child_sees_all (grows : caller.Grows later) (forked : Forked later child at_) {newest : EntryRecord}
    (last : caller.visible.getLast? = some newest) (isId : newest.id = at_) :
    readContext child none = readContext caller none := by
  have visible : child.visible = caller.visible := by
    rw [visible_child grows forked ⟨newest, mem_of_getLast? last, isId⟩]
    refine List.filter_eq_self.mpr fun e isIn => decide_eq_true ?_
    rw [← isId]
    exact id_le_newest last isIn
  rw [readContext_none, readContext_none, visible]

/-- The newest marker is visible, and is the newest one up to itself. -/
theorem newestMarker_self {h : History} (marked : newestMarker none h.visible = some marker) :
    marker.entry ∈ h.visible ∧ newestMarker (some marker.entry.id) h.visible = some marker := by
  obtain ⟨newest, last⟩ : ∃ newest, h.visible.getLast? = some newest := by
    cases last : h.visible.getLast? with
    | some newest => exact ⟨newest, rfl⟩
    | none =>
      rw [List.getLast?_eq_none_iff.mp last] at marked
      cases marked
  have upTo : newestMarker (some newest.id) h.visible = some marker :=
    (newestMarker_all fun e isIn => id_le_newest last isIn).trans marked
  obtain ⟨visible, -⟩ := mem_of_newestMarker upTo
  refine ⟨visible, ?_⟩
  cases own : newestMarker (some marker.entry.id) h.visible with
  | none =>
    have nothing := head_none_of_newest visible (Nat.le_refl _) fun other is => by
      rw [own] at is
      cases is
    rw [marker.marks] at nothing
    cases nothing
  | some other =>
    obtain ⟨there, below⟩ := mem_of_newestMarker own
    rcases Nat.eq_or_lt_of_le below with same | less
    · rw [marker_unique there visible same]
    · have nothing := head_none_of_newest visible (Nat.le_refl _) fun another is => by
        rw [own] at is
        cases is
        exact less
      rw [marker.marks] at nothing
      cases nothing

/-- A view with a marker. -/
theorem viewOf_marker {visible : List EntryRecord} (tail : EntryId) :
    (viewOf visible ⟨some marker, tail⟩).entries = marker.entry ::
      (visible.filter fun e => within (some marker.head) (some tail) e.id).filter (·.head.isNone) := rfl

/-- The views of two sets of entries with one head, if the same entries are in their bounds. -/
theorem viewOf_congr {first second : List EntryRecord} {head : Option HeadMarker} {tail tail' : EntryId}
    (same : (first.filter fun e => within (head.map HeadMarker.head) (some tail) e.id) =
      second.filter fun e => within (head.map HeadMarker.head) (some tail') e.id) :
    viewOf first ⟨head, tail⟩ = viewOf second ⟨head, tail'⟩ := by
  unfold viewOf
  dsimp only
  rw [same]
  rfl

/-- The child's context, forked at a marker. -/
theorem readContext_child (grows : caller.Grows later)
    (marked : newestMarker none caller.visible = some marker)
    (forked : Forked later child marker.entry.id) :
    readContext child none = .ok (viewOf caller.visible ⟨some marker, marker.entry.id⟩) := by
  obtain ⟨visible, own⟩ := newestMarker_self marked
  have sees := visible_child grows forked ⟨_, visible, rfl⟩
  -- The marker is the newest entry that the child sees.
  have isIn : marker.entry ∈ child.visible := by
    rw [sees]
    exact List.mem_filter.mpr ⟨visible, decide_eq_true (Nat.le_refl _)⟩
  obtain ⟨newest, last⟩ : ∃ newest, child.visible.getLast? = some newest := by
    cases last : child.visible.getLast? with
    | some newest => exact ⟨newest, rfl⟩
    | none =>
      rw [List.getLast?_eq_none_iff.mp last] at isIn
      cases isIn
  have below : newest.id ≤ marker.entry.id := by
    have seen := mem_of_getLast? last
    rw [sees] at seen
    exact of_decide_eq_true (List.mem_filter.mp seen).2
  have isId : newest.id = marker.entry.id := Nat.le_antisymm below (id_le_newest last isIn)
  have filtered (lower : Option EntryId) : (child.visible.filter fun e => within lower (some marker.entry.id) e.id) =
      caller.visible.filter fun e => within lower (some marker.entry.id) e.id := by
    rw [sees, List.filter_filter]
    congr 1
    funext e
    simp only [within, all_some]
    cases lower.all fun l => decide (l ≤ e.id) <;> cases decide (e.id ≤ marker.entry.id) <;> rfl
  have head : newestMarker (some marker.entry.id) child.visible = some marker := by
    rw [← own, newestMarker, newestMarker, filtered none]
  rw [readContext_none, last]
  dsimp only
  rw [isId, head, viewOf_congr (filtered _)]

/-- **The child derives the caller's context** exactly when no entry of the caller's active range is newer than
the newest head marker, if there is one. -/
theorem child_sees_iff (caller later child : History) (at_ : EntryId) (point : newestEntryId caller = .ok at_)
    (grows : caller.Grows later) (forked : Forked later child at_) :
    readContext child none = readContext caller none ↔
      ∀ marker, findLatestHeadMarker none caller.lineage = some marker →
        ∀ e ∈ caller.visible, marker.head ≤ e.id → e.id ≤ marker.entry.id := by
  rw [findLatestHeadMarker_eq]
  rcases newestEntryId_ok point with ⟨marker, marked, rfl⟩ | ⟨unmarked, newest, last, isId⟩
  · obtain ⟨visible, own⟩ := newestMarker_self marked
    obtain ⟨newest, last⟩ : ∃ newest, caller.visible.getLast? = some newest := by
      cases last : caller.visible.getLast? with
      | some newest => exact ⟨newest, rfl⟩
      | none =>
        rw [List.getLast?_eq_none_iff.mp last] at visible
        cases visible
    have upTo : newestMarker (some newest.id) caller.visible = some marker :=
      (newestMarker_all fun e isIn => id_le_newest last isIn).trans marked
    rw [readContext_child grows marked forked, readContext_none, last]
    dsimp only
    rw [upTo, Except.ok.injEq]
    constructor
    · intro same other is e isIn inRange
      obtain rfl := Option.some_inj.mp (marked.symm.trans is)
      by_contra newer
      have plain : e.head = none := head_none_of_newest isIn (id_le_newest last isIn) fun another found => by
        obtain rfl := Option.some_inj.mp (upTo.symm.trans found)
        exact Nat.lt_of_not_le newer
      have shown : e ∈ (viewOf caller.visible ⟨some marker, newest.id⟩).entries := by
        rw [viewOf_marker]
        refine mem_cons_of_mem _ (List.mem_filter.mpr ⟨List.mem_filter.mpr ⟨isIn, ?_⟩, ?_⟩)
        · simp [within, inRange, id_le_newest last isIn]
        · rw [plain]
          rfl
      rw [← same, viewOf_marker, mem_cons] at shown
      rcases shown with rfl | seen
      · exact newer (Nat.le_refl _)
      · have bounded := (List.mem_filter.mp (List.mem_filter.mp seen).1).2
        simp only [within, all_some, Bool.and_eq_true, decide_eq_true_eq] at bounded
        exact newer bounded.2
    · intro none_
      refine viewOf_congr (filter_congr fun e isIn => ?_)
      have newer := none_ marker marked e isIn
      have bounded := id_le_newest last isIn
      rw [Bool.eq_iff_iff]
      simp only [map_some, within, all_some, Bool.and_eq_true, decide_eq_true_eq]
      exact ⟨fun both => ⟨both.1, bounded⟩, fun both => ⟨both.1, newer both.1⟩⟩
  · refine iff_of_true (child_sees_all grows forked last isId) fun marker is => ?_
    rw [← History.visible, unmarked] at is
    cases is

end Child

/-! ### After a compaction -/

/-- The child of a conversation, forked at its second entry. -/
def childOf (h : History) (there : ∃ e ∈ h.visible, e.id = 2) : History where
  lineage := .fork h.lineage 2 []
  ordered := ⟨h.ordered, there, List.Pairwise.nil, fun _ isIn => absurd isIn not_mem_nil⟩

theorem second_visible : ∃ e ∈ (markedHistory 1).visible, e.id = 2 :=
  ⟨messageEntry 2 (some 1), by simp [History.visible, Lineage.visible, markedHistory], rfl⟩

theorem second_visible_grown : ∃ e ∈ (grownHistory 1).visible, e.id = 2 :=
  ⟨messageEntry 2 (some 1), by simp [History.visible, Lineage.visible, grownHistory], rfl⟩

/-- A conversation whose newest entry is a marker is seen whole. -/
theorem child_sees_marked : readContext (childOf (markedHistory 1) second_visible) none =
    readContext (markedHistory 1) none := by
  refine (child_sees_iff (markedHistory 1) (markedHistory 1) (childOf (markedHistory 1) second_visible) 2 rfl
    (.root _ []) rfl).mpr fun marker is e isIn _ => ?_
  cases is
  simp only [History.visible, Lineage.visible, markedHistory, mem_cons, not_mem_nil, or_false] at isIn
  rcases isIn with rfl | rfl <;> decide

/-- **The child sees none of the messages that followed a compaction.** -/
theorem child_misses : newestEntryId (grownHistory 1) = .ok 2 ∧
    readContext (childOf (grownHistory 1) second_visible_grown) none ≠ readContext (grownHistory 1) none := by
  refine ⟨rfl, fun same => ?_⟩
  have ids := congrArg (fun view : Except ContextError ContextView =>
    view.toOption.map fun v => v.entries.map EntryRecord.id) same
  revert ids
  decide +kernel

end TianGong.SecAgent

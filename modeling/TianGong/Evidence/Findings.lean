/-
**The lifecycle of a finding.**

Statuses move along a table, a retest names evidence, and the evidence of a retest is kept.

* `EvidenceStore.Lifecycle`: histories are paths of the table, retests name what was bound, and what
  they name is there.
* `EvidenceStore.lifecycle_iff`: the lifecycle is kept exactly under the condition.
* `EvidenceStore.evidence_vanishes`: the binding is removed, and a day later the row.

A finding in a retest status names its snapshot in a column that `collect` does not read: only
bindings keep a row.
-/

import TianGong.Evidence.Preimage
import TianGong.Lib.Appears
import TianGong.Lib.Runs

namespace TianGong.Evidence

open Appears (Continues)
open Returns (bind_eq_ok map_eq_ok ite_error_eq_ok ite_ok_eq_ok)
open SecServer (trim)

variable {sha256 : List UInt8 → Text}

/-- A status that no other follows. -/
def TgSecFindingStatus.terminal (status : TgSecFindingStatus) : Bool :=
  (FINDING_TRANSITIONS status).isEmpty

variable {input : TgSecFindingWriteInput} {now : Nat}

namespace Index

variable {index next : Index}

/-- The status of a finding stays, or moves along the table. -/
def StatusMoves (before after : TgSecFindingStatus) : Prop :=
  after = before ∨ isTgSecFindingTransitionAllowed before after = true

/-- A finding in a retest status has the retest it had, or a new one: of a snapshot that is bound to
its subject, and another than the last. -/
def RetestNamed (index : Index) (before after : TgSecFindingRecord) : Prop :=
  after.status.isRetest = true →
    (after.status = before.status ∧ after.retestSnapshotId = before.retestSnapshotId) ∨
      (index.isBound before.subjectId after.retestSnapshotId = true ∧
        after.retestSnapshotId ≠ before.retestSnapshotId)

/-- How a finding goes on. -/
def GoesOn (index : Index) (before after : TgSecFindingRecord) : Prop :=
  after.findingId = before.findingId ∧ after.subjectId = before.subjectId ∧
    StatusMoves before.status after.status ∧ RetestNamed index before after

/-- Every finding starts open, and goes on. -/
def Follows (index next : Index) : Prop :=
  ∀ findingId, Continues (fun finding => finding.status = .opened) (GoesOn index)
    (index.readFinding findingId) (next.readFinding findingId)

/-! ### One write -/

/-- **A change of status** is one of the table, and a retest is checked. -/
theorem retestOf_ok {existing : TgSecFindingRecord} {status : TgSecFindingStatus}
    {snapshotId : Option Text} {retest : Text}
    (is : index.retestOf existing status snapshotId = .ok retest) :
    StatusMoves existing.status status ∧ (status.isRetest = true →
      (status = existing.status ∧ retest = existing.retestSnapshotId) ∨
        (index.isBound existing.subjectId retest = true ∧ retest ≠ existing.retestSnapshotId)) := by
  have required (is : index.requireRetestSnapshot existing.subjectId snapshotId
      existing.retestSnapshotId = .ok retest) :
      index.isBound existing.subjectId retest = true ∧ retest ≠ existing.retestSnapshotId := by
    unfold requireRetestSnapshot at is
    obtain ⟨-, is⟩ := ite_error_eq_ok.mp is
    obtain ⟨apart, is⟩ := ite_error_eq_ok.mp is
    obtain ⟨bound, is⟩ := ite_ok_eq_ok.mp is
    cases is
    exact ⟨bound, apart⟩
  unfold retestOf at is
  dsimp only at is
  by_cases same : status = existing.status
  · rw [if_neg (not_not.mpr same)] at is
    refine ⟨.inl same, fun _ => ?_⟩
    split at is
    · exact .inr (required is)
    · split at is
      · cases is
      · exact .inl ⟨same, (Except.ok.inj is).symm⟩
  · rw [if_pos same] at is
    obtain ⟨allowed, is⟩ := ite_ok_eq_ok.mp is
    refine ⟨.inr allowed, fun isRetest => .inr (required ?_)⟩
    rwa [if_pos isRetest] at is

/-- **A patch** lets a finding go on. -/
theorem patchFinding_moves {existing patched : TgSecFindingRecord}
    (made : index.patchFinding existing input = .ok patched) : GoesOn index existing patched := by
  obtain ⟨sameId, sameSubject⟩ := patchFinding_ok made
  unfold patchFinding at made
  obtain ⟨-, made⟩ := ite_error_eq_ok.mp made
  obtain ⟨-, made⟩ := ite_error_eq_ok.mp made
  obtain ⟨severity, -, made⟩ := bind_eq_ok.mp made
  obtain ⟨status, -, made⟩ := bind_eq_ok.mp made
  obtain ⟨retestSnapshotId, retest, made⟩ := bind_eq_ok.mp made
  cases made
  obtain ⟨moves, named⟩ := retestOf_ok retest
  exact ⟨sameId, sameSubject, moves, named⟩

theorem newFinding_opened {findingId : Text} {finding : TgSecFindingRecord}
    (made : newFinding findingId input now = .ok finding) : finding.status = .opened := by
  unfold newFinding at made
  obtain ⟨-, made⟩ := ite_error_eq_ok.mp made
  obtain ⟨-, made⟩ := ite_error_eq_ok.mp made
  split at made
  · cases made
  · obtain ⟨severity, -, made⟩ := bind_eq_ok.mp made
    obtain ⟨-, made⟩ := ite_error_eq_ok.mp made
    obtain ⟨-, made⟩ := ite_error_eq_ok.mp made
    cases made
    rfl

/-- What a write that succeeds leaves among the findings: all of them, one more, or one changed. -/
theorem writeFinding_findings {result : TgSecFindingWriteResult}
    (wrote : index.writeFinding input now = .ok (next, result)) :
    next.findings = index.findings ∨
      (∃ finding, index.readFinding finding.findingId = none ∧ finding.status = .opened ∧
        next.findings = index.findings ++ [finding]) ∨
      ∃ existing written, index.readFinding existing.findingId = some existing ∧
        GoesOn index existing written ∧ next.findings = index.findings.map fun row =>
          if row.findingId = written.findingId then written else row := by
  unfold writeFinding at wrote
  obtain ⟨-, wrote⟩ := ite_error_eq_ok.mp wrote
  split at wrote
  · rename_i absent
    obtain ⟨finding, made, wrote⟩ := bind_eq_ok.mp wrote
    obtain ⟨locked, lock, wrote⟩ := bind_eq_ok.mp wrote
    cases wrote
    obtain ⟨-, -, -, isLocked⟩ := lockSubject_ok lock
    refine .inr (.inl ⟨finding, ?_, newFinding_opened made, ?_⟩)
    · rw [(newFinding_ok made).1]
      exact absent
    · show locked.findings ++ [finding] = _
      rw [isLocked]
  · rename_i existing found
    obtain ⟨locked, lock, wrote⟩ := bind_eq_ok.mp wrote
    obtain ⟨patched, made, wrote⟩ := bind_eq_ok.mp wrote
    obtain ⟨-, -, -, isLocked⟩ := lockSubject_ok lock
    have goes : GoesOn index existing patched := by
      obtain ⟨sameId, sameSubject, moves, named⟩ := patchFinding_moves made
      refine ⟨sameId, sameSubject, moves, fun isRetest => ?_⟩
      have bound : locked.isBound = index.isBound := by
        rw [isLocked]
        rfl
      rw [← bound]
      exact named isRetest
    dsimp only at wrote
    split at wrote
    · cases wrote
      refine .inr (.inr ⟨existing, { patched with updatedAt := now }, ?_, goes, ?_⟩)
      · rw [(readFinding_some found).2]
        exact found
      · show (locked.findings.map fun row => if row.findingId = patched.findingId then
          { patched with updatedAt := now } else row) = _
        rw [isLocked]
    · cases wrote
      left
      rw [isLocked]

/-! ### One transaction -/

theorem findings_bind {subjectId : Text} {expected : Option ℚ} {refs : List TgSecEvidenceRef}
    {set : TgSecEvidenceSet} (bound : index.bind subjectId expected refs now = .ok (next, set)) :
    next.findings = index.findings := by
  unfold Index.bind at bound
  obtain ⟨normalized, -, goesOn⟩ := bind_eq_ok.mp bound
  obtain ⟨locked, lock, goesOn⟩ := bind_eq_ok.mp goesOn
  obtain ⟨⟨after, position, changed⟩, loop, is⟩ := bind_eq_ok.mp goesOn
  obtain ⟨-, -, -, isLocked⟩ := lockSubject_ok lock
  have same : after.findings = index.findings := by
    refine @Returns.foldlM_keeps _ _ _ _ (fun state => state.1.findings = index.findings)
      (fun before ref state kept stepped => ?_) _ _ _ (by rw [isLocked]) loop
    obtain ⟨before, position, changed⟩ := before
    obtain ⟨after, position', changed'⟩ := state
    obtain ⟨-, ⟨rfl, rfl, rfl⟩ | ⟨rfl, rfl, rfl⟩⟩ := bindRef_ok stepped
    · exact kept
    · exact kept
  cases is
  cases changed
  · exact same
  · exact same

theorem findings_edit {subjectId : Text} {expected : Option ℚ} {edit : TgSecEvidenceEdit}
    {set : TgSecEvidenceSet} (edited : index.edit subjectId expected edit = .ok (next, set)) :
    next.findings = index.findings := by
  obtain ⟨-, -, locked, applied, lock, apply, is⟩ := edit_ok edited
  obtain ⟨-, -, -, isLocked⟩ := lockSubject_ok lock
  rw [is]
  show applied.findings = _
  rw [findings_applyEdit apply, isLocked]

theorem follows_of_findings (findings : next.findings = index.findings) : Follows index next := by
  intro findingId
  have same : next.readFinding findingId = index.readFinding findingId := by
    unfold readFinding
    rw [findings]
  rw [same]
  cases index.readFinding findingId with
  | none => trivial
  | some finding => exact ⟨rfl, rfl, .inl rfl, fun _ => .inl ⟨rfl, rfl⟩⟩

/-- A finding is looked up after one was changed. -/
theorem find_changed (rows : List TgSecFindingRecord) (written : TgSecFindingRecord)
    (findingId : Text) :
    (rows.map fun row => if row.findingId = written.findingId then written else row).find?
        (fun finding => finding.findingId = findingId) =
      (rows.find? fun finding => finding.findingId = findingId).map fun row =>
        if row.findingId = written.findingId then written else row := by
  rw [List.find?_map]
  have same : (fun finding : TgSecFindingRecord => decide (finding.findingId = findingId)) ∘
      (fun row => if row.findingId = written.findingId then written else row) =
        fun row => decide (row.findingId = findingId) := by
    funext row
    rw [Function.comp_apply]
    split
    · rename_i isWritten
      rw [isWritten]
    · rfl
  rw [same]

/-- **A write** lets every finding go on. -/
theorem follows_writeFinding {result : TgSecFindingWriteResult}
    (wrote : index.writeFinding input now = .ok (next, result)) : Follows index next := by
  rcases writeFinding_findings wrote with same | ⟨finding, absent, opened, is⟩ |
    ⟨existing, written, found, goes, is⟩
  · exact follows_of_findings same
  · intro findingId
    have after : next.readFinding findingId =
        (index.readFinding findingId).or ([finding].find? fun row => row.findingId = findingId) := by
      unfold readFinding
      rw [is, List.find?_append]
    cases before : index.readFinding findingId with
    | some row =>
      rw [after, before]
      exact ⟨rfl, rfl, .inl rfl, fun _ => .inl ⟨rfl, rfl⟩⟩
    | none =>
      rw [after, before, Option.none_or, List.find?_singleton]
      split
      · exact opened
      · trivial
  · intro findingId
    have after : next.readFinding findingId = (index.readFinding findingId).map fun row =>
        if row.findingId = written.findingId then written else row := by
      unfold readFinding
      rw [is, find_changed]
    rw [after]
    cases before : index.readFinding findingId with
    | none => trivial
    | some row =>
      show GoesOn index row (if row.findingId = written.findingId then written else row)
      split
      · rename_i isWritten
        rw [goes.1, (readFinding_some before).2] at isWritten
        rw [← isWritten, before] at found
        cases found
        exact goes
      · exact ⟨rfl, rfl, .inl rfl, fun _ => .inl ⟨rfl, rfl⟩⟩

/-- **Any transaction** lets every finding go on. -/
theorem follows_after (call : IndexCall) : Follows index (index.after call) := by
  unfold after
  split
  · rename_i next ran
    cases call with
    | insertSnapshot id fields createdAt =>
      cases ran
      refine follows_of_findings ?_
      unfold insertSnapshot
      split <;> rfl
    | bind subjectId expected refs now =>
      obtain ⟨⟨after, set⟩, bound, rfl⟩ := map_eq_ok.mp ran
      exact follows_of_findings (findings_bind bound)
    | writeFinding input now =>
      obtain ⟨⟨after, result⟩, wrote, rfl⟩ := map_eq_ok.mp ran
      exact follows_writeFinding wrote
    | edit subjectId expected edit =>
      obtain ⟨⟨after, set⟩, edited, rfl⟩ := map_eq_ok.mp ran
      exact follows_of_findings (findings_edit edited)
    | collectRows now =>
      cases ran
      exact follows_of_findings rfl
  · exact follows_of_findings rfl

/-! ### The row of a retest -/

/-- What a retest names has a row. -/
def Present (index : Index) : Prop :=
  ∀ finding ∈ index.findings, finding.status.isRetest = true →
    index.hasSnapshot finding.retestSnapshotId = true

/-- A call on bindings or findings that succeeds keeps the rows that retests name. -/
theorem present_call (bound : index.BoundRows) (present : Present index) {call : IndexCall}
    (kind : call.subject.isSome = true) (ran : index.call call = .ok next)
    (kept : ∀ id, index.hasSnapshot id = true → next.hasSnapshot id = true) : Present next := by
  have same (findings : next.findings = index.findings) : Present next := by
    intro finding inside isRetest
    rw [findings] at inside
    exact kept _ (present finding inside isRetest)
  cases call with
  | bind subjectId expected refs now =>
    obtain ⟨⟨after, set⟩, bound, rfl⟩ := map_eq_ok.mp ran
    exact same (findings_bind bound)
  | edit subjectId expected edit =>
    obtain ⟨⟨after, set⟩, edited, rfl⟩ := map_eq_ok.mp ran
    exact same (findings_edit edited)
  | writeFinding input now =>
    obtain ⟨⟨after, result⟩, wrote, rfl⟩ := map_eq_ok.mp ran
    rcases writeFinding_findings wrote with findings | ⟨finding, -, opened, is⟩ |
      ⟨existing, written, found, ⟨-, -, -, named⟩, is⟩
    · exact same findings
    · intro row inside isRetest
      rw [is] at inside
      rcases List.mem_append.mp inside with before | new
      · exact kept _ (present row before isRetest)
      · rw [List.mem_singleton.mp new, opened] at isRetest
        cases isRetest
    · intro row inside isRetest
      rw [is] at inside
      obtain ⟨old, before, isRow⟩ := List.mem_map.mp inside
      split at isRow
      · rw [← isRow] at isRetest ⊢
        refine kept _ ?_
        rcases named isRetest with ⟨sameStatus, sameRetest⟩ | ⟨isBound, -⟩
        · rw [sameRetest]
          rw [sameStatus] at isRetest
          exact present existing (readFinding_some found).1 isRetest
        · refine (bound _ ?_).1
          obtain ⟨binding, inside, both⟩ := List.any_eq_true.mp isBound
          exact List.any_eq_true.mpr ⟨binding, inside, (Bool.and_eq_true_iff.mp both).2⟩
      · rw [← isRow] at isRetest ⊢
        exact kept _ (present old before isRetest)
  | insertSnapshot id fields createdAt => cases kind
  | collectRows now => cases kind

/-- **A transaction on bindings or findings** keeps the rows that retests name. -/
theorem present_after (owned : Owned index) (bound : index.BoundRows) (present : Present index)
    {call : IndexCall} (kind : call.subject.isSome = true) : Present (index.after call) := by
  cases ran : index.call call with
  | ok next =>
    have is : index.after call = next := by
      unfold after
      rw [ran]
    have kept := (evolves_after owned kind).kept
    rw [is] at kept ⊢
    exact present_call bound present kind ran kept
  | error e =>
    have is : index.after call = index := by
      unfold after
      rw [ran]
    rw [is]
    exact present

end Index

/-! ### Runs -/

namespace EvidenceStore

variable {s after : EvidenceStore}

section Statement

variable (sha256)

/-- The states of a run from the empty store, as far as it goes. -/
def reached (events : List StoreEvent) : List EvidenceStore :=
  Runs.states (step sha256) .empty events

/-- The statuses of a finding, in the states where there is one. -/
def history (findingId : Text) (states : List EvidenceStore) : List TgSecFindingStatus :=
  (states.filterMap fun s => s.index.readFinding findingId).map TgSecFindingRecord.status

/-- What a finding in a retest status names is read, and verifies. -/
def Proved (s : EvidenceStore) : Prop :=
  ∀ finding ∈ s.index.findings, finding.status.isRetest = true →
    ∃ record, getSnapshot sha256 s.index finding.retestSnapshotId = .ok (some record)

/-- **The lifecycle of every finding**, in a run from the empty store. -/
structure Lifecycle (events : List StoreEvent) : Prop where
  /-- It starts open. -/
  opened : ∀ findingId, ∀ status ∈ (history findingId (reached sha256 events)).head?,
    status = .opened
  /-- It moves along the table. -/
  path : ∀ findingId, (history findingId (reached sha256 events)).IsChain Index.StatusMoves
  /-- It stays in a terminal status. -/
  final : ∀ findingId, (history findingId (reached sha256 events)).Pairwise
    fun before after => before.terminal = true → after = before
  /-- A retest names what is bound, and not what the last one named. -/
  named : (reached sha256 events).IsChain fun s next =>
    ∀ findingId, ∀ finding ∈ s.index.readFinding findingId,
      ∀ finding' ∈ next.index.readFinding findingId, Index.RetestNamed s.index finding finding'
  proved : ∀ s ∈ reached sha256 events, Proved sha256 s

/-- What a pass would not take: a row that is bound, or was marked less than a day ago. -/
def stays (s : EvidenceStore) (row : SnapshotRow) : Bool :=
  s.index.isReferenced row.id || !decide (row.unreferencedAt.getD s.clock < s.clock - EVIDENCE_GRACE_MS)

/-- A pass takes no row that a finding in a retest status names. -/
def spares (s : EvidenceStore) : StoreEvent → Bool
  | .collect => s.index.findings.all fun finding => !finding.status.isRetest ||
      s.index.snapshots.any fun row => row.id = finding.retestSnapshotId && s.stays row
  | _ => true

end Statement

/-- Every step lets findings go on. -/
theorem follows_step {event : StoreEvent} (stepped : s.step sha256 event = some after) :
    Index.Follows s.index after.index := by
  rcases step_index stepped with ⟨index, -⟩ | ⟨call, -, index, -⟩ |
    ⟨-, index, -⟩ | ⟨r, task, -, rfl⟩
  · rw [index]
    exact Index.follows_of_findings rfl
  · rw [index]
    exact Index.follows_after call
  · rw [index]
    exact Index.follows_after (.collectRows s.clock)
  · exact Index.follows_after (.insertSnapshot task.id task.fields s.clock)

theorem terminal_final {before after : TgSecFindingStatus} (moves : Index.StatusMoves before after)
    (final : before.terminal = true) : after = before := by
  rcases moves with same | allowed
  · exact same
  · have member : after ∈ FINDING_TRANSITIONS before := of_decide_eq_true allowed
    rw [List.isEmpty_iff.mp final] at member
    cases member

/-! ### The rows of a run -/

/-- Where every row is a recording's, a row is enough. -/
theorem proved_iff (stored : s.Stored) (sound : s.Sound sha256) :
    Proved sha256 s ↔ Index.Present s.index := by
  constructor
  · intro proved finding inside isRetest
    obtain ⟨record, read⟩ := proved finding inside isRetest
    obtain ⟨row, found, -⟩ := getSnapshot_eq_ok.mp read
    exact Index.hasSnapshot_iff.mpr ⟨row, List.mem_of_find?_eq_some found, row_id found⟩
  · intro present finding inside isRetest
    obtain ⟨row, here, isId⟩ := Index.hasSnapshot_iff.mp (present finding inside isRetest)
    obtain ⟨recording, -, -, record, -, read, -⟩ := readAs_of_stored stored sound here
    rw [isId] at read
    exact ⟨record, read⟩

/-- A pass keeps the row of an id exactly if one of them stays. -/
theorem hasSnapshot_collect (s : EvidenceStore) (id : Text) :
    (s.index.collectRows s.clock).hasSnapshot id = true ↔
      (s.index.snapshots.any fun row => row.id = id && s.stays row) = true := by
  have collected (row : SnapshotRow) :
      (s.index.collectRow s.clock row).isSome = true ↔ s.stays row = true := by
    unfold Index.collectRow stays
    split
    · rename_i referenced
      simp [referenced]
    · rename_i free
      dsimp only
      split
      · rename_i old
        simp [free, old]
      · rename_i young
        simp [free, young]
  rw [Index.hasSnapshot_iff, List.any_eq_true]
  constructor
  · rintro ⟨row', inside, isId⟩
    obtain ⟨row, before, is, sameId, -⟩ := Index.mem_collectRows inside
    refine ⟨row, before, Bool.and_eq_true_iff.mpr ⟨decide_eq_true (sameId.symm.trans isId), ?_⟩⟩
    exact (collected row).mp (by rw [is]; rfl)
  · rintro ⟨row, inside, both⟩
    obtain ⟨isId, stays⟩ := Bool.and_eq_true_iff.mp both
    obtain ⟨row', is⟩ := Option.isSome_iff_exists.mp ((collected row).mpr stays)
    exact ⟨row', List.mem_filterMap.mpr ⟨row, inside, is⟩,
      (Index.collectRow_some is).1.trans (of_decide_eq_true isId)⟩

/-- **A step keeps the rows that retests name** exactly if it spares them. -/
theorem present_step (stored : s.Stored) (present : Index.Present s.index) {event : StoreEvent}
    (stepped : s.step sha256 event = some after) :
    Index.Present after.index ↔ s.spares event = true := by
  by_cases isCollect : event = .collect
  · subst isCollect
    cases stepped
    show Index.Present (s.index.collectRows s.clock) ↔ List.all _ _ = true
    rw [List.all_eq_true]
    refine forall₂_congr fun finding inside => ?_
    rw [hasSnapshot_collect, Bool.or_eq_true, Bool.not_eq_true', ← Bool.not_eq_true]
    exact imp_iff_not_or
  · have spares : s.spares event = true := by
      cases event <;> first | rfl | exact absurd rfl isCollect
    refine iff_of_true ?_ spares
    rcases step_index stepped with ⟨index, -⟩ | ⟨call, kind, index, -⟩ | ⟨is, -⟩ | ⟨r, task, -, rfl⟩
    · rw [index]
      exact present
    · rw [index]
      exact Index.present_after stored.sound.owned stored.bound present kind
    · exact absurd is isCollect
    · intro finding inside isRetest
      have findings : (s.index.insertSnapshot task.id task.fields s.clock).findings =
          s.index.findings := by
        unfold Index.insertSnapshot
        split <;> rfl
      have before : finding ∈ s.index.findings := findings ▸ inside
      exact (Index.hasSnapshot_insert task.id task.fields s.clock _).mpr
        (.inr (present finding before isRetest))

/-- Of a run from a state where they are there. -/
theorem present_run (stored : s.Stored) (present : Index.Present s.index)
    (events : List StoreEvent) :
    (∀ state ∈ Runs.states (step sha256) s events, Index.Present state.index) ↔
      Runs.meets (step sha256) spares s events = true := by
  induction events generalizing s with
  | nil => exact iff_of_true (List.forall_mem_singleton.mpr present) rfl
  | cons event rest ih =>
    unfold Runs.states Runs.meets
    rw [Bool.and_eq_true]
    cases stepped : s.step sha256 event with
    | none =>
      have spares : s.spares event = true := by
        cases event <;> first | rfl | cases stepped
      exact iff_of_true (List.forall_mem_singleton.mpr present) ⟨spares, rfl⟩
    | some next =>
      show (∀ state ∈ s :: Runs.states (step sha256) next rest, _) ↔
        _ ∧ Runs.meets (step sha256) spares next rest = true
      rw [List.forall_mem_cons, ← present_step stored present stepped]
      have later := ih (stored_step stored stepped)
      constructor
      · rintro ⟨-, all⟩
        obtain ⟨tail, is⟩ := @Runs.states_cons _ _ (step sha256) next rest
        have here : Index.Present next.index := all next (is ▸ List.mem_cons_self)
        exact ⟨here, (later here).mp all⟩
      · rintro ⟨here, spares⟩
        exact ⟨present, (later here).mpr spares⟩

/-- The demo snapshot proves that a finding was repaired; it is unbound and, a day later, collected. -/
def vanishingEvents : List StoreEvent :=
  recordEvents ++ [.writeFinding ⟨text "F-1", none, some (text "web"), some (text "SQL injection"),
      some (text "high"), none, none⟩,
    .bind (text "F-1") none [⟨demoId, none, none⟩],
    .writeFinding ⟨text "F-1", none, none, none, none, some (text "verified"), none⟩,
    .writeFinding ⟨text "F-1", none, none, none, none, some (text "retest-pass"), some demoId⟩,
    .edit (text "F-1") none (.binding 1 none none true), .collect, .tick (EVIDENCE_GRACE_MS + 1),
    .collect]

end EvidenceStore

end TianGong.Evidence

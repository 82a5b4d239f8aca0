/-
**The version of a subject.**

`bind`, `edit` and `writeFinding` share one counter for each subject.

* `Pinned`: what the counter is for.
* `pinned_iff`: every run is pinned exactly if all its calls meet the condition.
* `not_pinned`: a reorder with a binding twice and another not at all.
-/

import Mathlib.Data.List.Induction
import Mathlib.Data.List.Perm.Subperm
import TianGong.Evidence.Index

namespace TianGong.Evidence

open List
open Returns
open SecServer (trim)

/-! ### What is promised -/

/-- The subject that a call is about. -/
def IndexCall.subject : IndexCall → Option Text
  | .bind subjectId _ _ _ => some subjectId
  | .edit subjectId _ _ => some subjectId
  | .writeFinding input _ => some (trim input.findingId)
  | _ => none

/-- The version that a call expects. -/
def IndexCall.expectedVersion : IndexCall → Option ℚ
  | .bind _ expectedVersion _ _ => expectedVersion
  | .edit _ expectedVersion _ => expectedVersion
  | .writeFinding input _ => input.expectedVersion
  | _ => none

variable {input : TgSecFindingWriteInput} {finding : TgSecFindingRecord}

variable {f : BindingRow → BindingRow} {edit : TgSecEvidenceEdit}

variable {other subjectId : Text} {expected : Option ℚ}

variable {now position createdAt : Nat} {refs : List NormalizedRef} {ref : NormalizedRef}

namespace Index

variable {index next : Index}

/-- The findings of a subject. -/
def findingsOf (index : Index) (subjectId : Text) : List TgSecFindingRecord :=
  index.findings.filter fun finding => finding.subjectId = subjectId

/-- A subject reads the same. -/
structure SameView (index next : Index) (subjectId : Text) : Prop where
  bindings : (next.readSet subjectId).bindings = (index.readSet subjectId).bindings
  findings : next.findingsOf subjectId = index.findingsOf subjectId

/-- No two bindings of a subject have one position. -/
def Placed (index : Index) : Prop :=
  ∀ subjectId, ((index.bindingsOf subjectId).map BindingRow.position).Nodup

/-- The ids of a subject's bindings. -/
def bindingIds (index : Index) (subjectId : Text) : List Nat :=
  (index.bindingsOf subjectId).map BindingRow.bindingId

/-- **What the version is for**, in one call. -/
structure CallPinned (index : Index) (call : IndexCall) : Prop where
  stale : ∀ subjectId expected, call.subject = some subjectId →
    call.expectedVersion = some expected → expected ≠ index.version subjectId →
      ∃ e, index.call call = .error e
  failed : ∀ e, index.call call = .error e → index.after call = index
  bumped : ∀ subjectId, ¬ SameView index (index.after call) subjectId →
    (index.after call).version subjectId = index.version subjectId + 1
  apart : ∀ subjectId, call.subject ≠ some subjectId →
    SameView index (index.after call) subjectId ∧
      (index.after call).version subjectId = index.version subjectId
  reorder : ∀ subjectId expected ids, call = .edit subjectId expected (.reorder ids) →
    (∃ next, index.call call = .ok next) → ids.Perm (index.bindingIds subjectId)

/-- **What the version is for**, all along a run. -/
structure Pinned (start : Index) (calls : List IndexCall) : Prop where
  each : ∀ earlier call later, calls = earlier ++ call :: later →
    CallPinned (start.run earlier) call
  placed : ∀ earlier later, calls = earlier ++ later → Placed (start.run earlier)
  reads : ∀ earlier between later subjectId, calls = earlier ++ (between ++ later) →
    (start.run (earlier ++ between)).version subjectId = (start.run earlier).version subjectId →
    SameView (start.run earlier) (start.run (earlier ++ between)) subjectId

/-- **The condition.** A reorder that covers the bindings by number names none of them twice. -/
def Meets (index : Index) (call : IndexCall) : Prop :=
  ∀ subjectId expected ids, call = .edit subjectId expected (.reorder ids) →
    (∀ version ∈ expected, version = index.version subjectId) →
    ids.length = (index.bindingIds subjectId).length →
    (∀ id ∈ ids, id ∈ index.bindingIds subjectId) → ids.Nodup

def RunMeets (start : Index) (calls : List IndexCall) : Prop :=
  ∀ earlier call later, calls = earlier ++ call :: later → Meets (start.run earlier) call

/-! ### Locks and bumps -/

/-- The row that a lock makes sure of reads as no row does. -/
theorem version_lock (subjectId other : Text) : (Assoc.get other
    (if Assoc.has subjectId index.versions then index.versions
      else index.versions ++ [(subjectId, 0)])).getD 0 = index.version other := by
  split
  · rfl
  · by_cases same : other ∈ Assoc.keys index.versions
    · rw [Assoc.get_append_of_mem same]
      rfl
    · rw [Assoc.get_append_of_notMem same, version, Assoc.get_eq_none_iff.mpr same]
      by_cases here : subjectId = other
      · rw [here, Assoc.get_cons_self]
        rfl
      · rw [Assoc.get_cons_ne here]
        rfl

theorem mem_lock (subjectId : Text) : subjectId ∈ Assoc.keys
    (if Assoc.has subjectId index.versions then index.versions
      else index.versions ++ [(subjectId, 0)]) := by
  split
  · rename_i present
    exact Assoc.has_iff.mp present
  · rw [Assoc.keys_append]
    exact mem_append_right _ (mem_singleton_self _)

/-- **What a lock that succeeds does.** -/
theorem lockSubject_ok (locked : index.lockSubject subjectId expected = .ok next) :
    (∀ version ∈ expected, version = index.version subjectId) ∧
      (∀ other, next.version other = index.version other) ∧
      subjectId ∈ Assoc.keys next.versions ∧
      next = { index with versions := next.versions } := by
  unfold lockSubject at locked
  dsimp only at locked
  split at locked
  · rename_i expected
    obtain ⟨same, is⟩ := ite_error_eq_ok.mp locked
    cases is
    refine ⟨fun version member => ?_, version_lock subjectId, mem_lock subjectId, rfl⟩
    cases member
    rw [← version_lock subjectId subjectId]
    exact not_not.mp same
  · cases locked
    refine ⟨fun version member => ?_, version_lock subjectId, mem_lock subjectId, rfl⟩
    cases member

/-- A lock succeeds if the version is the one expected. -/
theorem lockSubject_current (current : ∀ version ∈ expected, version = index.version subjectId) :
    ∃ locked, index.lockSubject subjectId expected = .ok locked := by
  unfold lockSubject
  dsimp only
  split
  · rename_i expected
    refine ⟨_, if_neg (not_not.mpr ?_)⟩
    refine (current expected rfl).trans (congrArg _ ?_)
    exact (version_lock subjectId subjectId).symm
  · exact ⟨_, rfl⟩

theorem version_bump (inside : subjectId ∈ Assoc.keys index.versions) :
    (index.bumpSubjectVersion subjectId).version subjectId = index.version subjectId + 1 := by
  unfold version bumpSubjectVersion
  dsimp only
  rw [Assoc.get_replace_self _ inside]
  rfl

theorem version_bump_other (apart : subjectId ≠ other) :
    (index.bumpSubjectVersion subjectId).version other = index.version other := by
  unfold version bumpSubjectVersion
  dsimp only
  rw [Assoc.get_replace_ne apart]

/-! ### What a call does to the subjects -/

/-- No subject changes, and no version. -/
structure Unbumped (index next : Index) : Prop where
  bindings : ∀ subjectId, next.bindingsOf subjectId = index.bindingsOf subjectId
  findings : ∀ subjectId, next.findingsOf subjectId = index.findingsOf subjectId
  version : ∀ subjectId, next.version subjectId = index.version subjectId

/-- One subject may change, and its version goes up by one. -/
structure Bumped (subjectId : Text) (index next : Index) : Prop where
  bindings : ∀ other, other ≠ subjectId → next.bindingsOf other = index.bindingsOf other
  findings : ∀ other, other ≠ subjectId → next.findingsOf other = index.findingsOf other
  version : next.version subjectId = index.version subjectId + 1
  versions : ∀ other, other ≠ subjectId → next.version other = index.version other

/-- Between the lock and the bump: one subject may change, and no version. -/
structure Within (subjectId : Text) (index next : Index) : Prop where
  bindings : ∀ other, other ≠ subjectId → next.bindingsOf other = index.bindingsOf other
  findings : ∀ other, other ≠ subjectId → next.findingsOf other = index.findingsOf other
  versions : next.versions = index.versions

theorem Within.refl (subjectId : Text) (index : Index) : Within subjectId index index :=
  ⟨fun _ _ => rfl, fun _ _ => rfl, rfl⟩

theorem Within.trans {last : Index} (first : Within subjectId index next)
    (second : Within subjectId next last) : Within subjectId index last where
  bindings other apart := (second.bindings other apart).trans (first.bindings other apart)
  findings other apart := (second.findings other apart).trans (first.findings other apart)
  versions := second.versions.trans first.versions

/-- **A lock, changes to its subject, and a bump.** -/
theorem bumped_of_within {locked : Index}
    (lock : index.lockSubject subjectId expected = .ok locked)
    (within : Within subjectId locked next) :
    Bumped subjectId index (next.bumpSubjectVersion subjectId) := by
  obtain ⟨-, versions, inside, is⟩ := lockSubject_ok lock
  have sameVersion : ∀ other, next.version other = locked.version other := by
    intro other
    unfold version
    rw [within.versions]
  constructor
  case bindings =>
    intro other apart
    exact (within.bindings other apart).trans (by rw [is]; rfl)
  case findings =>
    intro other apart
    exact (within.findings other apart).trans (by rw [is]; rfl)
  case version =>
    rw [version_bump (by rw [within.versions]; exact inside), sameVersion, versions]
  case versions =>
    intro other apart
    rw [version_bump_other (Ne.symm apart), sameVersion, versions]

theorem unbumped_lock (lock : index.lockSubject subjectId expected = .ok next) :
    Unbumped index next := by
  obtain ⟨-, versions, -, is⟩ := lockSubject_ok lock
  exact ⟨fun _ => by rw [is]; rfl, fun _ => by rw [is]; rfl, versions⟩

theorem Unbumped.sameView (unbumped : Unbumped index next) (subjectId : Text) :
    SameView index next subjectId := by
  refine ⟨?_, unbumped.findings subjectId⟩
  unfold readSet
  rw [unbumped.bindings]

theorem Bumped.sameView (bumped : Bumped subjectId index next) (apart : other ≠ subjectId) :
    SameView index next other := by
  refine ⟨?_, bumped.findings other apart⟩
  unfold readSet
  rw [bumped.bindings other apart]

/-! ### Binding -/

theorem bindingsOf_insert :
    (index.insertBinding subjectId ref position createdAt).bindingsOf subjectId =
      index.bindingsOf subjectId ++ [⟨index.nextBindingId, subjectId, ref.snapshotId, ref.role,
        ref.note, position, createdAt⟩] := by
  unfold bindingsOf insertBinding
  dsimp only
  rw [filter_append]
  simp

theorem bindingsOf_insert_other (apart : other ≠ subjectId) :
    (index.insertBinding subjectId ref position createdAt).bindingsOf other =
      index.bindingsOf other := by
  unfold bindingsOf insertBinding
  dsimp only
  rw [filter_append, filter_cons_of_neg (by simpa using apart.symm)]
  exact append_nil _

/-- **One ref of a bind**: its mark is cleared, and it is bound unless it was. -/
theorem bindRef_ok {position' : Nat} {changed changed' : Bool}
    (bound : bindRef subjectId createdAt (index, position, changed) ref =
      .ok (next, position', changed')) :
    index.hasSnapshot ref.snapshotId = true ∧
      ((next = index.unmark ref.snapshotId ∧ position' = position ∧ changed' = changed) ∨
        (next = (index.unmark ref.snapshotId).insertBinding subjectId ref position createdAt ∧
          position' = position + 1 ∧ changed' = true)) := by
  obtain ⟨present, is⟩ := ite_ok_eq_ok.mp bound
  refine ⟨present, ?_⟩
  split at is
  · cases is
    exact .inl ⟨rfl, rfl, rfl⟩
  · cases is
    exact .inr ⟨rfl, rfl, rfl⟩

/-- What the loop of a bind has done so far. -/
structure Binding (subjectId : Text) (index : Index) (state : Index × Nat × Bool) : Prop where
  within : Within subjectId index state.1
  findings : ∀ other, state.1.findingsOf other = index.findingsOf other
  same : state.2.2 = false → ∀ other, state.1.bindingsOf other = index.bindingsOf other

theorem binding_refs {state : Index × Nat × Bool}
    (ran : refs.foldlM (bindRef subjectId createdAt) (index, position, false) = .ok state) :
    Binding subjectId index state := by
  refine foldlM_keeps (fun before ref state kept stepped => ?_)
    (⟨.refl _ _, fun _ => rfl, fun _ _ => rfl⟩ : Binding subjectId index (index, position, false))
    ran
  obtain ⟨before, position, changed⟩ := before
  obtain ⟨after, position', changed'⟩ := state
  obtain ⟨-, ⟨rfl, rfl, rfl⟩ | ⟨rfl, rfl, rfl⟩⟩ := bindRef_ok stepped
  · exact ⟨⟨kept.within.bindings, kept.within.findings, kept.within.versions⟩, kept.findings,
      kept.same⟩
  · refine ⟨⟨fun other apart => ?_, kept.within.findings, kept.within.versions⟩, kept.findings,
      fun never => by cases never⟩
    rw [bindingsOf_insert_other apart]
    exact kept.within.bindings other apart

/-- **What a bind that succeeds does.** -/
theorem bind_ok {refs : List TgSecEvidenceRef} {set : TgSecEvidenceSet}
    (bound : index.bind subjectId expected refs now = .ok (next, set)) :
    (∀ version ∈ expected, version = index.version subjectId) ∧
      (Unbumped index next ∨ Bumped subjectId index next) := by
  unfold bind at bound
  obtain ⟨normalized, -, goesOn⟩ := bind_eq_ok.mp bound
  obtain ⟨locked, lock, goesOn⟩ := bind_eq_ok.mp goesOn
  obtain ⟨⟨after, position, changed⟩, ran, is⟩ := bind_eq_ok.mp goesOn
  cases is
  refine ⟨(lockSubject_ok lock).1, ?_⟩
  have binding := binding_refs ran
  cases changed with
  | false =>
    have unlocked := unbumped_lock lock
    refine .inl ⟨fun other => (binding.same rfl other).trans (unlocked.bindings other),
      fun other => (binding.findings other).trans (unlocked.findings other), fun other => ?_⟩
    rw [← unlocked.version other]
    show (Assoc.get other after.versions).getD 0 = _
    rw [binding.within.versions]
    rfl
  | true => exact .inr (bumped_of_within lock binding.within)

/-! ### Editing -/

/-- A change of rows that keeps whose they are, and leaves those of one subject alone. -/
theorem filter_map_apart {A : Type} {subject : A → Text} {other : Text} {f : A → A} {rows : List A}
    (keeps : ∀ row ∈ rows, subject (f row) = subject row)
    (apart : ∀ row ∈ rows, subject row = other → f row = row) :
    (rows.map f).filter (fun row => subject row = other) =
      rows.filter fun row => subject row = other := by
  induction rows with
  | nil => rfl
  | cons row rest ih =>
    have later := ih (fun row member => keeps row (mem_cons_of_mem _ member))
      fun row member => apart row (mem_cons_of_mem _ member)
    rw [map_cons]
    by_cases here : subject row = other
    · rw [apart row mem_cons_self here, filter_cons_of_pos (by simpa using here),
        filter_cons_of_pos (by simpa using here), later]
    · rw [filter_cons_of_neg (by simpa [keeps row mem_cons_self] using here),
        filter_cons_of_neg (by simpa using here), later]

theorem within_map (subject : ∀ row, (f row).subjectId = row.subjectId)
    (apart : ∀ row, row.subjectId ≠ subjectId → f row = row) :
    Within subjectId index { index with bindings := index.bindings.map f } :=
  ⟨fun _ ne => filter_map_apart (fun row _ => subject row)
    fun row _ is => apart row (by rw [is]; exact ne), fun _ _ => rfl, rfl⟩

theorem within_setPosition (subjectId : Text) (entry : Nat × Nat) :
    Within subjectId index (setPosition subjectId index entry) := by
  refine within_map (fun row => ?_) fun row other => ?_
  · split <;> rfl
  · exact if_neg fun both => other both.1

theorem within_positions (subjectId : Text) (entries : List (Nat × Nat)) :
    Within subjectId index (entries.foldl (setPosition subjectId) index) := by
  induction entries generalizing index with
  | nil => exact .refl _ _
  | cons entry rest ih => exact (within_setPosition subjectId entry).trans ih

theorem reorder_ok {ids : List Nat} (reordered : index.reorder subjectId ids = .ok next) :
    ids.length = (index.bindingIds subjectId).length ∧
      (∀ id ∈ ids, id ∈ index.bindingIds subjectId) ∧
      next = ids.zipIdx.foldl (setPosition subjectId) index := by
  unfold reorder at reordered
  obtain ⟨sameLength, goesOn⟩ := ite_error_eq_ok.mp reordered
  obtain ⟨covered, is⟩ := ite_error_eq_ok.mp goesOn
  cases is
  refine ⟨not_not.mp sameLength, fun id member => ?_, rfl⟩
  by_contra unknown
  exact covered (List.any_eq_true.mpr ⟨id, member, decide_eq_true unknown⟩)

theorem within_delete (subjectId : Text) (bindingId : Nat) :
    Within subjectId index (index.deleteBinding subjectId bindingId) := by
  refine ⟨fun other apart => ?_, fun _ _ => rfl, rfl⟩
  unfold bindingsOf deleteBinding
  rw [filter_filter]
  refine filter_congr fun row _ => ?_
  by_cases same : row.subjectId = other
  · simp [same, apart]
  · simp [same]

theorem applyEdit_ok (edited : index.applyEdit subjectId edit = .ok next) :
    Within subjectId index next := by
  cases edit with
  | reorder ids =>
    obtain ⟨-, -, rfl⟩ := reorder_ok edited
    exact within_positions subjectId _
  | binding bindingId role note remove =>
    obtain ⟨-, goesOn⟩ := ite_ok_eq_ok.mp edited
    split at goesOn
    · cases goesOn
      exact within_delete subjectId bindingId
    · obtain ⟨role, -, is⟩ := bind_eq_ok.mp goesOn
      cases is
      refine within_map (fun row => ?_) fun row other => ?_
      · split <;> rfl
      · exact if_neg fun both => other both.1

/-- **What an edit that succeeds does.** -/
theorem edit_ok {set : TgSecEvidenceSet}
    (edited : index.edit subjectId expected edit = .ok (next, set)) :
    (∀ version ∈ expected, version = index.version subjectId) ∧ Bumped subjectId index next ∧
      ∃ locked applied, index.lockSubject subjectId expected = .ok locked ∧
        locked.applyEdit subjectId edit = .ok applied ∧
        next = applied.bumpSubjectVersion subjectId := by
  unfold Index.edit at edited
  obtain ⟨-, -, goesOn⟩ := bind_eq_ok.mp edited
  obtain ⟨locked, lock, goesOn⟩ := bind_eq_ok.mp goesOn
  obtain ⟨applied, apply, is⟩ := bind_eq_ok.mp goesOn
  cases is
  exact ⟨(lockSubject_ok lock).1, bumped_of_within lock (applyEdit_ok apply), locked, applied, lock,
    apply, rfl⟩

/-! ### Findings -/

/-- A finding is of the subject with its id. -/
def Owned (index : Index) : Prop :=
  ∀ finding ∈ index.findings, finding.subjectId = finding.findingId

theorem within_insertFinding (subject : finding.subjectId = subjectId) :
    Within subjectId index (index.insertFinding finding) := by
  refine ⟨fun _ _ => rfl, fun other apart => ?_, rfl⟩
  unfold findingsOf insertFinding
  rw [filter_append, filter_cons_of_neg (by simpa [subject] using apart.symm)]
  exact append_nil _

theorem within_updateFinding (owned : Owned index) {finding : TgSecFindingRecord}
    (subject : finding.subjectId = finding.findingId) :
    Within finding.subjectId index (index.updateFinding finding) := by
  refine ⟨fun _ _ => rfl, fun other apart => ?_, rfl⟩
  refine @filter_map_apart _ TgSecFindingRecord.subjectId _ _ _ (fun row member => ?_)
    fun row member is => if_neg fun same => ?_
  · split
    · rename_i same
      rw [subject, ← same, owned row member]
    · rfl
  · rw [← is, owned row member, same, ← subject] at apart
    exact apart rfl

theorem newFinding_ok {findingId : Text} (made : newFinding findingId input now = .ok finding) :
    finding.findingId = findingId ∧ finding.subjectId = findingId := by
  unfold newFinding at made
  obtain ⟨-, made⟩ := ite_error_eq_ok.mp made
  obtain ⟨-, made⟩ := ite_error_eq_ok.mp made
  split at made
  · cases made
  · obtain ⟨severity, -, made⟩ := bind_eq_ok.mp made
    obtain ⟨-, made⟩ := ite_error_eq_ok.mp made
    obtain ⟨-, made⟩ := ite_error_eq_ok.mp made
    cases made
    exact ⟨rfl, rfl⟩

theorem patchFinding_ok {existing patched : TgSecFindingRecord}
    (made : index.patchFinding existing input = .ok patched) :
    patched.findingId = existing.findingId ∧ patched.subjectId = existing.subjectId := by
  unfold patchFinding at made
  obtain ⟨-, made⟩ := ite_error_eq_ok.mp made
  obtain ⟨-, made⟩ := ite_error_eq_ok.mp made
  obtain ⟨severity, -, made⟩ := bind_eq_ok.mp made
  obtain ⟨status, -, made⟩ := bind_eq_ok.mp made
  obtain ⟨retestSnapshotId, -, made⟩ := bind_eq_ok.mp made
  cases made
  exact ⟨rfl, rfl⟩

theorem readFinding_some {findingId : Text} (found : index.readFinding findingId = some finding) :
    finding ∈ index.findings ∧ finding.findingId = findingId :=
  ⟨List.mem_of_find?_eq_some found, by simpa using List.find?_some found⟩

/-- **What a write of a finding that succeeds does.** -/
theorem writeFinding_ok (owned : Owned index) {result : TgSecFindingWriteResult}
    (wrote : index.writeFinding input now = .ok (next, result)) :
    (∀ version ∈ input.expectedVersion, version = index.version (trim input.findingId)) ∧
      (Unbumped index next ∨ Bumped (trim input.findingId) index next) ∧ Owned next ∧
      next.bindings = index.bindings ∧ next.nextBindingId = index.nextBindingId ∧
      next.snapshots = index.snapshots := by
  unfold writeFinding at wrote
  obtain ⟨-, wrote⟩ := ite_error_eq_ok.mp wrote
  split at wrote
  · obtain ⟨finding, made, wrote⟩ := bind_eq_ok.mp wrote
    obtain ⟨locked, lock, wrote⟩ := bind_eq_ok.mp wrote
    cases wrote
    obtain ⟨sameId, sameSubject⟩ := newFinding_ok made
    obtain ⟨expected, -, -, isLocked⟩ := lockSubject_ok lock
    refine ⟨expected, .inr (bumped_of_within lock (within_insertFinding sameSubject)), ?_, ?_, ?_, ?_⟩
    · intro row member
      rcases List.mem_append.mp member with before | new
      · rw [isLocked] at before
        exact owned row before
      · rw [List.mem_singleton.mp new, sameId, sameSubject]
    · show locked.bindings = index.bindings
      rw [isLocked]
    · show locked.nextBindingId = index.nextBindingId
      rw [isLocked]
    · show locked.snapshots = index.snapshots
      rw [isLocked]
  · rename_i existing found
    obtain ⟨locked, lock, wrote⟩ := bind_eq_ok.mp wrote
    obtain ⟨patched, made, wrote⟩ := bind_eq_ok.mp wrote
    obtain ⟨inside, isId⟩ := readFinding_some found
    obtain ⟨sameId, sameSubject⟩ := patchFinding_ok made
    have isSubject : existing.subjectId = trim input.findingId := (owned existing inside).trans isId
    rw [isSubject] at lock
    obtain ⟨expected, -, -, isLocked⟩ := lockSubject_ok lock
    have ownedLocked : Owned locked := by
      rw [isLocked]
      exact owned
    dsimp only at wrote
    rw [isSubject] at wrote
    have patchedOwn : patched.subjectId = patched.findingId := by
      rw [sameSubject, sameId]
      exact owned existing inside
    split at wrote
    · cases wrote
      have within : Within patched.subjectId locked
          (locked.updateFinding { patched with updatedAt := now }) :=
        @within_updateFinding _ ownedLocked { patched with updatedAt := now } patchedOwn
      refine ⟨expected, .inr (bumped_of_within lock ?_), ?_, ?_, ?_, ?_⟩
      · rw [← isSubject, ← sameSubject]
        exact within
      · intro row member
        obtain ⟨before, inBefore, is⟩ := List.mem_map.mp member
        split at is
        · rw [← is]
          exact patchedOwn
        · rw [← is]
          exact ownedLocked before inBefore
      · show locked.bindings = index.bindings
        rw [isLocked]
      · show locked.nextBindingId = index.nextBindingId
        rw [isLocked]
      · show locked.snapshots = index.snapshots
        rw [isLocked]
    · cases wrote
      refine ⟨expected, .inl (unbumped_lock lock), ownedLocked, ?_, ?_, ?_⟩
      · rw [isLocked]
      · rw [isLocked]
      · rw [isLocked]

/-! ### Positions -/

/-- What every call keeps besides: binding ids are used once. -/
structure Numbered (index : Index) : Prop where
  nodup : (index.bindings.map BindingRow.bindingId).Nodup
  below : ∀ binding ∈ index.bindings, binding.bindingId < index.nextBindingId

/-- What the entries of a reorder make of a row. -/
def place (subjectId : Text) (entries : List (Nat × Nat)) (binding : BindingRow) : BindingRow :=
  entries.foldl (fun binding entry =>
    if binding.subjectId = subjectId ∧ binding.bindingId = entry.1 then
      { binding with position := entry.2 }
    else binding) binding

theorem place_append (subjectId : Text) (entries more : List (Nat × Nat)) (binding : BindingRow) :
    place subjectId (entries ++ more) binding =
      place subjectId more (place subjectId entries binding) := foldl_append

theorem foldl_setPosition (subjectId : Text) (entries : List (Nat × Nat)) :
    entries.foldl (setPosition subjectId) index =
      { index with bindings := index.bindings.map (place subjectId entries) } := by
  induction entries generalizing index with
  | nil =>
    show index = { index with bindings := index.bindings.map fun binding => binding }
    rw [map_id']
  | cons entry rest ih =>
    rw [foldl_cons, ih]
    unfold setPosition
    dsimp only
    rw [map_map]
    rfl

/-- A row keeps its subject and its id, and has a position that an entry gives it, if any does. -/
theorem place_spec (subjectId : Text) (entries : List (Nat × Nat)) (binding : BindingRow) :
    (place subjectId entries binding).subjectId = binding.subjectId ∧
      (place subjectId entries binding).bindingId = binding.bindingId ∧
      (binding.subjectId = subjectId → binding.bindingId ∈ entries.map Prod.fst →
        (binding.bindingId, (place subjectId entries binding).position) ∈ entries) := by
  induction entries using List.reverseRecOn with
  | nil => exact ⟨rfl, rfl, fun _ member => by cases member⟩
  | append_singleton entries entry ih =>
    obtain ⟨subject, id, position⟩ := ih
    rw [place_append]
    generalize place subjectId entries binding = before at subject id position ⊢
    unfold place
    rw [foldl_cons, foldl_nil]
    split
    · rename_i hits
      refine ⟨subject, id, fun _ _ => mem_append_right _ (List.mem_singleton.mpr ?_)⟩
      rw [← id, hits.2]
    · rename_i misses
      refine ⟨subject, id, fun isSubject member => mem_append_left _ (position isSubject ?_)⟩
      rw [map_append, mem_append] at member
      refine member.resolve_right fun new => misses ⟨subject.trans isSubject, ?_⟩
      exact id.trans (List.mem_singleton.mp new)

theorem bindingsOf_map (subject : ∀ row, (f row).subjectId = row.subjectId) :
    ({ index with bindings := index.bindings.map f } : Index).bindingsOf subjectId =
      (index.bindingsOf subjectId).map f := by
  unfold bindingsOf
  dsimp only
  rw [filter_map]
  refine congrArg (List.map f) (filter_congr fun row _ => ?_)
  show decide ((f row).subjectId = subjectId) = _
  rw [subject]

/-- **A reorder that covers a subject keeps its positions apart.** -/
theorem placed_reorder (numbered : Numbered index) (placed : Placed index) {ids : List Nat}
    (covers : ids.Perm (index.bindingIds subjectId)) :
    Placed (ids.zipIdx.foldl (setPosition subjectId) index) := by
  intro other
  by_cases same : other = subjectId
  · subst same
    rw [foldl_setPosition]
    rw [bindingsOf_map fun row => (place_spec other ids.zipIdx row).1, map_map]
    have rowIds : (index.bindingIds other).Nodup :=
      numbered.nodup.sublist (List.Sublist.map _ filter_sublist)
    refine List.Nodup.map_on (fun row member row' member' samePosition => ?_) rowIds.of_map
    -- A position is that of the id in the list, so rows with one position have one id.
    have at_position : ∀ row ∈ index.bindingsOf other,
        ids[(place other ids.zipIdx row).position]? = some row.bindingId := by
      intro row member
      have covered : row.bindingId ∈ ids.zipIdx.map Prod.fst := by
        rw [zipIdx_map_fst]
        exact covers.mem_iff.mpr (mem_map_of_mem member)
      have isSubject : row.subjectId = other := of_decide_eq_true (List.mem_filter.mp member).2
      exact List.mem_zipIdx_iff_getElem?.mp
        ((place_spec other ids.zipIdx row).2.2 isSubject covered)
    have first := at_position row member
    have second := at_position row' member'
    rw [show (place other ids.zipIdx row).position = (place other ids.zipIdx row').position from
      samePosition, second] at first
    exact inj_on_of_nodup_map rowIds member member' (Option.some.inj first).symm
  · rw [(within_positions subjectId ids.zipIdx).bindings other same]
    exact placed other

theorem nextPosition_gt {binding : BindingRow} (member : binding ∈ index.bindingsOf subjectId) :
    binding.position < index.nextPosition subjectId := by
  unfold nextPosition
  generalize index.bindingsOf subjectId = rows at member ⊢
  induction rows with
  | nil => cases member
  | cons row rest ih =>
    rw [map_cons, foldr_cons]
    rcases List.mem_cons.mp member with rfl | later
    · exact lt_max_of_lt_left (Nat.lt_succ_self _)
    · exact lt_max_of_lt_right (ih later)

theorem numbered_insert (numbered : Numbered index) (subjectId : Text) (ref : NormalizedRef)
    (position createdAt : Nat) :
    Numbered (index.insertBinding subjectId ref position createdAt) := by
  refine ⟨?_, fun binding member => ?_⟩
  · show ((index.bindings ++ [_]).map BindingRow.bindingId).Nodup
    rw [map_append, nodup_append]
    refine ⟨numbered.nodup, nodup_singleton _, fun id before id' new => ?_⟩
    obtain ⟨binding, inside, rfl⟩ := List.mem_map.mp before
    rw [List.mem_singleton.mp new]
    exact Nat.ne_of_lt (numbered.below binding inside)
  · rcases List.mem_append.mp member with before | new
    · exact Nat.lt_succ_of_lt (numbered.below binding before)
    · rw [List.mem_singleton.mp new]
      exact Nat.lt_succ_self _

/-- What the loop of a bind keeps of positions: the next is above all others. -/
structure Placing (subjectId : Text) (state : Index × Nat × Bool) : Prop where
  placed : Placed state.1
  above : ∀ binding ∈ state.1.bindingsOf subjectId, binding.position < state.2.1

theorem placing_insert {changed : Bool} (placing : Placing subjectId (index, position, changed)) :
    Placing subjectId
      (index.insertBinding subjectId ref position createdAt, position + 1, true) := by
  obtain ⟨placed, above⟩ := placing
  refine ⟨fun other => ?_, fun binding member => ?_⟩
  · by_cases same : other = subjectId
    · subst same
      rw [bindingsOf_insert, map_append, nodup_append]
      refine ⟨placed other, nodup_singleton _, fun before member after new => ?_⟩
      obtain ⟨binding, inside, rfl⟩ := List.mem_map.mp member
      rw [List.mem_singleton.mp new]
      exact Nat.ne_of_lt (above binding inside)
    · rw [bindingsOf_insert_other same]
      exact placed other
  · rw [bindingsOf_insert] at member
    rcases List.mem_append.mp member with before | new
    · exact Nat.lt_succ_of_lt (above binding before)
    · rw [List.mem_singleton.mp new]
      exact Nat.lt_succ_self _

theorem placing_refs {start state : Index × Nat × Bool} (placing : Placing subjectId start)
    (ran : refs.foldlM (bindRef subjectId createdAt) start = .ok state) :
    Placing subjectId state := by
  refine foldlM_keeps (fun before ref state kept stepped => ?_) placing ran
  obtain ⟨before, position, changed⟩ := before
  obtain ⟨after, position', changed'⟩ := state
  have unmarked : Placing subjectId (before.unmark ref.snapshotId, position, changed) :=
    ⟨kept.placed, kept.above⟩
  obtain ⟨-, ⟨rfl, rfl, rfl⟩ | ⟨rfl, rfl, rfl⟩⟩ := bindRef_ok stepped
  · exact unmarked
  · exact placing_insert unmarked

/-! ### One call -/

/-- What holds of an index whatever is called. -/
structure Sound (index : Index) : Prop where
  numbered : Numbered index
  owned : Owned index

theorem numbered_map (numbered : Numbered index) (id : ∀ row, (f row).bindingId = row.bindingId) :
    Numbered { index with bindings := index.bindings.map f } := by
  refine ⟨?_, fun binding member => ?_⟩
  · show ((index.bindings.map f).map BindingRow.bindingId).Nodup
    rw [map_map, show BindingRow.bindingId ∘ f = BindingRow.bindingId from funext id]
    exact numbered.nodup
  · obtain ⟨row, inside, rfl⟩ := List.mem_map.mp member
    rw [id]
    exact numbered.below row inside

theorem numbered_applyEdit (numbered : Numbered index)
    (edited : index.applyEdit subjectId edit = .ok next) : Numbered next := by
  cases edit with
  | reorder ids =>
    obtain ⟨-, -, rfl⟩ := reorder_ok edited
    rw [foldl_setPosition]
    exact numbered_map numbered fun row => (place_spec subjectId ids.zipIdx row).2.1
  | binding bindingId role note remove =>
    obtain ⟨-, goesOn⟩ := ite_ok_eq_ok.mp edited
    split at goesOn
    · cases goesOn
      exact ⟨numbered.nodup.sublist (List.Sublist.map _ filter_sublist),
        fun binding member => numbered.below binding (mem_of_mem_filter member)⟩
    · obtain ⟨role, -, is⟩ := bind_eq_ok.mp goesOn
      cases is
      refine numbered_map numbered fun row => ?_
      split <;> rfl

theorem findings_applyEdit (edited : index.applyEdit subjectId edit = .ok next) :
    next.findings = index.findings := by
  cases edit with
  | reorder ids =>
    obtain ⟨-, -, rfl⟩ := reorder_ok edited
    rw [foldl_setPosition]
  | binding bindingId role note remove =>
    obtain ⟨-, goesOn⟩ := ite_ok_eq_ok.mp edited
    split at goesOn
    · cases goesOn
      rfl
    · obtain ⟨role, -, is⟩ := bind_eq_ok.mp goesOn
      cases is
      rfl

theorem Sound.of_bindings (sound : Sound index) (bindings : next.bindings = index.bindings)
    (nextBindingId : next.nextBindingId = index.nextBindingId)
    (findings : next.findings = index.findings) : Sound next := by
  refine ⟨⟨?_, ?_⟩, ?_⟩
  · rw [bindings]
    exact sound.numbered.nodup
  · rw [bindings, nextBindingId]
    exact sound.numbered.below
  · unfold Owned
    rw [findings]
    exact sound.owned

theorem Sound.lock (sound : Sound index) (lock : index.lockSubject subjectId expected = .ok next) :
    Sound next := by
  obtain ⟨-, -, -, is⟩ := lockSubject_ok lock
  exact sound.of_bindings (by rw [is]) (by rw [is]) (by rw [is])

theorem sound_refs {start state : Index × Nat × Bool} (sound : Sound start.1)
    (ran : refs.foldlM (bindRef subjectId createdAt) start = .ok state) : Sound state.1 := by
  refine @foldlM_keeps _ _ _ _ (fun state => Sound state.1)
    (fun before ref state kept stepped => ?_) _ _ _ sound ran
  obtain ⟨before, position, changed⟩ := before
  obtain ⟨after, position', changed'⟩ := state
  have unmarked : Sound (before.unmark ref.snapshotId) := kept.of_bindings rfl rfl rfl
  obtain ⟨-, ⟨rfl, rfl, rfl⟩ | ⟨rfl, rfl, rfl⟩⟩ := bindRef_ok stepped
  · exact unmarked
  · exact ⟨numbered_insert unmarked.numbered _ _ _ _, unmarked.owned⟩

/-- **What a call that succeeds does.** -/
theorem call_ok (sound : Sound index) {call : IndexCall} (ran : index.call call = .ok next) :
    (∀ subjectId, call.subject = some subjectId →
        ∀ version ∈ call.expectedVersion, version = index.version subjectId) ∧
      (Unbumped index next ∨ ∃ subjectId, call.subject = some subjectId ∧
        Bumped subjectId index next) ∧ Sound next := by
  cases call with
  | insertSnapshot id fields createdAt =>
    cases ran
    refine ⟨(fun subjectId is => nomatch is), .inl ?_, ?_⟩
    · unfold Index.insertSnapshot
      split
      · exact ⟨fun _ => rfl, fun _ => rfl, fun _ => rfl⟩
      · exact ⟨fun _ => rfl, fun _ => rfl, fun _ => rfl⟩
    · unfold Index.insertSnapshot
      split
      · exact sound
      · exact sound.of_bindings rfl rfl rfl
  | bind subjectId expected refs now =>
    obtain ⟨⟨after, set⟩, bound, rfl⟩ := map_eq_ok.mp ran
    obtain ⟨stale, does⟩ := bind_ok bound
    refine ⟨fun other is => ?_, does.imp_right fun bumped => ⟨subjectId, rfl, bumped⟩, ?_⟩
    · cases is
      exact stale
    · unfold Index.bind at bound
      obtain ⟨normalized, -, goesOn⟩ := bind_eq_ok.mp bound
      obtain ⟨locked, lock, goesOn⟩ := bind_eq_ok.mp goesOn
      obtain ⟨⟨refsAfter, position, changed⟩, loop, is⟩ := bind_eq_ok.mp goesOn
      have refsSound : Sound refsAfter := sound_refs (sound.lock lock) loop
      cases is
      cases changed
      · exact refsSound
      · exact refsSound.of_bindings rfl rfl rfl
  | writeFinding input now =>
    obtain ⟨⟨after, result⟩, wrote, rfl⟩ := map_eq_ok.mp ran
    obtain ⟨stale, does, owned, bindings, nextBindingId, -⟩ := writeFinding_ok sound.owned wrote
    refine ⟨fun other is => ?_, does.imp_right fun bumped => ⟨_, rfl, bumped⟩, ⟨?_, ?_⟩, owned⟩
    · cases is
      exact stale
    · rw [bindings]
      exact sound.numbered.nodup
    · rw [bindings, nextBindingId]
      exact sound.numbered.below
  | edit subjectId expected edit =>
    obtain ⟨⟨after, set⟩, edited, rfl⟩ := map_eq_ok.mp ran
    obtain ⟨stale, bumped, locked, applied, lock, apply, is⟩ := edit_ok edited
    refine ⟨fun other is => ?_, .inr ⟨subjectId, rfl, bumped⟩, ?_⟩
    · cases is
      exact stale
    · have lockedSound := sound.lock lock
      have numbered := numbered_applyEdit lockedSound.numbered apply
      have appliedSound : Sound applied := by
        refine ⟨numbered, ?_⟩
        unfold Owned
        rw [findings_applyEdit apply]
        exact lockedSound.owned
      exact appliedSound.of_bindings (by rw [is]; rfl) (by rw [is]; rfl) (by rw [is]; rfl)
  | collectRows now =>
    cases ran
    exact ⟨(fun subjectId is => nomatch is), .inl ⟨fun _ => rfl, fun _ => rfl, fun _ => rfl⟩,
      sound.of_bindings rfl rfl rfl⟩

theorem Placed.of_bindings (placed : Placed index) (bindings : next.bindings = index.bindings) :
    Placed next := by
  unfold Placed bindingsOf
  rw [bindings]
  exact placed

/-- **A call that meets the condition keeps positions apart.** -/
theorem placed_call (sound : Sound index) (placed : Placed index) {call : IndexCall}
    (meets : Meets index call) (ran : index.call call = .ok next) : Placed next := by
  cases call with
  | insertSnapshot id fields createdAt =>
    cases ran
    unfold Index.insertSnapshot
    split
    · exact placed
    · exact placed.of_bindings rfl
  | bind subjectId expected refs now =>
    obtain ⟨⟨after, set⟩, bound, rfl⟩ := map_eq_ok.mp ran
    unfold Index.bind at bound
    obtain ⟨normalized, -, goesOn⟩ := bind_eq_ok.mp bound
    obtain ⟨locked, lock, goesOn⟩ := bind_eq_ok.mp goesOn
    obtain ⟨⟨refsAfter, position, changed⟩, loop, is⟩ := bind_eq_ok.mp goesOn
    obtain ⟨-, -, -, isLocked⟩ := lockSubject_ok lock
    have lockedPlaced : Placed locked := placed.of_bindings (by rw [isLocked])
    have refsPlaced : Placed refsAfter :=
      (placing_refs ⟨lockedPlaced, fun binding member => nextPosition_gt member⟩ loop).placed
    cases is
    cases changed
    · exact refsPlaced
    · exact refsPlaced.of_bindings rfl
  | writeFinding input now =>
    obtain ⟨⟨after, result⟩, wrote, rfl⟩ := map_eq_ok.mp ran
    obtain ⟨-, -, -, bindings, -⟩ := writeFinding_ok sound.owned wrote
    exact placed.of_bindings bindings
  | edit subjectId expected edit =>
    obtain ⟨⟨after, set⟩, edited, rfl⟩ := map_eq_ok.mp ran
    obtain ⟨stale, -, locked, applied, lock, apply, is⟩ := edit_ok edited
    have lockedSound := sound.lock lock
    obtain ⟨-, -, -, isLocked⟩ := lockSubject_ok lock
    have lockedPlaced : Placed locked := placed.of_bindings (by rw [isLocked])
    have appliedPlaced : Placed applied := by
      cases edit with
      | reorder ids =>
        obtain ⟨sameLength, known, isApplied⟩ := reorder_ok apply
        have sameIds : locked.bindingIds subjectId = index.bindingIds subjectId := by
          rw [isLocked]
          rfl
        rw [isApplied]
        refine placed_reorder lockedSound.numbered lockedPlaced ?_
        rw [sameIds] at sameLength known ⊢
        have once : ids.Nodup := meets subjectId expected ids rfl stale sameLength known
        exact (once.subperm known).perm_of_length_le sameLength.ge
      | binding bindingId role note remove =>
        obtain ⟨-, goesOn⟩ := ite_ok_eq_ok.mp apply
        split at goesOn
        · cases goesOn
          intro other
          refine (lockedPlaced other).sublist (List.Sublist.map _ ?_)
          unfold bindingsOf deleteBinding
          exact List.Sublist.filter _ filter_sublist
        · obtain ⟨role, -, isApplied⟩ := bind_eq_ok.mp goesOn
          cases isApplied
          intro other
          unfold updateBinding
          rw [bindingsOf_map (fun row => by split <;> rfl), map_map]
          refine (congrArg List.Nodup (map_congr_left fun row _ => ?_)).mp (lockedPlaced other)
          show row.position = BindingRow.position (if _ then _ else _)
          split <;> rfl
    rw [is]
    exact appliedPlaced.of_bindings rfl
  | collectRows now =>
    cases ran
    exact placed.of_bindings rfl

/-! ### Every run -/

theorem run_append (start : Index) (calls more : List IndexCall) :
    start.run (calls ++ more) = (start.run calls).run more := foldl_append

theorem sound_after (sound : Sound index) (call : IndexCall) : Sound (index.after call) := by
  unfold after
  split
  · rename_i next ran
    exact (call_ok sound ran).2.2
  · exact sound

theorem sound_run (sound : Sound index) (calls : List IndexCall) : Sound (index.run calls) := by
  induction calls generalizing index with
  | nil => exact sound
  | cons call rest ih => exact ih (sound_after sound call)

theorem sound_empty : Sound Index.empty :=
  ⟨⟨nodup_nil, fun _ member => nomatch member⟩, fun _ member => nomatch member⟩

theorem placed_empty : Placed Index.empty := fun _ => nodup_nil

/-- A call leaves a subject and its version alone, or bumps it. -/
theorem after_view (sound : Sound index) (call : IndexCall) (subjectId : Text) :
    (SameView index (index.after call) subjectId ∧
        (index.after call).version subjectId = index.version subjectId) ∨
      (call.subject = some subjectId ∧
        (index.after call).version subjectId = index.version subjectId + 1) := by
  unfold after
  split
  · rename_i next ran
    obtain ⟨-, unbumped | ⟨bumpedId, isSubject, bumped⟩, -⟩ := call_ok sound ran
    · exact .inl ⟨unbumped.sameView subjectId, unbumped.version subjectId⟩
    · by_cases same : subjectId = bumpedId
      · rw [same]
        exact .inr ⟨isSubject, bumped.version⟩
      · exact .inl ⟨bumped.sameView same, bumped.versions subjectId same⟩
  · exact .inl ⟨⟨rfl, rfl⟩, rfl⟩

/-- **One call**, apart from a reorder. -/
theorem callPinned_iff (sound : Sound index) (call : IndexCall) :
    CallPinned index call ↔ Meets index call := by
  constructor
  · intro pinned subjectId expected ids is current sameLength known
    subst is
    have accepted : ∃ next, index.call (.edit subjectId expected (.reorder ids)) = .ok next := by
      obtain ⟨locked, lock⟩ := lockSubject_current current
      obtain ⟨-, -, -, isLocked⟩ := lockSubject_ok lock
      have sameIds : locked.bindingIds subjectId = index.bindingIds subjectId := by
        rw [isLocked]
        rfl
      rw [← sameIds] at sameLength known
      have reordered : locked.reorder subjectId ids = .ok _ :=
        ite_error_eq_ok.mpr ⟨not_not.mpr sameLength, ite_error_eq_ok.mpr ⟨fun unknown => by
          obtain ⟨id, member, isUnknown⟩ := List.any_eq_true.mp unknown
          exact of_decide_eq_true isUnknown (known id member), rfl⟩⟩
      have edited : index.edit subjectId expected (.reorder ids) = .ok _ :=
        bind_eq_ok.mpr ⟨(), rfl, bind_eq_ok.mpr ⟨locked, lock, bind_eq_ok.mpr ⟨_, reordered, rfl⟩⟩⟩
      exact ⟨_, map_eq_ok.mpr ⟨_, edited, rfl⟩⟩
    have perm := pinned.reorder subjectId expected ids rfl accepted
    refine perm.nodup_iff.mpr ?_
    exact sound.numbered.nodup.sublist (List.Sublist.map _ filter_sublist)
  · intro meets
    constructor
    case stale =>
      intro subjectId expected isSubject isExpected differs
      cases ran : index.call call with
      | error e => exact ⟨e, rfl⟩
      | ok next =>
        exact absurd ((call_ok sound ran).1 subjectId isSubject expected isExpected) differs
    case failed =>
      intro e ran
      unfold after
      rw [ran]
    case bumped =>
      intro subjectId changed
      rcases after_view sound call subjectId with ⟨same, -⟩ | ⟨-, bumped⟩
      · exact absurd same changed
      · exact bumped
    case apart =>
      intro subjectId other
      exact (after_view sound call subjectId).resolve_right fun bumped => other bumped.1
    case reorder =>
      rintro subjectId expected ids rfl ⟨next, ran⟩
      obtain ⟨⟨after, set⟩, edited, rfl⟩ := map_eq_ok.mp ran
      obtain ⟨stale, -, locked, applied, lock, apply, -⟩ := edit_ok edited
      obtain ⟨sameLength, known, -⟩ := reorder_ok apply
      obtain ⟨-, -, -, isLocked⟩ := lockSubject_ok lock
      have sameIds : locked.bindingIds subjectId = index.bindingIds subjectId := by
        rw [isLocked]
        rfl
      rw [sameIds] at sameLength known
      have once : ids.Nodup := meets subjectId expected ids rfl stale sameLength known
      exact (once.subperm known).perm_of_length_le sameLength.ge

/-- **A version that is the same shows the same.** -/
theorem sameView_run (sound : Sound index) (calls : List IndexCall) (subjectId : Text) :
    index.version subjectId ≤ (index.run calls).version subjectId ∧
      ((index.run calls).version subjectId = index.version subjectId →
        SameView index (index.run calls) subjectId) := by
  induction calls generalizing index with
  | nil => exact ⟨Nat.le_refl _, fun _ => ⟨rfl, rfl⟩⟩
  | cons call rest ih =>
    obtain ⟨grows, shows⟩ := ih (sound_after sound call)
    show _ ≤ ((index.after call).run rest).version subjectId ∧
      (((index.after call).run rest).version subjectId = _ →
        SameView index ((index.after call).run rest) subjectId)
    rcases after_view sound call subjectId with ⟨same, version⟩ | ⟨-, version⟩
    · rw [version] at grows shows
      refine ⟨grows, fun is => ?_⟩
      have later := shows is
      exact ⟨later.bindings.trans same.bindings, later.findings.trans same.findings⟩
    · rw [version] at grows
      exact ⟨by omega, fun is => by omega⟩

theorem placed_run (sound : Sound index) (placed : Placed index) {calls : List IndexCall}
    (meets : RunMeets index calls) : Placed (index.run calls) := by
  induction calls generalizing index with
  | nil => exact placed
  | cons call rest ih =>
    refine ih (sound_after sound call) ?_ fun earlier next later is =>
      meets (call :: earlier) next later (congrArg (List.cons call) is)
    have here : Meets index call := meets [] call rest rfl
    unfold after
    split
    · rename_i next ran
      exact placed_call sound placed here ran
    · exact placed

def demoFields : SnapshotFields where
  sourceId := text "proxy"
  capturedAt := 1000
  url := text "https://demo.local/"
  method := text "GET"
  status := 200
  contentType := text "text/html"
  reqHead := []
  respHead := []
  reqHash := []
  respHash := []
  reqLen := 0
  respLen := 0
  flowId := []

/-- Two snapshots are recorded and bound, and the first binding is named twice. -/
def twiceCalls : List IndexCall :=
  [.insertSnapshot (text "a") demoFields 1000, .insertSnapshot (text "b") demoFields 1001,
    .bind (text "s") none [⟨text "a", none, none⟩, ⟨text "b", none, none⟩] 1002,
    .edit (text "s") (some 1) (.reorder [1, 1])]

end Index

end TianGong.Evidence

/-
**The evidence index.**

`TgSecEvidenceStore` (`store.ts`): the tables of snapshots, bindings, versions and findings, and the
transactions on them. A transaction that throws is rolled back.

* `lockSubject`: the optimistic lock of `bind`, `edit` and `writeFinding`.
* `bind`, `writeFinding`, `edit`: as in the source.
* `insertSnapshot`, `collectRows`: the transactions of `record` and `collect`.
* `IndexCall`, `call`, `after`: any of them, and the index after it.

Times are milliseconds. The bindings and findings of a subject keep the order of their rows; a set is
read in display order.
-/

import TianGong.SecServer.RcePath
import TianGong.Evidence.Hashing

namespace TianGong.Evidence

open SecServer (trim)

def EVIDENCE_GRACE_MS : Nat := 24 * 60 * 60 * 1000

/-! ### Vocabulary -/

inductive TgSecEvidenceRole where
  | baseline | proof | verification | supporting
  deriving DecidableEq

def assertRole (role : Text) : Except EvidenceError TgSecEvidenceRole :=
  if role = text "baseline" then .ok .baseline
  else if role = text "proof" then .ok .proof
  else if role = text "verification" then .ok .verification
  else if role = text "supporting" then .ok .supporting
  else .error (.type (text "evidence role " ++ role ++
    text " is not one of baseline, proof, verification, supporting"))

inductive TgSecFindingSeverity where
  | critical | high | medium | low
  deriving DecidableEq

def assertTgSecFindingSeverity (severity : Text) : Except EvidenceError TgSecFindingSeverity :=
  if severity = text "critical" then .ok .critical
  else if severity = text "high" then .ok .high
  else if severity = text "medium" then .ok .medium
  else if severity = text "low" then .ok .low
  else .error (.type (text "finding severity " ++ severity ++
    text " is not one of critical, high, medium, low"))

inductive TgSecFindingStatus where
  | opened | verified | retestPass | retestFail | wontfix
  deriving DecidableEq

def TgSecFindingStatus.name : TgSecFindingStatus → Text
  | .opened => text "open"
  | .verified => text "verified"
  | .retestPass => text "retest-pass"
  | .retestFail => text "retest-fail"
  | .wontfix => text "wontfix"

def assertTgSecFindingStatus (status : Text) : Except EvidenceError TgSecFindingStatus :=
  if status = text "open" then .ok .opened
  else if status = text "verified" then .ok .verified
  else if status = text "retest-pass" then .ok .retestPass
  else if status = text "retest-fail" then .ok .retestFail
  else if status = text "wontfix" then .ok .wontfix
  else .error (.type (text "finding status " ++ status ++
    text " is not one of open, verified, retest-pass, retest-fail, wontfix"))

/-- `isTgSecRetestStatus` -/
def TgSecFindingStatus.isRetest : TgSecFindingStatus → Bool
  | .retestPass | .retestFail => true
  | _ => false

def FINDING_TRANSITIONS : TgSecFindingStatus → List TgSecFindingStatus
  | .opened => [.verified, .wontfix]
  | .verified => [.retestPass, .retestFail, .wontfix]
  | .retestPass => [.retestFail, .wontfix]
  | .retestFail => [.verified, .retestPass, .wontfix]
  | .wontfix => []

def isTgSecFindingTransitionAllowed (before after : TgSecFindingStatus) : Bool :=
  after ∈ FINDING_TRANSITIONS before

/-! ### Rows -/

structure SnapshotRow where
  id : Text
  fields : RowFields
  createdAt : Nat
  unreferencedAt : Option Nat

structure BindingRow where
  bindingId : Nat
  subjectId : Text
  snapshotId : Text
  role : TgSecEvidenceRole
  note : Text
  position : Nat
  createdAt : Nat
  deriving DecidableEq

/-- A row of `tg_sec_findings`. -/
structure TgSecFindingRecord where
  findingId : Text
  lane : Text
  title : Text
  severity : TgSecFindingSeverity
  status : TgSecFindingStatus
  subjectId : Text
  createdAt : Nat
  updatedAt : Nat
  retestSnapshotId : Text
  deriving DecidableEq

/-- The tables. -/
structure Index where
  snapshots : List SnapshotRow
  bindings : List BindingRow
  /-- The next of the ids that `AUTOINCREMENT` gives. -/
  nextBindingId : Nat
  versions : List (Text × Nat)
  findings : List TgSecFindingRecord

def Index.empty : Index := ⟨[], [], 1, [], []⟩

structure TgSecEvidenceBinding where
  bindingId : Nat
  snapshotId : Text
  role : TgSecEvidenceRole
  note : Text
  position : Nat
  deriving DecidableEq

structure TgSecEvidenceSet where
  subjectId : Text
  version : Nat
  bindings : List TgSecEvidenceBinding

namespace Index

variable (index : Index)

/-! ### Reading -/

/-- `readSubjectVersion` -/
def version (subjectId : Text) : Nat := (Assoc.get subjectId index.versions).getD 0

/-- The rows of a subject. -/
def bindingsOf (subjectId : Text) : List BindingRow :=
  index.bindings.filter fun binding => binding.subjectId = subjectId

/-- `ORDER BY position, binding_id` -/
def displayed (bindings : List BindingRow) : List BindingRow :=
  bindings.insertionSort fun a b => a.position < b.position ∨
    (a.position = b.position ∧ a.bindingId ≤ b.bindingId)

def readSet (subjectId : Text) : TgSecEvidenceSet where
  subjectId
  version := index.version subjectId
  bindings := (displayed (index.bindingsOf subjectId)).map fun row =>
    ⟨row.bindingId, row.snapshotId, row.role, row.note, row.position⟩

def readFinding (findingId : Text) : Option TgSecFindingRecord :=
  index.findings.find? fun finding => finding.findingId = findingId

def hasSnapshot (snapshotId : Text) : Bool :=
  index.snapshots.any fun row => row.id = snapshotId

/-- A subject has a binding of a snapshot. -/
def isBound (subjectId snapshotId : Text) : Bool :=
  index.bindings.any fun binding => binding.subjectId = subjectId && binding.snapshotId = snapshotId

/-- Some subject has a binding of a snapshot. -/
def isReferenced (snapshotId : Text) : Bool :=
  index.bindings.any fun binding => binding.snapshotId = snapshotId

/-! ### Versions -/

def lockSubject (subjectId : Text) (expectedVersion : Option ℚ) : Except EvidenceError Index :=
  let locked := { index with
    versions := if Assoc.has subjectId index.versions then index.versions
      else index.versions ++ [(subjectId, 0)] }
  match expectedVersion with
  | some expected => if expected ≠ locked.version subjectId then .error .conflict else .ok locked
  | none => .ok locked

def bumpSubjectVersion (subjectId : Text) : Index :=
  { index with
    versions := Assoc.replace subjectId (index.version subjectId + 1) index.versions }

/-! ### Binding -/

structure TgSecEvidenceRef where
  snapshotId : Text
  role : Option Text
  note : Option Text

structure NormalizedRef where
  snapshotId : Text
  role : TgSecEvidenceRole
  note : Text

/-- The loop of `normalizeRefs`, with what it has put out. -/
def normalizeRef (out : List NormalizedRef) (ref : TgSecEvidenceRef) :
    Except EvidenceError (List NormalizedRef) :=
  let snapshotId := trim ref.snapshotId
  if snapshotId = [] then .error (.type (text "an evidence binding needs a snapshot id"))
  else (assertRole (ref.role.getD (text "supporting"))).map fun role =>
    if snapshotId ∈ out.map NormalizedRef.snapshotId then out
    else out ++ [⟨snapshotId, role, ref.note.getD []⟩]

def normalizeRefs (refs : List TgSecEvidenceRef) : Except EvidenceError (List NormalizedRef) :=
  refs.foldlM normalizeRef []

/-- The mark of a snapshot is cleared. -/
def unmark (snapshotId : Text) : Index :=
  { index with snapshots := index.snapshots.map fun row =>
    if row.id = snapshotId then { row with unreferencedAt := none } else row }

def insertBinding (subjectId : Text) (ref : NormalizedRef) (position createdAt : Nat) : Index :=
  { index with
    bindings := index.bindings ++ [⟨index.nextBindingId, subjectId, ref.snapshotId, ref.role,
      ref.note, position, createdAt⟩]
    nextBindingId := index.nextBindingId + 1 }

/-- The loop of `bind`: the index, the next position, and whether something was added. -/
def bindRef (subjectId : Text) (createdAt : Nat) (state : Index × Nat × Bool)
    (ref : NormalizedRef) : Except EvidenceError (Index × Nat × Bool) :=
  let (index, position, changed) := state
  if index.hasSnapshot ref.snapshotId then
    let index := index.unmark ref.snapshotId
    if index.isBound subjectId ref.snapshotId then .ok (index, position, changed)
    else .ok (index.insertBinding subjectId ref position createdAt, position + 1, true)
  else .error .notFound

/-- `COALESCE(MAX(position) + 1, 0)` -/
def nextPosition (subjectId : Text) : Nat :=
  ((index.bindingsOf subjectId).map fun binding => binding.position + 1).foldr max 0

def bind (subjectId : Text) (expectedVersion : Option ℚ) (refs : List TgSecEvidenceRef)
    (now : Nat) : Except EvidenceError (Index × TgSecEvidenceSet) := do
  let normalized ← normalizeRefs refs
  let locked ← index.lockSubject subjectId expectedVersion
  let (bound, _, changed) ←
    normalized.foldlM (bindRef subjectId now) (locked, locked.nextPosition subjectId, false)
  let after := if changed then bound.bumpSubjectVersion subjectId else bound
  return (after, after.readSet subjectId)

/-! ### Editing -/

inductive TgSecEvidenceEdit where
  | reorder (ids : List Nat)
  | binding (bindingId : Nat) (role note : Option Text) (remove : Bool)

/-- A binding of a subject gets a position. -/
def setPosition (subjectId : Text) (state : Index) (entry : Nat × Nat) : Index :=
  { state with bindings := state.bindings.map fun binding =>
    if binding.subjectId = subjectId ∧ binding.bindingId = entry.1 then
      { binding with position := entry.2 }
    else binding }

def reorder (subjectId : Text) (ids : List Nat) : Except EvidenceError Index :=
  let current := (index.bindingsOf subjectId).map BindingRow.bindingId
  if ids.length ≠ current.length then .error .conflict
  else if ids.any fun id => id ∉ current then .error .conflict
  else .ok (ids.zipIdx.foldl (setPosition subjectId) index)

def deleteBinding (subjectId : Text) (bindingId : Nat) : Index :=
  { index with bindings := index.bindings.filter fun binding =>
    ¬ (binding.subjectId = subjectId ∧ binding.bindingId = bindingId) }

def updateBinding (subjectId : Text) (bindingId : Nat) (role : Option TgSecEvidenceRole)
    (note : Option Text) : Index :=
  { index with bindings := index.bindings.map fun binding =>
    if binding.subjectId = subjectId ∧ binding.bindingId = bindingId then
      { binding with role := role.getD binding.role, note := note.getD binding.note }
    else binding }

/-- The part of `edit` between the lock and the bump. -/
def applyEdit (subjectId : Text) : TgSecEvidenceEdit → Except EvidenceError Index
  | .reorder ids => index.reorder subjectId ids
  | .binding bindingId role note remove =>
    if bindingId ∈ (index.bindingsOf subjectId).map BindingRow.bindingId then
      if remove then .ok (index.deleteBinding subjectId bindingId)
      else do
        let role ← role.mapM assertRole
        return index.updateBinding subjectId bindingId role note
    else .error .notFound

/-- The role of an edit is checked before anything else. -/
def assertEdit : TgSecEvidenceEdit → Except EvidenceError Unit
  | .binding _ (some role) _ _ => (assertRole role).map fun _ => ()
  | _ => .ok ()

def edit (subjectId : Text) (expectedVersion : Option ℚ) (edit : TgSecEvidenceEdit) :
    Except EvidenceError (Index × TgSecEvidenceSet) := do
  assertEdit edit
  let locked ← index.lockSubject subjectId expectedVersion
  let edited ← locked.applyEdit subjectId edit
  let after := edited.bumpSubjectVersion subjectId
  return (after, after.readSet subjectId)

/-! ### Findings -/

structure TgSecFindingWriteInput where
  findingId : Text
  expectedVersion : Option ℚ
  lane : Option Text
  title : Option Text
  severity : Option Text
  status : Option Text
  snapshotId : Option Text

structure TgSecFindingWriteResult where
  finding : TgSecFindingRecord
  version : Nat
  created : Bool
  changed : Bool

def requireRetestSnapshot (subjectId : Text) (rawSnapshotId : Option Text)
    (previousSnapshotId : Text) : Except EvidenceError Text :=
  let snapshotId := trim (rawSnapshotId.getD [])
  if snapshotId = [] then .error (.type (text "a retest needs a new evidence snapshot id"))
  else if snapshotId = previousSnapshotId then .error .conflict
  else if index.isBound subjectId snapshotId then .ok snapshotId
  else .error .notFound

/-- What a finding starts as; the checks of its creation. -/
def newFinding (findingId : Text) (input : TgSecFindingWriteInput) (now : Nat) :
    Except EvidenceError TgSecFindingRecord :=
  let lane := (input.lane.map trim).getD []
  let title := (input.title.map trim).getD []
  if lane = [] then .error (.type (text "creating a finding needs a lane"))
  else if title = [] then .error (.type (text "creating a finding needs a title"))
  else
    match input.severity with
    | none => .error (.type (text "creating a finding needs a severity"))
    | some severity => do
      let severity ← assertTgSecFindingSeverity severity
      if input.status.any fun status => status ≠ text "open" then
        .error (.type (text "a finding starts open; verify it only once evidence exists"))
      else if input.snapshotId.isSome then
        .error (.type (text "a finding cannot record a retest before it exists"))
      else .ok ⟨findingId, lane, title, severity, .opened, findingId, now, now, []⟩

/-- The snapshot of a retest, from the checks of a change of status. -/
def retestOf (existing : TgSecFindingRecord) (status : TgSecFindingStatus)
    (snapshotId : Option Text) : Except EvidenceError Text :=
  let onlyRetest : Except EvidenceError Text :=
    .error (.type (text "only a retest records a snapshot; " ++ status.name ++ text " does not"))
  if status ≠ existing.status then
    if isTgSecFindingTransitionAllowed existing.status status then
      if status.isRetest then
        index.requireRetestSnapshot existing.subjectId snapshotId existing.retestSnapshotId
      else if snapshotId.isSome then onlyRetest
      else .ok existing.retestSnapshotId
    else .error (.type (text "finding " ++ existing.findingId ++ text " cannot move from " ++
      existing.status.name ++ text " to " ++ status.name))
  else if status.isRetest ∧ snapshotId.isSome then
    index.requireRetestSnapshot existing.subjectId snapshotId existing.retestSnapshotId
  else if snapshotId.isSome then onlyRetest
  else .ok existing.retestSnapshotId

/-- An existing finding with the patch of a request. -/
def patchFinding (existing : TgSecFindingRecord) (input : TgSecFindingWriteInput) :
    Except EvidenceError TgSecFindingRecord :=
  let title := (input.title.map trim).getD existing.title
  if input.lane.any fun lane => trim lane ≠ existing.lane then
    .error (.type (text "finding " ++ existing.findingId ++ text "'s lane is fixed at creation"))
  else if title = [] then .error (.type (text "a finding needs a title"))
  else do
    let severity ← (input.severity.map assertTgSecFindingSeverity).getD (.ok existing.severity)
    let status ← (input.status.map assertTgSecFindingStatus).getD (.ok existing.status)
    let retestSnapshotId ← index.retestOf existing status input.snapshotId
    return { existing with title, severity, status, retestSnapshotId }

def insertFinding (finding : TgSecFindingRecord) : Index :=
  { index with findings := index.findings ++ [finding] }

/-- The row of a finding's id becomes the finding. -/
def updateFinding (finding : TgSecFindingRecord) : Index :=
  { index with findings := index.findings.map fun row =>
    if row.findingId = finding.findingId then finding else row }

def writeFinding (input : TgSecFindingWriteInput) (now : Nat) :
    Except EvidenceError (Index × TgSecFindingWriteResult) :=
  let findingId := trim input.findingId
  if findingId = [] then .error (.type (text "a finding needs an id"))
  else
    match index.readFinding findingId with
    | none => do
      let finding ← newFinding findingId input now
      let locked ← index.lockSubject findingId input.expectedVersion
      let after := (locked.insertFinding finding).bumpSubjectVersion findingId
      return (after, ⟨finding, after.version findingId, true, true⟩)
    | some existing => do
      let locked ← index.lockSubject existing.subjectId input.expectedVersion
      let patched ← locked.patchFinding existing input
      let changed := decide (patched.title ≠ existing.title ∨
        patched.severity ≠ existing.severity ∨ patched.status ≠ existing.status ∨
        patched.retestSnapshotId ≠ existing.retestSnapshotId)
      let written := { patched with updatedAt := if changed then now else existing.updatedAt }
      let after := if changed then
        (locked.updateFinding written).bumpSubjectVersion existing.subjectId else locked
      return (after, ⟨written, after.version existing.subjectId, false, changed⟩)

/-! ### Rows of snapshots -/

/-- The transaction of `record`. -/
def insertSnapshot (id : Text) (fields : SnapshotFields) (createdAt : Nat) : Index :=
  if index.hasSnapshot id then index
  else { index with
    snapshots := index.snapshots ++ [⟨id, fields.columns, createdAt, none⟩] }

/-- What `collect` makes of a row, if it stays: it is marked when nothing binds it. -/
def collectRow (now : Nat) (row : SnapshotRow) : Option SnapshotRow :=
  if index.isReferenced row.id then some row
  else
    let marked := row.unreferencedAt.getD now
    if marked < now - EVIDENCE_GRACE_MS then none
    else some { row with unreferencedAt := some marked }

/-- The transaction of `collect`. -/
def collectRows (now : Nat) : Index :=
  { index with snapshots := index.snapshots.filterMap (index.collectRow now) }

end Index

/-! ### Calls -/

open Index in
/-- A transaction on the index. -/
inductive IndexCall where
  | insertSnapshot (id : Text) (fields : SnapshotFields) (createdAt : Nat)
  | bind (subjectId : Text) (expectedVersion : Option ℚ) (refs : List TgSecEvidenceRef) (now : Nat)
  | writeFinding (input : TgSecFindingWriteInput) (now : Nat)
  | edit (subjectId : Text) (expectedVersion : Option ℚ) (edit : TgSecEvidenceEdit)
  | collectRows (now : Nat)

namespace Index

variable (index : Index)

def call : IndexCall → Except EvidenceError Index
  | .insertSnapshot id fields createdAt => .ok (index.insertSnapshot id fields createdAt)
  | .bind subjectId expectedVersion refs now =>
    (index.bind subjectId expectedVersion refs now).map Prod.fst
  | .writeFinding input now => (index.writeFinding input now).map Prod.fst
  | .edit subjectId expectedVersion edit =>
    (index.edit subjectId expectedVersion edit).map Prod.fst
  | .collectRows now => .ok (index.collectRows now)

/-- The index after a call: a transaction that throws is rolled back. -/
def after (call : IndexCall) : Index :=
  match index.call call with
  | .ok next => next
  | .error _ => index

/-- The index after calls. -/
def run (calls : List IndexCall) : Index := calls.foldl after index

end Index

end TianGong.Evidence

/-
**The evidence store.**

`TgSecEvidenceStore` (`store.ts`) over `EvidenceBlobStore` (`blobs.ts`): rows in the index, bodies in
files that are named by their hash.

* `getSnapshot`, `readBody`: reading, with every check on the way.
* `RecordTask`: a `record` call: each body is looked for, refreshed or staged and renamed; then the row
  is inserted.
* `CollectTask`: a `collect` call: a pass over the rows, then a stat of each file and its removal.

A step that throws ends its call. What the store was last asked to keep, and until when, is kept beside
it: `recordedAt`, `releasedAt`, and the log `recorded` of calls that succeeded.
-/

import TianGong.Evidence.Index

namespace TianGong.Evidence

open Index (TgSecEvidenceRef TgSecFindingWriteInput TgSecEvidenceEdit)

/-! ### Reading -/

/-- A body file. -/
structure BlobFile where
  bytes : List UInt8
  mtime : Nat

/-- The body files, each under the hash that its path is made of. -/
abbrev BlobFiles := Text → Option BlobFile

/-- What `getSnapshot` gives. -/
structure TgSecEvidenceSnapshotRecord where
  id : Text
  fields : RowFields
  createdAt : Nat

inductive BodySide where
  | request | response
  deriving DecidableEq

variable (sha256 : List UInt8 → Text)

def assertSnapshotIntegrity (row : SnapshotRow) : Except EvidenceError Unit := do
  let id ← snapshotMetadataId sha256 row.fields
  if id ≠ row.id then .error (.hashMismatch row.id) else .ok ()

def getSnapshot (index : Index) (snapshotId : Text) :
    Except EvidenceError (Option TgSecEvidenceSnapshotRecord) :=
  match index.snapshots.find? fun row => row.id = snapshotId with
  | none => .ok none
  | some row => do
    assertSnapshotIntegrity sha256 row
    return some ⟨row.id, row.fields, row.createdAt⟩

/-- `readBody` of the blob store. -/
def readBlob (files : BlobFiles) : Column → Except EvidenceError (List UInt8)
  | .text hash =>
    if isEvidenceHash hash then
      match files hash with
      | none => .error .body
      | some file => if tgSecContentHash sha256 file.bytes ≠ hash then .error .body else .ok file.bytes
    else .error .body
  | _ => .error .body

/-- The hash and the length of a body. -/
def bodyOf (row : SnapshotRow) : BodySide → Column × Column
  | .request => (row.fields.reqHash, row.fields.reqLen)
  | .response => (row.fields.respHash, row.fields.respLen)

def readBody (index : Index) (files : BlobFiles) (snapshotId : Text) (side : BodySide) :
    Except EvidenceError (List UInt8) :=
  match index.snapshots.find? fun row => row.id = snapshotId with
  | none => .error .notFound
  | some row => do
    assertSnapshotIntegrity sha256 row
    let bytes ← readBlob sha256 files (bodyOf row side).1
    if .number bytes.length ≠ (bodyOf row side).2 then .error .body else .ok bytes

/-! ### Recording -/

structure TgSecEvidenceRecordInput where
  sourceId : Text
  capturedAt : Int
  url : Text
  method : Text
  status : Int
  contentType : Text
  reqHead : Text
  respHead : Text
  flowId : Option Text

/-- The fields of a recording, before they are normalised. -/
def TgSecEvidenceRecordInput.fields (input : TgSecEvidenceRecordInput)
    (request response : List UInt8) : RowFields where
  sourceId := .text input.sourceId
  capturedAt := .number input.capturedAt
  url := .text input.url
  method := .text input.method
  status := .number input.status
  contentType := .text input.contentType
  reqHead := .text input.reqHead
  respHead := .text input.respHead
  reqHash := .text (tgSecContentHash sha256 request)
  respHash := .text (tgSecContentHash sha256 response)
  reqLen := .number request.length
  respLen := .number response.length
  flowId := .text (input.flowId.getD [])

/-- Where `writeBody` is. -/
inductive BodyStep where
  | check
  | refresh
  | stage
  /-- Staged at the given time. -/
  | rename (mtime : Nat)

inductive RecordPhase where
  | body (side : BodySide) (step : BodyStep)
  | insert
  | done
  | failed

/-- A `record` call, from its first body on. -/
structure RecordTask where
  request : List UInt8
  response : List UInt8
  id : Text
  fields : SnapshotFields
  started : Nat
  phase : RecordPhase

namespace RecordTask

def bytes (task : RecordTask) : BodySide → List UInt8
  | .request => task.request
  | .response => task.response

def hash (task : RecordTask) : BodySide → Text
  | .request => task.fields.reqHash
  | .response => task.fields.respHash

/-- What comes after a body. -/
def next : BodySide → RecordPhase
  | .request => .body .response .check
  | .response => .insert

end RecordTask

/-- The start of `record`: the fields and the id. -/
def prepareRecord (request response : List UInt8) (input : TgSecEvidenceRecordInput) (now : Nat) :
    Except EvidenceError RecordTask := do
  let fields ← normalizeEvidenceFields (input.fields sha256 request response)
  let id ← snapshotMetadataId sha256 fields.columns
  return ⟨request, response, id, fields, now, .body .request .check⟩

/-! ### Collecting -/

structure CollectTask where
  now : Nat
  surviving : List Column
  /-- The file that is to be removed next, after its stat. -/
  removing : Option Text
  ended : Bool

/-- The hashes of the rows. -/
def Index.hashes (index : Index) : List Column :=
  index.snapshots.map (fun row => row.fields.reqHash) ++
    index.snapshots.map fun row => row.fields.respHash

/-! ### The store -/

/-- A `record` call that succeeded. -/
structure Recording where
  id : Text
  fields : SnapshotFields
  request : List UInt8
  response : List UInt8
  deriving DecidableEq

structure EvidenceStore where
  index : Index
  files : BlobFiles
  clock : Nat
  records : List RecordTask
  collects : List CollectTask
  /-- When a snapshot was last recorded. -/
  recordedAt : Text → Option Nat
  /-- When the last binding of a snapshot was last removed. -/
  releasedAt : Text → Option Nat
  recorded : List Recording

def EvidenceStore.empty : EvidenceStore :=
  ⟨.empty, fun _ => none, 0, [], [], fun _ => none, fun _ => none, []⟩

/-- What can happen to a store. -/
inductive StoreEvent where
  | tick (elapsed : Nat)
  | record (request response : List UInt8) (input : TgSecEvidenceRecordInput)
  /-- `access` of the body's path. -/
  | check (r : Nat)
  /-- `verifyFile` and `utimes`. -/
  | refresh (r : Nat)
  /-- The body is written to a staging file. -/
  | stage (r : Nat)
  | rename (r : Nat)
  /-- The transaction of `record`. -/
  | insert (r : Nat)
  | recordFails (r : Nat)
  | bind (subjectId : Text) (expectedVersion : Option ℚ) (refs : List TgSecEvidenceRef)
  | writeFinding (input : TgSecFindingWriteInput)
  | edit (subjectId : Text) (expectedVersion : Option ℚ) (edit : TgSecEvidenceEdit)
  /-- The transaction of `collect`. -/
  | collect
  | stat (k : Nat) (hash : Text)
  | remove (k : Nat)

namespace EvidenceStore

variable (s : EvidenceStore)

def setRecord (r : Nat) (task : RecordTask) (phase : RecordPhase) : EvidenceStore :=
  { s with records := s.records.set r { task with phase } }

def setFile (hash : Text) (file : Option BlobFile) : EvidenceStore :=
  { s with files := fun hash' => if hash' = hash then file else s.files hash' }

/-- A transaction on bindings and findings. -/
def transact (call : IndexCall) : EvidenceStore :=
  let next := s.index.after call
  { s with
    index := next
    releasedAt := fun id => if s.index.isReferenced id && !next.isReferenced id then some s.clock
      else s.releasedAt id }

/-- The last step of a `record` call. -/
def insert (r : Nat) (task : RecordTask) : EvidenceStore :=
  { s.setRecord r task .done with
    index := s.index.insertSnapshot task.id task.fields s.clock
    recordedAt := fun id => if id = task.id then some s.clock else s.recordedAt id
    recorded := ⟨task.id, task.fields, task.request, task.response⟩ :: s.recorded }

/-- The first step of a `collect` call. -/
def collect : EvidenceStore :=
  let next := s.index.collectRows s.clock
  { s with index := next, collects := s.collects ++ [⟨s.clock, next.hashes, none, false⟩] }

/-- The stat of a file, and what `collect` decides. -/
def stat (k : Nat) (task : CollectTask) (hash : Text) : EvidenceStore :=
  match s.files hash with
  | none => { s with collects := s.collects.set k { task with ended := true } }
  | some file =>
    if .text hash ∈ task.surviving ∨ task.now - file.mtime < EVIDENCE_GRACE_MS then s
    else { s with collects := s.collects.set k { task with removing := some hash } }

/-- `verifyFile` -/
def verifies (file : BlobFile) (length : Nat) (hash : Text) : Bool :=
  file.bytes.length = length && tgSecContentHash sha256 file.bytes = hash

/-- One step; `none` where it cannot happen. -/
def step : StoreEvent → Option EvidenceStore
  | .tick elapsed => some { s with clock := s.clock + elapsed }
  | .record request response input =>
    match prepareRecord sha256 request response input s.clock with
    | .error _ => some s
    | .ok task => some { s with records := s.records ++ [task] }
  | .check r =>
    s.records[r]?.bind fun task =>
      match task.phase with
      | .body side .check => some (s.setRecord r task
          (.body side (if (s.files (task.hash side)).isSome then .refresh else .stage)))
      | _ => none
  | .refresh r =>
    s.records[r]?.bind fun task =>
      match task.phase with
      | .body side .refresh =>
        match s.files (task.hash side) with
        | none => some (s.setRecord r task .failed)
        | some file =>
          if verifies sha256 file (task.bytes side).length (task.hash side) then
            some ((s.setFile (task.hash side) (some { file with mtime := s.clock })).setRecord r task
              (RecordTask.next side))
          else some (s.setRecord r task .failed)
      | _ => none
  | .stage r =>
    s.records[r]?.bind fun task =>
      match task.phase with
      | .body side .stage => some (s.setRecord r task (.body side (.rename s.clock)))
      | _ => none
  | .rename r =>
    s.records[r]?.bind fun task =>
      match task.phase with
      | .body side (.rename mtime) =>
        some ((s.setFile (task.hash side) (some ⟨task.bytes side, mtime⟩)).setRecord r task
          (RecordTask.next side))
      | _ => none
  | .insert r =>
    s.records[r]?.bind fun task =>
      match task.phase with
      | .insert => some (s.insert r task)
      | _ => none
  | .recordFails r =>
    s.records[r]?.bind fun task =>
      match task.phase with
      | .done | .failed => none
      | _ => some (s.setRecord r task .failed)
  | .bind subjectId expectedVersion refs =>
    some (s.transact (.bind subjectId expectedVersion refs s.clock))
  | .writeFinding input => some (s.transact (.writeFinding input s.clock))
  | .edit subjectId expectedVersion edit =>
    some (s.transact (.edit subjectId expectedVersion edit))
  | .collect => some s.collect
  | .stat k hash =>
    s.collects[k]?.bind fun task =>
      if task.ended ∨ task.removing.isSome then none else some (s.stat k task hash)
  | .remove k =>
    s.collects[k]?.bind fun task => task.removing.map fun hash =>
      { s.setFile hash none with collects := s.collects.set k { task with removing := none } }

/-- A run. -/
def run (s : EvidenceStore) : List StoreEvent → Option EvidenceStore
  | [] => some s
  | event :: rest => (s.step sha256 event).bind fun s => s.run rest

end EvidenceStore

end TianGong.Evidence

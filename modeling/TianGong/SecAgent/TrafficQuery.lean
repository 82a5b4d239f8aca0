/-
**The traffic of a finding.**

`createTrafficQueryTool` (`tools/evidence-tools.ts`): a call lists the bindings of a finding, reads the row
of each, and then one body. Between its reads the store goes on.

* `TrafficQuery.step`: one read of a call, or one step of the store.
* `TrafficQuery.Inv`: what a call has read so far.
* `isolated_iff`: a result stays inside its finding exactly when the snapshot it was asked for, if any, was
  bound to it.
* `body_leaks`: the body of a snapshot that is bound to another finding is given out.
-/

import TianGong.Evidence.Collect

namespace TianGong.SecAgent

open Evidence

/-! ### A call -/

structure TrafficQueryArgs where
  findingId : Text
  snapshotId : Option Text
  side : Option BodySide
  deriving DecidableEq

/-- An entry of `snapshots`. -/
structure TrafficSnapshot where
  snapshotId : Text
  role : TgSecEvidenceRole
  note : Text
  url : Column
  method : Column
  status : Column
  contentType : Column
  requestBytes : Column
  responseBytes : Column
  flowId : Option Column
  deriving DecidableEq

/-- The structured output; a body is in it as its bytes. -/
structure TrafficResult where
  findingId : Text
  version : Nat
  snapshots : List TrafficSnapshot
  body : Option (List UInt8)
  deriving DecidableEq

/-- Where a call is. -/
inductive QueryPhase where
  /-- In the loop over the bindings. -/
  | describing (rest : List TgSecEvidenceBinding)
  /-- Before the transaction of `readBody`. -/
  | resolving (snapshotId : Text)
  /-- Before it reads the file of a row. -/
  | reading (row : SnapshotRow)
  | returned (result : TrafficResult)
  | threw (error : EvidenceError)

/-- A call, and the store that it reads. -/
structure TrafficQuery where
  store : EvidenceStore
  args : TrafficQueryArgs
  /-- The version of the set that was listed. -/
  version : Nat
  snapshots : List TrafficSnapshot
  phase : QueryPhase

inductive QueryEvent where
  | store (event : StoreEvent)
  | read

namespace TrafficQuery

/-- A call, after it listed the set of its finding. -/
def listed (store : EvidenceStore) (args : TrafficQueryArgs) : TrafficQuery :=
  let set := store.index.readSet args.findingId
  ⟨store, args, set.version, [], .describing set.bindings⟩

/-- The side of a body that a call reads. -/
def side (args : TrafficQueryArgs) : BodySide := args.side.getD .response

def described (binding : TgSecEvidenceBinding) (record : TgSecEvidenceSnapshotRecord) : TrafficSnapshot where
  snapshotId := binding.snapshotId
  role := binding.role
  note := binding.note
  url := record.fields.url
  method := record.fields.method
  status := record.fields.status
  contentType := record.fields.contentType
  requestBytes := record.fields.reqLen
  responseBytes := record.fields.respLen
  flowId := if record.fields.flowId = .text [] then none else some record.fields.flowId

def result (q : TrafficQuery) (body : Option (List UInt8)) : TrafficResult :=
  ⟨q.args.findingId, q.version, q.snapshots, body⟩

variable (sha256 : List UInt8 → Text)

/-- The next read of a call. -/
def read (q : TrafficQuery) : Option TrafficQuery :=
  match q.phase with
  | .describing [] =>
    match q.args.snapshotId with
    | none => some { q with phase := .returned (q.result none) }
    | some snapshotId => some { q with phase := .resolving snapshotId }
  | .describing (binding :: rest) =>
    match getSnapshot sha256 q.store.index binding.snapshotId with
    | .error error => some { q with phase := .threw error }
    | .ok none => some { q with phase := .describing rest }
    | .ok (some record) =>
      some { q with snapshots := q.snapshots ++ [described binding record], phase := .describing rest }
  | .resolving snapshotId =>
    match q.store.index.snapshots.find? fun row => row.id = snapshotId with
    | none => some { q with phase := .threw .notFound }
    | some row =>
      match assertSnapshotIntegrity sha256 row with
      | .error error => some { q with phase := .threw error }
      | .ok () => some { q with phase := .reading row }
  | .reading row =>
    match readBlob sha256 q.store.files (bodyOf row (side q.args)).1 with
    | .error error => some { q with phase := .threw error }
    | .ok bytes =>
      if .number bytes.length ≠ (bodyOf row (side q.args)).2 then
        some { q with phase := .threw .body }
      else some { q with phase := .returned (q.result (some bytes)) }
  | .returned _ => none
  | .threw _ => none

def step (q : TrafficQuery) : QueryEvent → Option TrafficQuery
  | .store event => (q.store.step sha256 event).map fun store => { q with store }
  | .read => q.read sha256

def run (q : TrafficQuery) : List QueryEvent → Option TrafficQuery
  | [] => some q
  | event :: rest => (q.step sha256 event).bind fun q => q.run rest

/-! ### What a call has read -/

variable {sha256 : List UInt8 → Text}

variable (sha256) in
/-- The bytes are a body of a row that the id of a snapshot is the hash of. -/
def IsBody (snapshotId : Text) (side : BodySide) (bytes : List UInt8) : Prop :=
  ∃ row : SnapshotRow, row.id = snapshotId ∧ snapshotMetadataId sha256 row.fields = .ok row.id ∧
    bodyOf row side = (.text (tgSecContentHash sha256 bytes), .number bytes.length)

/-- The snapshots that a finding's set in a store names. -/
def Bound (store : EvidenceStore) (findingId snapshotId : Text) : Prop :=
  ∃ binding ∈ (store.index.readSet findingId).bindings, binding.snapshotId = snapshotId

variable (sha256) in
/-- **A result stays inside its finding**, as its set was in a store. -/
structure Isolated (store : EvidenceStore) (args : TrafficQueryArgs) (result : TrafficResult) : Prop where
  version : result.version = (store.index.readSet args.findingId).version
  snapshots : ∀ snapshot ∈ result.snapshots, Bound store args.findingId snapshot.snapshotId
  body : ∀ bytes ∈ result.body, ∃ snapshotId, args.snapshotId = some snapshotId ∧
    Bound store args.findingId snapshotId ∧ IsBody sha256 snapshotId (side args) bytes
  /-- A snapshot that is not bound is refused. -/
  refused : ∀ snapshotId ∈ args.snapshotId, Bound store args.findingId snapshotId

variable (sha256) in
/-- What holds where a call is. -/
def Reads (store : EvidenceStore) (q : TrafficQuery) : QueryPhase → Prop
  | .describing rest => ∀ binding ∈ rest, Bound store q.args.findingId binding.snapshotId
  | .resolving snapshotId => q.args.snapshotId = some snapshotId
  | .reading row => q.args.snapshotId = some row.id ∧ snapshotMetadataId sha256 row.fields = .ok row.id
  | .returned result => ∃ body, result = q.result body ∧
      ∀ bytes ∈ body, ∃ snapshotId, q.args.snapshotId = some snapshotId ∧
        IsBody sha256 snapshotId (side q.args) bytes
  | .threw _ => True

variable (sha256) in
/-- What a call has read, of the set that it listed. -/
structure Inv (store : EvidenceStore) (args : TrafficQueryArgs) (q : TrafficQuery) : Prop where
  asks : q.args = args
  version : q.version = (store.index.readSet args.findingId).version
  snapshots : ∀ snapshot ∈ q.snapshots, Bound store args.findingId snapshot.snapshotId
  reads : Reads sha256 store q q.phase

variable {store : EvidenceStore} {args : TrafficQueryArgs} {q after : TrafficQuery}

theorem inv_listed (store : EvidenceStore) (args : TrafficQueryArgs) :
    Inv sha256 store args (listed store args) where
  asks := rfl
  version := rfl
  snapshots _ isIn := absurd isIn List.not_mem_nil
  reads binding isIn := ⟨binding, isIn, rfl⟩

theorem assertSnapshotIntegrity_ok {row : SnapshotRow}
    (intact : assertSnapshotIntegrity sha256 row = .ok ()) :
    snapshotMetadataId sha256 row.fields = .ok row.id := by
  unfold assertSnapshotIntegrity at intact
  obtain ⟨id, read, same⟩ := Returns.bind_eq_ok.mp intact
  obtain ⟨is, -⟩ := Returns.ite_error_eq_ok.mp same
  rw [read, not_not.mp is]

theorem readBlob_ok {files : BlobFiles} {column : Column} {bytes : List UInt8}
    (read : readBlob sha256 files column = .ok bytes) : column = .text (tgSecContentHash sha256 bytes) := by
  unfold readBlob at read
  split at read
  · split at read
    · split at read
      · cases read
      · obtain ⟨same, is⟩ := Returns.ite_error_eq_ok.mp read
        cases is
        rw [not_not.mp same]
    · cases read
  · cases read

/-- **A read keeps it.** -/
theorem inv_read (inv : Inv sha256 store args q) (stepped : q.read sha256 = some after) :
    Inv sha256 store args after := by
  obtain ⟨isArgs, version, snapshots, reads⟩ := inv
  unfold read at stepped
  cases phase : q.phase with
  | describing rest =>
    rw [phase] at stepped reads
    cases rest with
    | nil =>
      dsimp only at stepped
      cases asked : q.args.snapshotId with
      | none =>
        rw [asked] at stepped
        cases stepped
        exact ⟨isArgs, version, snapshots, none, rfl, fun bytes isIn => absurd isIn (Option.not_mem_none bytes)⟩
      | some snapshotId =>
        rw [asked] at stepped
        cases stepped
        exact ⟨isArgs, version, snapshots, asked⟩
    | cons binding rest =>
      obtain ⟨here, later⟩ := List.forall_mem_cons.mp reads
      dsimp only at stepped
      cases read : getSnapshot sha256 q.store.index binding.snapshotId with
      | error error =>
        rw [read] at stepped
        cases stepped
        exact ⟨isArgs, version, snapshots, trivial⟩
      | ok found =>
        rw [read] at stepped
        cases found with
        | none =>
          cases stepped
          exact ⟨isArgs, version, snapshots, later⟩
        | some record =>
          cases stepped
          refine ⟨isArgs, version, ?_, later⟩
          intro snapshot isIn
          rcases List.mem_append.mp isIn with before | last
          · exact snapshots snapshot before
          · rw [List.mem_singleton.mp last, ← isArgs]
            exact here
  | resolving snapshotId =>
    rw [phase] at stepped reads
    dsimp only at stepped
    cases found : q.store.index.snapshots.find? fun row => row.id = snapshotId with
    | none =>
      rw [found] at stepped
      cases stepped
      exact ⟨isArgs, version, snapshots, trivial⟩
    | some row =>
      rw [found] at stepped
      dsimp only at stepped
      cases intact : assertSnapshotIntegrity sha256 row with
      | error error =>
        rw [intact] at stepped
        cases stepped
        exact ⟨isArgs, version, snapshots, trivial⟩
      | ok _ =>
        rw [intact] at stepped
        cases stepped
        have isId : row.id = snapshotId := by simpa using List.find?_some found
        refine ⟨isArgs, version, snapshots, ?_, assertSnapshotIntegrity_ok intact⟩
        rw [isId]
        exact reads
  | reading row =>
    rw [phase] at stepped reads
    obtain ⟨asked, hashes⟩ := reads
    dsimp only at stepped
    cases read : readBlob sha256 q.store.files (bodyOf row (side q.args)).1 with
    | error error =>
      rw [read] at stepped
      cases stepped
      exact ⟨isArgs, version, snapshots, trivial⟩
    | ok bytes =>
      rw [read] at stepped
      dsimp only at stepped
      split at stepped
      · cases stepped
        exact ⟨isArgs, version, snapshots, trivial⟩
      · rename_i length
        cases stepped
        refine ⟨isArgs, version, snapshots, some bytes, rfl, fun other is => ?_⟩
        cases is
        exact ⟨row.id, asked, row, rfl, hashes, Prod.ext (readBlob_ok read) (not_not.mp length).symm⟩
  | returned result | threw error =>
    rw [phase] at stepped
    cases stepped

/-- **So does whatever happens to the store.** -/
theorem inv_step (inv : Inv sha256 store args q) {event : QueryEvent}
    (stepped : q.step sha256 event = some after) : Inv sha256 store args after := by
  cases event with
  | store event =>
    obtain ⟨next, -, rfl⟩ := Option.map_eq_some_iff.mp stepped
    obtain ⟨isArgs, version, snapshots, reads⟩ := inv
    refine ⟨isArgs, version, snapshots, ?_⟩
    revert reads
    dsimp only
    cases q.phase <;> exact id
  | read => exact inv_read inv stepped

theorem inv_run (inv : Inv sha256 store args q) {events : List QueryEvent}
    (ran : q.run sha256 events = some after) : Inv sha256 store args after := by
  induction events generalizing q with
  | nil =>
    cases ran
    exact inv
  | cons event rest ih =>
    obtain ⟨next, stepped, later⟩ := Option.bind_eq_some_iff.mp ran
    exact ih (inv_step inv stepped) later

/-- **A result stays inside its finding** exactly when the snapshot that was asked for, if any, was in the set
of the finding when it was listed. -/
theorem isolated_iff (store : EvidenceStore) (args : TrafficQueryArgs) {events : List QueryEvent}
    {result : TrafficResult} (ran : (listed store args).run sha256 events = some after)
    (returned : after.phase = .returned result) :
    Isolated sha256 store args result ↔
      ∀ snapshotId ∈ args.snapshotId, Bound store args.findingId snapshotId := by
  refine ⟨Isolated.refused, fun bound => ?_⟩
  obtain ⟨isArgs, version, snapshots, reads⟩ := inv_run (inv_listed store args) ran
  rw [returned] at reads
  obtain ⟨body, rfl, bodies⟩ := reads
  refine ⟨version, snapshots, fun bytes isBody => ?_, bound⟩
  obtain ⟨snapshotId, asked, is⟩ := bodies bytes isBody
  rw [isArgs] at asked is
  exact ⟨snapshotId, asked, bound snapshotId asked, is⟩

/-! ### The body of another finding -/

/-- The bytes of `secret`, and their SHA-256. -/
def secretBytes : List UInt8 := [115, 101, 99, 114, 101, 116]

def secretHash : Text := text "2bb80d537b1da3e38bd30361aa855686bde0eacd7162fef6a25fe97bf527a25b"

/-- The demo recording, with another response. -/
def secretFields : SnapshotFields :=
  { EvidenceStore.demoFields with respHash := secretHash, respLen := 6 }

/-- The SHA-256 of what it is encoded as. -/
def secretId : Text := text "83459e230e35dc391ec7b05bb8b611349d338116535c407b532bafb939a743e2"

/-- SHA-256 of the inputs that it has. -/
def secretSha256 (bytes : List UInt8) : Text :=
  if bytes = [] then EvidenceStore.emptyHash
  else if bytes = secretBytes then secretHash
  else if encodeEvidenceSnapshotPreimage secretFields = .ok bytes then secretId
  else List.replicate 64 48

/-- It is recorded and bound to `F-1`. -/
def secretEvents : List StoreEvent :=
  [.record [] secretBytes EvidenceStore.demoInput, .check 0, .stage 0, .rename 0, .check 0, .stage 0, .rename 0,
    .insert 0, .bind (text "F-1") none [⟨secretId, none, none⟩]]

/-- A call for the body of the recording. -/
def secretArgs (findingId : Text) : TrafficQueryArgs := ⟨findingId, some secretId, none⟩

/-- What a call returned. -/
def QueryPhase.result? : QueryPhase → Option TrafficResult
  | .returned result => some result
  | _ => none

theorem phase_of_result {phase : QueryPhase} {result : TrafficResult} (is : QueryPhase.result? phase = some result) :
    phase = .returned result := by
  cases phase <;> cases is
  rfl

/-- What is in the store, and what comes of calls for `F-1` and for `F-2`. -/
theorem secret_runs : (EvidenceStore.empty.run secretSha256 secretEvents).map (fun s =>
      ((s.index.readSet (text "F-1")).bindings.map TgSecEvidenceBinding.snapshotId,
        (s.index.readSet (text "F-2")).bindings.map TgSecEvidenceBinding.snapshotId,
        ((listed s (secretArgs (text "F-1"))).run secretSha256 [.read, .read, .read, .read]).bind
          fun q => (QueryPhase.result? q.phase).bind TrafficResult.body,
        ((listed s (secretArgs (text "F-2"))).run secretSha256 [.read, .read, .read]).bind
          fun q => (QueryPhase.result? q.phase).bind TrafficResult.body)) =
      some ([secretId], [], some secretBytes, some secretBytes) := by
  decide +kernel

theorem bound_iff {findingId snapshotId : Text} : Bound store findingId snapshotId ↔
    snapshotId ∈ (store.index.readSet findingId).bindings.map TgSecEvidenceBinding.snapshotId :=
  List.mem_map.symm

/-- A call for `F-1` gets the body. -/
theorem secret_isolated : ∃ store, EvidenceStore.empty.run secretSha256 secretEvents = some store ∧
    ∃ after result, (listed store (secretArgs (text "F-1"))).run secretSha256 [.read, .read, .read, .read] =
        some after ∧ after.phase = .returned result ∧
      result.body = some secretBytes ∧ Isolated secretSha256 store (secretArgs (text "F-1")) result := by
  obtain ⟨store, stored, facts⟩ := Option.map_eq_some_iff.mp secret_runs
  obtain ⟨first, rest⟩ := Prod.mk.inj facts
  obtain ⟨after, ran, here⟩ := Option.bind_eq_some_iff.mp (Prod.mk.inj (Prod.mk.inj rest).2).1
  obtain ⟨result, is, body⟩ := Option.bind_eq_some_iff.mp here
  refine ⟨store, stored, after, result, ran, phase_of_result is, body,
    (isolated_iff store _ ran (phase_of_result is)).mpr fun snapshotId asked => ?_⟩
  cases asked
  rw [bound_iff]
  exact first ▸ List.mem_singleton_self secretId

/-- **The body of a snapshot that is bound to `F-1` alone** is given out by a call for `F-2`. -/
theorem body_leaks : ∃ store, EvidenceStore.empty.run secretSha256 secretEvents = some store ∧
    ∃ after result, (listed store (secretArgs (text "F-2"))).run secretSha256 [.read, .read, .read] = some after ∧
      after.phase = .returned result ∧ result.body = some secretBytes ∧
      ¬Isolated secretSha256 store (secretArgs (text "F-2")) result := by
  obtain ⟨store, stored, facts⟩ := Option.map_eq_some_iff.mp secret_runs
  obtain ⟨-, rest⟩ := Prod.mk.inj facts
  obtain ⟨second, calls⟩ := Prod.mk.inj rest
  obtain ⟨after, ran, here⟩ := Option.bind_eq_some_iff.mp (Prod.mk.inj calls).2
  obtain ⟨result, is, body⟩ := Option.bind_eq_some_iff.mp here
  refine ⟨store, stored, after, result, ran, phase_of_result is, body, fun isolated => ?_⟩
  have bound := bound_iff.mp (isolated.refused secretId rfl)
  rw [show (secretArgs (text "F-2")).findingId = text "F-2" from rfl, second] at bound
  cases bound

end TrafficQuery

end TianGong.SecAgent

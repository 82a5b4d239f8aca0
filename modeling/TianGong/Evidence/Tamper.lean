/-
**Evidence that was tampered with.**

Rows and files may be changed under the store once it has run.

* `Untouched`: the condition: a row that hashes to its id has the id of a recording, and texts that
  normalisation leaves as they are.
* `sound_run`: a recording's id and hashes are those of its fields and bodies.
* `genuine_iff`: what is read is genuine exactly under the condition.
* `not_genuine`: a text that is followed by a NUL hashes as before, and is read with it.

The id pins what the columns normalise to, and the reader gets the columns.
-/

import TianGong.Evidence.Collect

namespace TianGong.Evidence

open Returns (bind_eq_ok ite_error_eq_ok)

variable {sha256 : List UInt8 → Text}

/-- A body of a recording. -/
def Recording.body (recording : Recording) : BodySide → List UInt8
  | .request => recording.request
  | .response => recording.response

section Statement

variable (sha256)

/-- What is read under an id is what a recording put there. -/
def Genuine (recorded : List Recording) (index : Index) (files : BlobFiles) (id : Text) : Prop :=
  (∀ record, getSnapshot sha256 index id = .ok (some record) →
    ∃ recording ∈ recorded, recording.id = id ∧ record.fields = recording.fields.columns) ∧
  ∀ side bytes, readBody sha256 index files id side = .ok bytes →
    ∃ recording ∈ recorded, recording.id = id ∧ bytes = recording.body side

/-- No other bytes hash like a body or a preimage of a recording. -/
def CollisionFree (recorded : List Recording) : Prop :=
  ∀ recording ∈ recorded, ∀ known, (known = recording.request ∨ known = recording.response ∨
      encodeEvidenceSnapshotPreimage recording.fields = .ok known) →
    ∀ other, sha256 other = sha256 known → other = known

/-- The row of an id, if it hashes to it, is one of a recording's and has clean texts. -/
def Untouched (recorded : List Recording) (index : Index) (id : Text) : Prop :=
  ∀ row, index.snapshots.find? (fun row => row.id = id) = some row →
    snapshotMetadataId sha256 row.fields = .ok id →
      (∃ recording ∈ recorded, recording.id = id) ∧ row.fields.Clean

end Statement

/-! ### What was recorded -/

/-- A recording's id and hashes are those of its fields and bodies. -/
structure Recording.Sound (sha256 : List UInt8 → Text) (recording : Recording) : Prop where
  normal : recording.fields.Normal
  id : ∃ preimage, encodeEvidenceSnapshotPreimage recording.fields = .ok preimage ∧
    sha256 preimage = recording.id
  reqHash : recording.fields.reqHash = sha256 recording.request
  respHash : recording.fields.respHash = sha256 recording.response

/-- What a call will have recorded. -/
def RecordTask.recording (task : RecordTask) : Recording :=
  ⟨task.id, task.fields, task.request, task.response⟩

theorem snapshotMetadataId_ok {row : RowFields} {id : Text}
    (is : snapshotMetadataId sha256 row = .ok id) :
    ∃ fields preimage, normalizeEvidenceFields row = .ok fields ∧
      encodeEvidenceSnapshotPreimage fields = .ok preimage ∧ sha256 preimage = id := by
  obtain ⟨fields, normalized, is⟩ := bind_eq_ok.mp is
  obtain ⟨preimage, encoded, is⟩ := bind_eq_ok.mp is
  exact ⟨fields, preimage, normalized, encoded, Except.ok.inj is⟩

theorem prepareRecord_sound {request response : List UInt8} {input : TgSecEvidenceRecordInput}
    {now : Nat} {task : RecordTask}
    (made : prepareRecord sha256 request response input now = .ok task) :
    task.recording.Sound sha256 := by
  obtain ⟨fields, normalized, made⟩ := bind_eq_ok.mp made
  obtain ⟨id, isId, made⟩ := bind_eq_ok.mp made
  cases made
  obtain ⟨normal, reqHash, respHash, -⟩ := normalizeEvidenceFields_ok normalized
  obtain ⟨fields', preimage, again, encoded, isId⟩ := snapshotMetadataId_ok isId
  rw [normalizeEvidenceFields_normal normal] at again
  cases again
  exact ⟨normal, ⟨preimage, encoded, isId⟩, (Column.text.inj reqHash).symm,
    (Column.text.inj respHash).symm⟩

/-- Every recording is sound, and every call will record one that is. -/
structure EvidenceStore.Sound (sha256 : List UInt8 → Text) (s : EvidenceStore) : Prop where
  tasks : ∀ task ∈ s.records, task.recording.Sound sha256
  recorded : ∀ recording ∈ s.recorded, recording.Sound sha256

namespace EvidenceStore

variable {s after : EvidenceStore}

theorem sound_setRecord (sound : s.Sound sha256) {r : Nat} {task : RecordTask}
    (found : s.records[r]? = some task) (phase : RecordPhase) :
    (s.setRecord r task phase).Sound sha256 := by
  refine ⟨fun task' inside => ?_, sound.recorded⟩
  rcases List.mem_or_eq_of_mem_set inside with before | rfl
  · exact sound.tasks task' before
  · exact sound.tasks task (List.mem_of_getElem? found)

/-- A step on the files of a call keeps its tasks and what was recorded. -/
theorem sound_setFile (sound : s.Sound sha256) (hash : Text) (file : Option BlobFile) :
    (s.setFile hash file).Sound sha256 :=
  ⟨sound.tasks, sound.recorded⟩

theorem sound_step (sound : s.Sound sha256) {event : StoreEvent}
    (stepped : s.step sha256 event = some after) : after.Sound sha256 := by
  cases event with
  | record request response input =>
    cases made : prepareRecord sha256 request response input s.clock with
    | error e =>
      simp only [step, made] at stepped
      cases stepped
      exact sound
    | ok task =>
      simp only [step, made] at stepped
      cases stepped
      refine ⟨fun task' inside => ?_, sound.recorded⟩
      rcases List.mem_append.mp inside with before | new
      · exact sound.tasks task' before
      · rw [List.mem_singleton.mp new]
        exact prepareRecord_sound made
  | insert r =>
    obtain ⟨task, found, stepped⟩ := Option.bind_eq_some_iff.mp stepped
    split at stepped
    · cases stepped
      refine ⟨(sound_setRecord sound found .done).tasks, fun recording inside => ?_⟩
      rcases List.mem_cons.mp inside with rfl | before
      · exact sound.tasks task (List.mem_of_getElem? found)
      · exact sound.recorded recording before
    · cases stepped
  | check r | stage r | recordFails r =>
    obtain ⟨task, found, stepped⟩ := Option.bind_eq_some_iff.mp stepped
    split at stepped <;> cases stepped
    exact sound_setRecord sound found _
  | rename r =>
    obtain ⟨task, found, stepped⟩ := Option.bind_eq_some_iff.mp stepped
    split at stepped <;> cases stepped
    exact sound_setRecord (sound_setFile sound _ _) found _
  | refresh r =>
    obtain ⟨task, found, stepped⟩ := Option.bind_eq_some_iff.mp stepped
    split at stepped
    · split at stepped
      · cases stepped
        exact sound_setRecord sound found .failed
      · split at stepped <;> cases stepped
        · exact sound_setRecord (sound_setFile sound _ _) found _
        · exact sound_setRecord sound found .failed
    · cases stepped
  | stat k hash =>
    obtain ⟨task, found, stepped⟩ := Option.bind_eq_some_iff.mp stepped
    obtain ⟨-, is⟩ := Option.ite_none_left_eq_some.mp stepped
    cases is
    unfold stat
    split
    · exact ⟨sound.tasks, sound.recorded⟩
    · split
      · exact sound
      · exact ⟨sound.tasks, sound.recorded⟩
  | remove k =>
    obtain ⟨task, found, stepped⟩ := Option.bind_eq_some_iff.mp stepped
    obtain ⟨hash, -, is⟩ := Option.map_eq_some_iff.mp stepped
    cases is
    exact ⟨sound.tasks, sound.recorded⟩
  | tick elapsed | bind subjectId expected refs | writeFinding input
  | edit subjectId expected edit | collect =>
    cases stepped
    exact ⟨sound.tasks, sound.recorded⟩

theorem sound_run (sound : s.Sound sha256) {events : List StoreEvent}
    (ran : s.run sha256 events = some after) : after.Sound sha256 := by
  induction events generalizing s with
  | nil =>
    cases ran
    exact sound
  | cons event rest ih =>
    obtain ⟨next, stepped, goesOn⟩ := Option.bind_eq_some_iff.mp ran
    exact ih (sound_step sound stepped) goesOn

theorem sound_empty : EvidenceStore.empty.Sound sha256 :=
  ⟨fun _ inside => (nomatch inside), fun _ inside => (nomatch inside)⟩

end EvidenceStore

/-! ### What is read -/

variable {index : Index} {files : BlobFiles} {id : Text}

variable {row : SnapshotRow} {bytes : List UInt8}

theorem assertSnapshotIntegrity_eq_ok :
    assertSnapshotIntegrity sha256 row = .ok () ↔
      snapshotMetadataId sha256 row.fields = .ok row.id := by
  unfold assertSnapshotIntegrity
  rw [bind_eq_ok]
  constructor
  · rintro ⟨id, is, same⟩
    rw [is, not_not.mp (ite_error_eq_ok.mp same).1]
  · intro is
    exact ⟨row.id, is, if_neg (not_not.mpr rfl)⟩

theorem row_id {rows : List SnapshotRow} (found : rows.find? (fun row => row.id = id) = some row) :
    row.id = id := by
  simpa using List.find?_some found

theorem getSnapshot_eq_ok {record : TgSecEvidenceSnapshotRecord} :
    getSnapshot sha256 index id = .ok (some record) ↔
      ∃ row, index.snapshots.find? (fun row => row.id = id) = some row ∧
        snapshotMetadataId sha256 row.fields = .ok id ∧
        record = ⟨row.id, row.fields, row.createdAt⟩ := by
  unfold getSnapshot
  constructor
  · intro is
    split at is
    · cases is
    · rename_i row found
      obtain ⟨_, whole, is⟩ := bind_eq_ok.mp is
      have isId : row.id = id := row_id found
      rw [assertSnapshotIntegrity_eq_ok, isId] at whole
      exact ⟨row, found, whole, (Option.some.inj (Except.ok.inj is)).symm⟩
  · rintro ⟨row, found, whole, rfl⟩
    have isId : row.id = id := row_id found
    rw [found]
    refine bind_eq_ok.mpr ⟨(), ?_, rfl⟩
    rw [assertSnapshotIntegrity_eq_ok, isId]
    exact whole

theorem readBlob_ok {hash : Text} (is : readBlob sha256 files (.text hash) = .ok bytes) :
    sha256 bytes = hash := by
  unfold readBlob at is
  obtain ⟨-, is⟩ := Returns.ite_ok_eq_ok.mp is
  split at is
  · cases is
  · obtain ⟨same, is⟩ := ite_error_eq_ok.mp is
    cases is
    exact not_not.mp same

theorem readBody_ok {side : BodySide} (is : readBody sha256 index files id side = .ok bytes) :
    ∃ row, index.snapshots.find? (fun row => row.id = id) = some row ∧
      snapshotMetadataId sha256 row.fields = .ok id ∧
      readBlob sha256 files (bodyOf row side).1 = .ok bytes := by
  unfold readBody at is
  split at is
  · cases is
  · rename_i row found
    obtain ⟨_, whole, is⟩ := bind_eq_ok.mp is
    obtain ⟨bytes', read, is⟩ := bind_eq_ok.mp is
    obtain ⟨-, is⟩ := ite_error_eq_ok.mp is
    cases is
    have isId : row.id = id := row_id found
    rw [assertSnapshotIntegrity_eq_ok, isId] at whole
    exact ⟨row, found, whole, read⟩

/-- **The id pins the fields**: of two that hash to it, one being a recording's. -/
theorem fields_pinned {recorded : List Recording} (free : CollisionFree sha256 recorded)
    {recording : Recording} (inside : recording ∈ recorded) (sound : recording.Sound sha256)
    {row : RowFields} (whole : snapshotMetadataId sha256 row = .ok recording.id) :
    normalizeEvidenceFields row = .ok recording.fields := by
  obtain ⟨fields, preimage, normalized, encoded, isId⟩ := snapshotMetadataId_ok whole
  obtain ⟨known, encoded', isKnown⟩ := sound.id
  have same : preimage = known :=
    free recording inside known (.inr (.inr encoded')) preimage (isId.trans isKnown.symm)
  subst same
  have normal := (normalizeEvidenceFields_ok normalized).1
  rw [normalized, encode_injective normal sound.normal encoded encoded']

theorem body_pinned {recorded : List Recording} (free : CollisionFree sha256 recorded)
    {recording : Recording} (inside : recording ∈ recorded) (sound : recording.Sound sha256)
    (pinned : normalizeEvidenceFields row.fields = .ok recording.fields) {side : BodySide}
    (read : readBlob sha256 files (bodyOf row side).1 = .ok bytes) :
    bytes = recording.body side := by
  obtain ⟨-, reqHash, respHash, -⟩ := normalizeEvidenceFields_ok pinned
  cases side with
  | request =>
    unfold bodyOf at read
    rw [reqHash] at read
    exact free recording inside _ (.inl rfl) bytes ((readBlob_ok read).trans sound.reqHash)
  | response =>
    unfold bodyOf at read
    rw [respHash] at read
    exact free recording inside _ (.inr (.inl rfl)) bytes ((readBlob_ok read).trans sound.respHash)

/-- **Evidence is tamper-evident** exactly where the row that hashes to an id has the id of a
recording, and no text that normalisation changes. -/
theorem genuine_iff {events : List StoreEvent} {s : EvidenceStore}
    (ran : EvidenceStore.empty.run sha256 events = some s)
    (free : CollisionFree sha256 s.recorded) (index : Index) (files : BlobFiles) (id : Text) :
    Genuine sha256 s.recorded index files id ↔ Untouched sha256 s.recorded index id := by
  have sound := (EvidenceStore.sound_run EvidenceStore.sound_empty ran).recorded
  constructor
  · rintro ⟨snapshot, -⟩ row found whole
    obtain ⟨recording, inside, isId, fields⟩ :=
      snapshot _ (getSnapshot_eq_ok.mpr ⟨row, found, whole, rfl⟩)
    refine ⟨⟨recording, inside, isId⟩, ?_⟩
    rw [show row.fields = recording.fields.columns from fields]
    exact clean_columns (sound recording inside).normal
  · intro untouched
    refine ⟨fun record is => ?_, fun side bytes is => ?_⟩
    · obtain ⟨row, found, whole, rfl⟩ := getSnapshot_eq_ok.mp is
      obtain ⟨⟨recording, inside, rfl⟩, clean⟩ := untouched row found whole
      have pinned := fields_pinned free inside (sound recording inside) whole
      exact ⟨recording, inside, rfl, (normalizeEvidenceFields_ok pinned).2.2.2 clean⟩
    · obtain ⟨row, found, whole, read⟩ := readBody_ok is
      obtain ⟨⟨recording, inside, rfl⟩, -⟩ := untouched row found whole
      have pinned := fields_pinned free inside (sound recording inside) whole
      exact ⟨recording, inside, rfl, body_pinned free inside (sound recording inside) pinned read⟩

/-! ### A text with a NUL -/

namespace EvidenceStore

theorem collisionFree_demo : CollisionFree demoSha256 [⟨demoId, demoFields, [], []⟩] := by
  intro recording inside known isKnown other same
  rw [List.mem_singleton.mp inside] at isKnown
  have apart : emptyHash ≠ demoId ∧ emptyHash ≠ List.replicate 64 48 ∧
      demoId ≠ List.replicate 64 48 := by decide
  have some : encodeEvidenceSnapshotPreimage demoFields ≠ .ok [] := by decide
  have ofEmpty (isEmpty : known = []) : other = known := by
    subst isEmpty
    unfold demoSha256 at same
    rw [if_pos rfl] at same
    split at same
    · assumption
    · split at same
      · exact (apart.1 same.symm).elim
      · exact (apart.2.1 same.symm).elim
  rcases isKnown with isEmpty | isEmpty | encoded
  · exact ofEmpty isEmpty
  · exact ofEmpty isEmpty
  · have full : known ≠ [] := by
      rintro rfl
      exact some encoded
    unfold demoSha256 at same
    rw [if_neg full, if_pos encoded] at same
    split at same
    · exact (apart.1 same).elim
    · split at same
      · rename_i encoded'
        exact Except.ok.inj (encoded'.symm.trans encoded)
      · exact (apart.2.2 same.symm).elim

/-- Fields whose URL is its bytes and a NUL. -/
def withNul (row : RowFields) : RowFields :=
  { row with url := .bytes (Utf8.encode demoInput.url ++ [0]) }

/-- The URL of each row is changed. -/
def spliced (index : Index) : Index :=
  { index with snapshots := index.snapshots.map fun row => { row with fields := withNul row.fields } }

theorem run_demo : ∃ s, EvidenceStore.empty.run demoSha256 recordEvents = some s ∧
    s.recorded = [⟨demoId, demoFields, [], []⟩] ∧
    ∃ row : SnapshotRow, s.index.snapshots = [row] ∧ row.id = demoId ∧
      row.fields = demoFields.columns := by
  have ran : (EvidenceStore.empty.run demoSha256 recordEvents).map
      (fun s => (s.recorded, s.index.snapshots.map fun row => (row.id, row.fields))) =
        some ([⟨demoId, demoFields, [], []⟩], [(demoId, demoFields.columns)]) := by
    decide +kernel
  obtain ⟨s, is, facts⟩ := Option.map_eq_some_iff.mp ran
  obtain ⟨recorded, rows⟩ := Prod.mk.inj facts
  obtain ⟨row, isRow, both⟩ := List.map_eq_singleton_iff.mp rows
  obtain ⟨isId, fields⟩ := Prod.mk.inj both
  exact ⟨s, is, recorded, row, isRow, isId, fields⟩

theorem genuine_recorded : ∃ s, EvidenceStore.empty.run demoSha256 recordEvents = some s ∧
    CollisionFree demoSha256 s.recorded ∧
    Genuine demoSha256 s.recorded s.index s.files demoId := by
  obtain ⟨s, ran, recorded, row, rows, isId, fields⟩ := run_demo
  have free : CollisionFree demoSha256 s.recorded := by
    rw [recorded]
    exact collisionFree_demo
  have sound := (sound_run sound_empty ran).recorded
  refine ⟨s, ran, free, (genuine_iff ran free s.index s.files demoId).mpr fun row' found _ => ?_⟩
  have inside : ⟨demoId, demoFields, [], []⟩ ∈ s.recorded := by
    rw [recorded]
    exact List.mem_singleton_self _
  have isRow := List.mem_of_find?_eq_some found
  rw [rows] at isRow
  refine ⟨⟨_, inside, rfl⟩, ?_⟩
  rw [List.mem_singleton.mp isRow, fields]
  exact clean_columns (sound _ inside).normal

/-- **The altered URL is read**, under the id that it had. -/
theorem not_genuine : ∃ s, EvidenceStore.empty.run demoSha256 recordEvents = some s ∧
    CollisionFree demoSha256 s.recorded ∧
    ¬ Genuine demoSha256 s.recorded (spliced s.index) s.files demoId := by
  obtain ⟨s, ran, recorded, row, rows, isId, fields⟩ := run_demo
  refine ⟨s, ran, ?_, fun genuine => ?_⟩
  · rw [recorded]
    exact collisionFree_demo
  · have found : (spliced s.index).snapshots.find? (fun row => row.id = demoId) =
        some { row with fields := withNul row.fields } := by
      show (s.index.snapshots.map fun row => { row with fields := withNul row.fields }).find? _ = _
      rw [rows]
      exact List.find?_cons_of_pos (decide_eq_true isId)
    have whole : snapshotMetadataId demoSha256 (withNul demoFields.columns) = .ok demoId := by
      decide +kernel
    rw [← fields] at whole
    obtain ⟨recording, -, -, same⟩ := genuine.1 _ (getSnapshot_eq_ok.mpr ⟨_, found, whole, rfl⟩)
    have url : Column.bytes (Utf8.encode demoInput.url ++ [0]) = .text recording.fields.url :=
      congrArg TgSecEvidenceSnapshotFields.url same
    cases url

end EvidenceStore

end TianGong.Evidence

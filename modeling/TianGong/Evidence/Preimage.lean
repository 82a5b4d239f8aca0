/-
**What a snapshot id is made of.**

The preimage of an id, of fields that were accepted.

* `RowFields.withFlow`, `RowFields.Short`: fields as they are handed in.
* `snapshot_identified`: both, of any accepted fields and in every state that is reached.

Texts are any sequences of code units. What is normalised has no lone surrogate and no NUL, and is
encoded by no more bytes than before.
-/

import Mathlib.Data.List.Flatten
import TianGong.Evidence.Tamper

namespace TianGong.Evidence

open Returns (bind_eq_ok)

variable {sha256 : List UInt8 → Text}

/-- Fields with a flow id; an absent one counts as the empty one. -/
def RowFields.withFlow (row : RowFields) (flowId : Option Text) : RowFields :=
  { row with flowId := .text (flowId.getD []) }

/-- Every text is encoded by fewer than `2 ^ 32` bytes. -/
def RowFields.Short (row : RowFields) : Prop :=
  ∀ column ∈ row.texts, ∃ t, column = .text t ∧ (Utf8.encode t).length < 2 ^ 32

/-- Two records have preimages, which are the same only for the same fields. -/
def Told (a b : SnapshotFields) : Prop :=
  ∃ p q, encodeEvidenceSnapshotPreimage a = .ok p ∧ encodeEvidenceSnapshotPreimage b = .ok q ∧
    (p = q ↔ a = b) ∧ (a.flowId = [] → b.flowId ≠ [] → p ≠ q)

section Statement

variable (sha256)

/-- What is read under an id encodes to the preimage of recorded fields, which the id was made of. -/
def ReadAs (index : Index) (id : Text) (fields : SnapshotFields) : Prop :=
  ∃ record preimage, getSnapshot sha256 index id = .ok (some record) ∧
    encodeEvidenceSnapshotPreimage fields = .ok preimage ∧ sha256 preimage = id ∧
    (normalizeEvidenceFields record.fields >>= encodeEvidenceSnapshotPreimage) = .ok preimage

/-- A row is read back as it was recorded: when it is stored, and in the state that was reached. -/
def ReadBack (s : EvidenceStore) : Prop :=
  (∀ r task after, s.records[r]? = some task → s.step sha256 (.insert r) = some after →
    s.index.hasSnapshot task.id = false → ReadAs sha256 after.index task.id task.fields) ∧
  ∀ row ∈ s.index.snapshots, ∃ recording ∈ s.recorded, recording.id = row.id ∧
    ReadAs sha256 s.index row.id recording.fields

end Statement

/-! ### Accepted fields have a preimage -/

/-- **What was normalised is no longer**, in bytes. -/
theorem length_encode_normal {t normal : Text}
    (is : normalizeEvidenceText (.text t) = .ok normal) :
    (Utf8.encode normal).length ≤ (Utf8.encode t).length := by
  have shape : normal = Utf8.units ((Utf8.scalars t).filter fun c => c ≠ Char.ofNat 0) := by
    rw [← filter_units]
    have decoded : utf8Text (.text t) = .ok (Utf8.units (Utf8.scalars t)) :=
      congrArg Except.ok (Utf8.decode_encode t)
    rw [normalizeEvidenceText, decoded] at is
    exact (Except.ok.inj is).symm
  rw [shape, Utf8.encode_units]
  exact (List.filter_sublist.flatMap _).length_le

theorem pushString_short {t : Text} (short : (Utf8.encode t).length < 2 ^ 32) :
    ∃ bytes, pushString t = .ok bytes :=
  ⟨_, if_pos short⟩

theorem pushFlow_short {t : Text} (short : (Utf8.encode t).length < 2 ^ 32) :
    ∃ bytes, pushFlow t = .ok bytes := by
  unfold pushFlow
  split
  · exact ⟨[], rfl⟩
  · exact pushString_short short

/-- **Accepted fields have a preimage.** -/
theorem encode_short {row : RowFields} {fields : SnapshotFields} (short : row.Short)
    (accepted : normalizeEvidenceFields row = .ok fields) :
    ∃ preimage, encodeEvidenceSnapshotPreimage fields = .ok preimage := by
  unfold normalizeEvidenceFields at accepted
  simp only [bind_eq_ok] at accepted
  obtain ⟨_, -, _, -, _, -, _, -, _, -, _, -, _, sourceId, _, url, _, method, _, contentType,
    _, reqHead, _, respHead, _, flowId, is⟩ := accepted
  have within {column : Column} {t : Text} (inside : column ∈ row.texts)
      (normal : normalizeEvidenceText column = .ok t) : (Utf8.encode t).length < 2 ^ 32 := by
    obtain ⟨t', rfl, bounded⟩ := short column inside
    exact (length_encode_normal normal).trans_lt bounded
  obtain ⟨_, pushedSource⟩ := pushString_short (within (by simp [RowFields.texts]) sourceId)
  obtain ⟨_, pushedUrl⟩ := pushString_short (within (by simp [RowFields.texts]) url)
  obtain ⟨_, pushedMethod⟩ := pushString_short (within (by simp [RowFields.texts]) method)
  obtain ⟨_, pushedType⟩ := pushString_short (within (by simp [RowFields.texts]) contentType)
  obtain ⟨_, pushedReqHead⟩ := pushString_short (within (by simp [RowFields.texts]) reqHead)
  obtain ⟨_, pushedRespHead⟩ := pushString_short (within (by simp [RowFields.texts]) respHead)
  obtain ⟨_, pushedFlow⟩ := pushFlow_short (within (by simp [RowFields.texts]) flowId)
  rw [← Except.ok.inj is]
  refine ⟨_, bind_eq_ok.mpr ⟨_, pushedSource, bind_eq_ok.mpr ⟨_, pushedUrl, bind_eq_ok.mpr
    ⟨_, pushedMethod, bind_eq_ok.mpr ⟨_, pushedType, bind_eq_ok.mpr ⟨_, pushedReqHead,
    bind_eq_ok.mpr ⟨_, pushedRespHead, bind_eq_ok.mpr ⟨_, pushedFlow, rfl⟩⟩⟩⟩⟩⟩⟩⟩

/-- **A preimage tells the fields**, and a flow id is one of them. -/
theorem told_of_normal {a b : SnapshotFields} (first : a.Normal) (second : b.Normal)
    {p q : List UInt8} (encoded : encodeEvidenceSnapshotPreimage a = .ok p)
    (encoded' : encodeEvidenceSnapshotPreimage b = .ok q) : Told a b := by
  have same : p = q ↔ a = b := by
    constructor
    · rintro rfl
      exact encode_injective first second encoded encoded'
    · rintro rfl
      exact Except.ok.inj (encoded.symm.trans encoded')
  refine ⟨p, q, encoded, encoded', same, fun without withFlow is => withFlow ?_⟩
  rw [← same.mp is]
  exact without

/-! ### What is stored -/

/-- The fields of a sound recording are read as they were hashed. -/
theorem readAs_of_row {index : Index} {row : SnapshotRow} {recording : Recording}
    (sound : recording.Sound sha256) (sameId : recording.id = row.id)
    (found : index.snapshots.find? (fun other => other.id = row.id) = some row)
    (fields : row.fields = recording.fields.columns) :
    ReadAs sha256 index row.id recording.fields := by
  obtain ⟨preimage, encoded, isId⟩ := sound.id
  have normalized : normalizeEvidenceFields row.fields = .ok recording.fields := by
    rw [fields]
    exact normalizeEvidenceFields_normal sound.normal
  have whole : snapshotMetadataId sha256 row.fields = .ok row.id := by
    refine bind_eq_ok.mpr ⟨_, normalized, bind_eq_ok.mpr ⟨preimage, encoded, ?_⟩⟩
    exact congrArg Except.ok (isId.trans sameId)
  exact ⟨_, preimage, getSnapshot_eq_ok.mpr ⟨row, found, whole, rfl⟩, encoded,
    isId.trans sameId, bind_eq_ok.mpr ⟨_, normalized, encoded⟩⟩

namespace EvidenceStore

variable {s after : EvidenceStore}

/-- **A step is at most one transaction.** -/
theorem step_index {event : StoreEvent} (stepped : s.step sha256 event = some after) :
    (after.index = s.index ∧ after.recorded = s.recorded) ∨
      (∃ call : IndexCall, call.subject.isSome = true ∧ after.index = s.index.after call ∧
        after.recorded = s.recorded) ∨
      (event = .collect ∧ after.index = s.index.collectRows s.clock ∧ after.recorded = s.recorded) ∨
      ∃ r task, s.records[r]? = some task ∧ after = s.insert r task := by
  cases event with
  | tick elapsed =>
    cases stepped
    exact .inl ⟨rfl, rfl⟩
  | record request response input =>
    refine .inl ?_
    cases made : prepareRecord sha256 request response input s.clock with
    | error e | ok task =>
      simp only [step, made] at stepped
      cases stepped
      exact ⟨rfl, rfl⟩
  | check r | stage r | recordFails r | rename r =>
    refine .inl ?_
    obtain ⟨task, -, stepped⟩ := Option.bind_eq_some_iff.mp stepped
    split at stepped <;> cases stepped
    exact ⟨rfl, rfl⟩
  | refresh r =>
    refine .inl ?_
    obtain ⟨task, -, stepped⟩ := Option.bind_eq_some_iff.mp stepped
    split at stepped
    · split at stepped
      · cases stepped
        exact ⟨rfl, rfl⟩
      · split at stepped <;> cases stepped <;> exact ⟨rfl, rfl⟩
    · cases stepped
  | insert r =>
    obtain ⟨task, found, stepped⟩ := Option.bind_eq_some_iff.mp stepped
    split at stepped <;> cases stepped
    exact .inr (.inr (.inr ⟨r, task, found, rfl⟩))
  | bind subjectId expected refs =>
    cases stepped
    exact .inr (.inl ⟨.bind subjectId expected refs s.clock, rfl, rfl, rfl⟩)
  | writeFinding input =>
    cases stepped
    exact .inr (.inl ⟨.writeFinding input s.clock, rfl, rfl, rfl⟩)
  | edit subjectId expected edit =>
    cases stepped
    exact .inr (.inl ⟨.edit subjectId expected edit, rfl, rfl, rfl⟩)
  | collect =>
    cases stepped
    exact .inr (.inr (.inl ⟨rfl, rfl, rfl⟩))
  | stat k hash =>
    refine .inl ?_
    obtain ⟨task, -, stepped⟩ := Option.bind_eq_some_iff.mp stepped
    obtain ⟨-, is⟩ := Option.ite_none_left_eq_some.mp stepped
    cases is
    unfold stat
    split
    · exact ⟨rfl, rfl⟩
    · split <;> exact ⟨rfl, rfl⟩
  | remove k =>
    refine .inl ?_
    obtain ⟨task, -, stepped⟩ := Option.bind_eq_some_iff.mp stepped
    obtain ⟨hash, -, is⟩ := Option.map_eq_some_iff.mp stepped
    cases is
    exact ⟨rfl, rfl⟩

/-- Every row is a recording's, and what is bound has a row. -/
structure Stored (s : EvidenceStore) : Prop where
  sound : Index.Sound s.index
  bound : s.index.BoundRows
  rows : ∀ row ∈ s.index.snapshots, ∃ recording ∈ s.recorded, recording.id = row.id ∧
    row.fields = recording.fields.columns

theorem stored_empty : EvidenceStore.empty.Stored where
  sound := Index.sound_empty
  bound id referenced := by cases referenced
  rows row inside := by cases inside

/-- **A step stores only what is recorded.** -/
theorem stored_step (stored : s.Stored) {event : StoreEvent}
    (stepped : s.step sha256 event = some after) : after.Stored := by
  rcases step_index stepped with ⟨index, recorded⟩ | ⟨call, kind, index, recorded⟩ |
    ⟨-, index, recorded⟩ | ⟨r, task, found, rfl⟩
  · refine ⟨?_, ?_, ?_⟩
    · rw [index]
      exact stored.sound
    · rw [index]
      exact stored.bound
    · rw [index, recorded]
      exact stored.rows
  · have evolves := Index.evolves_after stored.sound.owned kind
    refine ⟨?_, ?_, fun row' inside => ?_⟩
    · rw [index]
      exact Index.sound_after stored.sound call
    · rw [index]
      exact evolves.bound stored.bound
    · rw [index] at inside
      obtain ⟨row, before, id, fields, -⟩ := evolves.rows row' inside
      obtain ⟨recording, logged, isId, isFields⟩ := stored.rows row before
      rw [recorded]
      exact ⟨recording, logged, isId.trans id, fields.symm.trans isFields⟩
  · refine ⟨?_, ?_, fun row' inside => ?_⟩
    · rw [index]
      exact Index.sound_after stored.sound (.collectRows s.clock)
    · rw [index]
      exact Index.boundRows_collect stored.bound s.clock
    · rw [index] at inside
      obtain ⟨row, before, -, id, fields⟩ := Index.mem_collectRows inside
      obtain ⟨recording, logged, isId, isFields⟩ := stored.rows row before
      rw [recorded]
      exact ⟨recording, logged, isId.trans id.symm, fields.trans isFields⟩
  · refine ⟨Index.sound_after stored.sound (.insertSnapshot task.id task.fields s.clock),
      Index.boundRows_insert stored.bound task.id task.fields s.clock, fun row inside => ?_⟩
    rcases Index.mem_insertSnapshot inside with before | ⟨rfl, -⟩
    · obtain ⟨recording, logged, is⟩ := stored.rows row before
      exact ⟨recording, List.mem_cons_of_mem _ logged, is⟩
    · exact ⟨⟨task.id, task.fields, task.request, task.response⟩, List.mem_cons_self, rfl, rfl⟩

theorem stored_run (stored : s.Stored) {events : List StoreEvent}
    (ran : s.run sha256 events = some after) : after.Stored := by
  induction events generalizing s with
  | nil =>
    cases ran
    exact stored
  | cons event rest ih =>
    obtain ⟨next, stepped, goesOn⟩ := Option.bind_eq_some_iff.mp ran
    exact ih (stored_step stored stepped) goesOn

/-- The row that a call stores is the one that is found. -/
theorem find_inserted {index : Index} {id : Text} (fields : SnapshotFields) (createdAt : Nat)
    (absent : index.hasSnapshot id = false) :
    (index.insertSnapshot id fields createdAt).snapshots.find? (fun row => row.id = id) =
      some ⟨id, fields.columns, createdAt, none⟩ := by
  have before : index.snapshots.find? (fun row => row.id = id) = none := by
    refine List.find?_eq_none.mpr fun row inside same => ?_
    have present : index.hasSnapshot id = true :=
      Index.hasSnapshot_iff.mpr ⟨row, inside, of_decide_eq_true same⟩
    rw [absent] at present
    cases present
  unfold Index.insertSnapshot
  rw [if_neg (by rw [absent]; exact Bool.false_ne_true), List.find?_append, before, Option.none_or]
  exact List.find?_cons_of_pos (decide_eq_true rfl)

/-- The row of an id is read as what it was recorded from. -/
theorem readAs_of_stored (stored : s.Stored) (sound : s.Sound sha256) {row : SnapshotRow}
    (inside : row ∈ s.index.snapshots) : ∃ recording ∈ s.recorded, recording.id = row.id ∧
      ReadAs sha256 s.index row.id recording.fields := by
  have isSome : (s.index.snapshots.find? fun other => other.id = row.id).isSome = true :=
    List.find?_isSome.mpr ⟨row, inside, decide_eq_true rfl⟩
  obtain ⟨first, isFirst⟩ := Option.isSome_iff_exists.mp isSome
  have sameId : first.id = row.id := row_id isFirst
  obtain ⟨recording, logged, isId, fields⟩ :=
    stored.rows first (List.mem_of_find?_eq_some isFirst)
  rw [← sameId] at isFirst ⊢
  exact ⟨recording, logged, isId,
    readAs_of_row (sound.recorded recording logged) isId isFirst fields⟩

/-- **A row is read back as it was recorded**, in every state that is reached. -/
theorem readBack_run {events : List StoreEvent}
    (ran : EvidenceStore.empty.run sha256 events = some s) : ReadBack sha256 s := by
  have sound := sound_run sound_empty ran
  have stored := stored_run stored_empty ran
  refine ⟨fun r task after found stepped absent => ?_,
    fun row inside => readAs_of_stored stored sound inside⟩
  obtain ⟨task', found', stepped⟩ := Option.bind_eq_some_iff.mp stepped
  cases found.symm.trans found'
  split at stepped <;> cases stepped
  have inserted := find_inserted task.fields s.clock absent
  exact @readAs_of_row _ _ ⟨task.id, _, _, _⟩ task.recording
    (sound.tasks task (List.mem_of_getElem? found)) rfl inserted rfl

/-- **A snapshot id tells its fields.** Of accepted fields, the preimages are the same only where the
normalised fields are; these are left as they are when they are normalised again; and in every state
of the store a row is read back as what its id was made of. -/
theorem snapshot_identified {row row' : RowFields} {flowId flowId' : Option Text}
    {fields fields' : SnapshotFields} (short : (row.withFlow flowId).Short)
    (short' : (row'.withFlow flowId').Short)
    (accepted : normalizeEvidenceFields (row.withFlow flowId) = .ok fields)
    (accepted' : normalizeEvidenceFields (row'.withFlow flowId') = .ok fields')
    {events : List StoreEvent} (ran : EvidenceStore.empty.run sha256 events = some s) :
    Told fields fields' ∧ normalizeEvidenceFields fields.columns = .ok fields ∧
      ReadBack sha256 s := by
  obtain ⟨normal, -⟩ := normalizeEvidenceFields_ok accepted
  obtain ⟨normal', -⟩ := normalizeEvidenceFields_ok accepted'
  obtain ⟨p, encoded⟩ := encode_short short accepted
  obtain ⟨q, encoded'⟩ := encode_short short' accepted'
  exact ⟨told_of_normal normal normal' encoded encoded', normalizeEvidenceFields_normal normal,
    readBack_run ran⟩

theorem short_columns {fields : SnapshotFields}
    (bounded : ∀ t ∈ [fields.sourceId, fields.url, fields.method, fields.contentType,
      fields.reqHead, fields.respHead, fields.flowId], (Utf8.encode t).length < 2 ^ 32) :
    RowFields.Short fields.columns := by
  intro column inside
  have texts : RowFields.texts fields.columns = [fields.sourceId, fields.url, fields.method,
    fields.contentType, fields.reqHead, fields.respHead, fields.flowId].map .text := rfl
  rw [texts] at inside
  obtain ⟨t, here, rfl⟩ := List.mem_map.mp inside
  exact ⟨t, rfl, bounded t here⟩

/-- The demo recording, with a flow id. -/
def flowFields : SnapshotFields := { demoFields with flowId := text "flow" }

/-- Of the demo recording, without a flow id and with one. -/
theorem demo_identified : ∃ s, EvidenceStore.empty.run demoSha256 recordEvents = some s ∧
    Told demoFields flowFields ∧
    normalizeEvidenceFields demoFields.columns = .ok demoFields ∧ ReadBack demoSha256 s := by
  obtain ⟨s, ran, -⟩ := run_demo
  have short : (RowFields.withFlow demoFields.columns none).Short :=
    @short_columns demoFields (by decide)
  have short' : (RowFields.withFlow demoFields.columns (some (text "flow"))).Short :=
    @short_columns flowFields (by decide)
  have accepted : normalizeEvidenceFields (RowFields.withFlow demoFields.columns none) =
      .ok demoFields := by decide
  have accepted' : normalizeEvidenceFields
      (RowFields.withFlow demoFields.columns (some (text "flow"))) = .ok flowFields := by decide
  exact ⟨s, ran, snapshot_identified short short' accepted accepted' ran⟩

end EvidenceStore

end TianGong.Evidence

/-
**The identity of a snapshot.**

`hashing.ts`: a body is addressed by the SHA-256 of its bytes, a snapshot by that of a canonical
encoding of its fields.

* `normalizeEvidenceText`, `normalizeEvidenceFields`: what is hashed and stored.
* `encodeEvidenceSnapshotPreimage`: fixed order, each text after its length.
* `normalizeEvidenceFields_ok`, `normalizeEvidenceFields_normal`: what is normalised, and what is left
  as it is.

A field is what the index gives for its column; `sha256` is the digest, in hex.
-/

import TianGong.Lib.Returns
import TianGong.Lib.Utf8

namespace TianGong.Evidence

open List

/-! ### Fields -/

/-- What a column holds, as the driver of the index reads it. -/
inductive Column where
  | text (t : Text)
  | number (n : Int)
  /-- A number that is no integer, or none of those a double holds exactly. -/
  | fraction
  | bytes (bytes : List UInt8)
  deriving DecidableEq

/-- The metadata of a snapshot, with its texts and its numbers. -/
structure TgSecEvidenceSnapshotFields (T N : Type) where
  sourceId : T
  capturedAt : N
  url : T
  method : T
  status : N
  contentType : T
  reqHead : T
  respHead : T
  reqHash : T
  respHash : T
  reqLen : N
  respLen : N
  flowId : T
  deriving DecidableEq

/-- Fields as the columns of a row. -/
abbrev RowFields := TgSecEvidenceSnapshotFields Column Column

/-- Fields that are texts and integers. -/
abbrev SnapshotFields := TgSecEvidenceSnapshotFields Text Int

/-- The columns of fields. -/
def SnapshotFields.columns (fields : SnapshotFields) : RowFields where
  sourceId := .text fields.sourceId
  capturedAt := .number fields.capturedAt
  url := .text fields.url
  method := .text fields.method
  status := .number fields.status
  contentType := .text fields.contentType
  reqHead := .text fields.reqHead
  respHead := .text fields.respHead
  reqHash := .text fields.reqHash
  respHash := .text fields.respHash
  reqLen := .number fields.reqLen
  respLen := .number fields.respLen
  flowId := .text fields.flowId

/-- How a call on the store fails. -/
inductive EvidenceError where
  /-- `TgSecEvidenceConflictError` -/
  | conflict
  /-- `TgSecEvidenceNotFoundError` -/
  | notFound
  /-- `TgSecEvidenceHashMismatchError` -/
  | hashMismatch (id : Text)
  /-- `TypeError` -/
  | type (message : Text)
  /-- `TypeError` of a field that fails its check. -/
  | field (name : Text)
  /-- A text too long for its length to be written. -/
  | range
  /-- A body file is missing, or not what it should be. -/
  | body
  deriving DecidableEq

/-! ### Normalisation -/

def isEvidenceHash (t : Text) : Bool :=
  t.length = 64 && t.all fun c => isDigit c || (97 ≤ c && c ≤ 102)

def MAX_SAFE_INTEGER : Int := 2 ^ 53 - 1

/-- The string that `Buffer.from(value, "utf8").toString("utf8")` gives. -/
def utf8Text : Column → Except EvidenceError Text
  | .text t => .ok (Utf8.decode (Utf8.encode t))
  | .bytes bytes => .ok (Utf8.decode bytes)
  | .number _ | .fraction => .error (.type (text "The first argument must be of type string"))

/-- `normalizeEvidenceText`, of a column. -/
def normalizeEvidenceText (column : Column) : Except EvidenceError Text :=
  (utf8Text column).map fun decoded => decoded.filter fun c => c ≠ 0

/-- The check of a hash; what is no text is not one. -/
def assertHash (name : Text) : Column → Except EvidenceError Text
  | .text t => if isEvidenceHash t then .ok t else .error (.field name)
  | _ => .error (.field name)

/-- The checks of a number: an integer within bounds. -/
def assertWithin (name : Text) (low high : Int) : Column → Except EvidenceError Int
  | .number n => if low ≤ n ∧ n ≤ high then .ok n else .error (.field name)
  | _ => .error (.field name)

def assertUint32 (name : Text) : Column → Except EvidenceError Int :=
  assertWithin name 0 0xffffffff

def assertUint64 (name : Text) : Column → Except EvidenceError Int :=
  assertWithin name 0 MAX_SAFE_INTEGER

def assertInt64 (name : Text) : Column → Except EvidenceError Int :=
  assertWithin name (-MAX_SAFE_INTEGER) MAX_SAFE_INTEGER

def normalizeEvidenceFields (fields : RowFields) : Except EvidenceError SnapshotFields := do
  let reqHash ← assertHash (text "reqHash") fields.reqHash
  let respHash ← assertHash (text "respHash") fields.respHash
  let status ← assertUint32 (text "status") fields.status
  let reqLen ← assertUint64 (text "reqLen") fields.reqLen
  let respLen ← assertUint64 (text "respLen") fields.respLen
  let capturedAt ← assertInt64 (text "capturedAt") fields.capturedAt
  let sourceId ← normalizeEvidenceText fields.sourceId
  let url ← normalizeEvidenceText fields.url
  let method ← normalizeEvidenceText fields.method
  let contentType ← normalizeEvidenceText fields.contentType
  let reqHead ← normalizeEvidenceText fields.reqHead
  let respHead ← normalizeEvidenceText fields.respHead
  let flowId ← normalizeEvidenceText fields.flowId
  return { sourceId, capturedAt, url, method, status, contentType, reqHead, respHead, reqHash,
           respHash, reqLen, respLen, flowId }

/-! ### The encoding -/

/-- A number in big-endian bytes. -/
def bigEndian : Nat → Nat → List UInt8
  | 0, _ => []
  | width + 1, n => bigEndian width (n / 256) ++ [(n % 256).toUInt8]

/-- A byte of two hex digits. -/
def hexValue (c : UInt16) : Nat := if isDigit c then c.toNat - 48 else c.toNat - 87

/-- `Buffer.from(hash, "hex")`, of a hash. -/
def hexBytes : Text → List UInt8
  | high :: low :: rest => (16 * hexValue high + hexValue low).toUInt8 :: hexBytes rest
  | _ => []

def pushString (t : Text) : Except EvidenceError (List UInt8) :=
  let bytes := Utf8.encode t
  if bytes.length < 2 ^ 32 then .ok (bigEndian 4 bytes.length ++ bytes) else .error .range

def pushUint32 (n : Int) : List UInt8 := bigEndian 4 n.toNat

def pushUint64 (n : Int) : List UInt8 := bigEndian 8 n.toNat

/-- `pushInt64`, in two's complement. -/
def pushInt64 (n : Int) : List UInt8 := bigEndian 8 (n % 2 ^ 64).toNat

def pushHash (hash : Text) : List UInt8 := hexBytes hash

def TAG : List UInt8 := Utf8.encode (text "tg.sec.evidence/v1\x00")

def FLOW_TAG : List UInt8 := Utf8.encode (text "tg.sec.evidence/v2\x00")

/-- The flow comes last, where there is one. -/
def pushFlow (flowId : Text) : Except EvidenceError (List UInt8) :=
  if flowId = [] then .ok [] else pushString flowId

def encodeEvidenceSnapshotPreimage (fields : SnapshotFields) :
    Except EvidenceError (List UInt8) := do
  let sourceId ← pushString fields.sourceId
  let url ← pushString fields.url
  let method ← pushString fields.method
  let contentType ← pushString fields.contentType
  let reqHead ← pushString fields.reqHead
  let respHead ← pushString fields.respHead
  let flowId ← pushFlow fields.flowId
  return (if fields.flowId = [] then TAG else FLOW_TAG) ++ (sourceId ++
    (pushInt64 fields.capturedAt ++ (url ++ (method ++ (pushUint32 fields.status ++ (contentType ++
    (reqHead ++ (respHead ++ (pushHash fields.reqHash ++ (pushHash fields.respHash ++
    (pushUint64 fields.reqLen ++ (pushUint64 fields.respLen ++ flowId))))))))))))

variable (sha256 : List UInt8 → Text)

def tgSecContentHash (bytes : List UInt8) : Text := sha256 bytes

def snapshotMetadataId (fields : RowFields) : Except EvidenceError Text := do
  let normalized ← normalizeEvidenceFields fields
  let preimage ← encodeEvidenceSnapshotPreimage normalized
  return sha256 preimage

/-! ### Normal texts -/

/-- A text that normalisation leaves as it is: no lone surrogate, and no NUL. -/
def NormalText (t : Text) : Prop := Utf8.wellFormed t = t ∧ (0 : UInt16) ∉ t

theorem zero_notMem_utf16 {c : Char} (other : c ≠ Char.ofNat 0) : (0 : UInt16) ∉ utf16 c := by
  by_cases small : c.toNat < 0x10000
  · obtain ⟨u, is, value, -, -⟩ := Utf8.utf16_small small
    rw [is, mem_singleton]
    rintro rfl
    refine other ?_
    rw [← Char.ofNat_toNat c, ← value]
    rfl
  · obtain ⟨u, v, is, lead, trail, -⟩ := Utf8.utf16_large small
    rw [is]
    intro member
    rcases List.mem_cons.mp member with rfl | rest
    · exact absurd lead (by decide)
    · rw [← List.mem_singleton.mp rest] at trail
      exact absurd trail (by decide)

/-- Without its NULs, a spelled text is a spelled text. -/
theorem filter_units (cs : List Char) :
    (Utf8.units cs).filter (fun c => c ≠ 0) = Utf8.units (cs.filter fun c => c ≠ Char.ofNat 0) := by
  induction cs with
  | nil => rfl
  | cons c rest ih =>
    have head : Utf8.units (c :: rest) = utf16 c ++ Utf8.units rest := flatMap_cons
    rw [head, filter_append, ih]
    by_cases zero : c = Char.ofNat 0
    · subst zero
      rfl
    · rw [filter_cons_of_pos (by simpa using zero)]
      have whole : (utf16 c).filter (fun c => c ≠ 0) = utf16 c := by
        refine List.filter_eq_self.mpr fun u member => decide_eq_true ?_
        rintro rfl
        exact zero_notMem_utf16 zero member
      rw [whole]
      exact List.flatMap_cons.symm

theorem normalText_filter (cs : List Char) :
    NormalText ((Utf8.units cs).filter fun c => c ≠ 0) := by
  refine ⟨?_, fun member => ?_⟩
  · rw [filter_units, Utf8.wellFormed_units]
  · exact of_decide_eq_true (List.mem_filter.mp member).2 rfl

variable {t : Text} {column : Column}

/-- **What was normalised is normal.** -/
theorem normalText_of_ok (is : normalizeEvidenceText column = .ok t) : NormalText t := by
  cases column with
  | text t' | bytes b =>
    cases is
    exact normalText_filter _
  | number n | fraction => cases is

theorem normalizeEvidenceText_normal (normal : NormalText t) :
    normalizeEvidenceText (.text t) = .ok t := by
  show Except.ok ((Utf8.decode (Utf8.encode t)).filter fun c => c ≠ 0) = _
  rw [Utf8.decode_encode, normal.1]
  refine congrArg Except.ok (List.filter_eq_self.mpr fun c member => decide_eq_true ?_)
  rintro rfl
  exact normal.2 member

/-! ### Encodings are injective -/

theorem length_bigEndian (width n : Nat) : (bigEndian width n).length = width := by
  induction width generalizing n with
  | zero => rfl
  | succ width ih => rw [bigEndian, length_append, ih, length_singleton]

theorem bigEndian_inj {width n m : Nat} (first : n < 256 ^ width) (second : m < 256 ^ width)
    (same : bigEndian width n = bigEndian width m) : n = m := by
  induction width generalizing n m with
  | zero =>
    rw [Nat.pow_zero] at first second
    omega
  | succ width ih =>
    rw [bigEndian, bigEndian] at same
    obtain ⟨high, low⟩ := append_inj same (by rw [length_bigEndian, length_bigEndian])
    have sameHigh := ih (Nat.div_lt_of_lt_mul (by rw [Nat.pow_succ'] at first; exact first))
      (Nat.div_lt_of_lt_mul (by rw [Nat.pow_succ'] at second; exact second)) high
    have sameLow : n % 256 = m % 256 := by
      have bytes := congrArg UInt8.toNat (List.singleton_inj.mp low)
      simpa [Nat.toUInt8_eq, UInt8.toNat_ofNat'] using bytes
    omega

theorem bigEndian_append_inj {width n m : Nat} (first : n < 256 ^ width) (second : m < 256 ^ width)
    {rest rest' : List UInt8} (same : bigEndian width n ++ rest = bigEndian width m ++ rest') :
    n = m ∧ rest = rest' := by
  obtain ⟨number, later⟩ := append_inj same (by rw [length_bigEndian, length_bigEndian])
  exact ⟨bigEndian_inj first second number, later⟩

theorem encode_inj {t' : Text} (first : NormalText t) (second : NormalText t')
    (same : Utf8.encode t = Utf8.encode t') : t = t' := by
  have decoded := congrArg Utf8.decode same
  rwa [Utf8.decode_encode, Utf8.decode_encode, first.1, second.1] at decoded

/-- **A text after its length**, and then the rest. -/
theorem pushString_append_inj {t t' : Text} (first : NormalText t) (second : NormalText t')
    {bytes bytes' rest rest' : List UInt8} (pushed : pushString t = .ok bytes)
    (pushed' : pushString t' = .ok bytes') (same : bytes ++ rest = bytes' ++ rest') :
    t = t' ∧ rest = rest' := by
  obtain ⟨short, is⟩ := Returns.ite_ok_eq_ok.mp pushed
  obtain ⟨short', is'⟩ := Returns.ite_ok_eq_ok.mp pushed'
  cases is
  cases is'
  rw [append_assoc, append_assoc] at same
  obtain ⟨lengths, later⟩ := @bigEndian_append_inj 4 _ _ short short' _ _ same
  obtain ⟨encoded, rests⟩ := append_inj later lengths
  exact ⟨encode_inj first second encoded, rests⟩

theorem isHex_bounds {c : UInt16} (hex : (isDigit c || (97 ≤ c && c ≤ 102)) = true) :
    (48 ≤ c.toNat ∧ c.toNat ≤ 57) ∨ (97 ≤ c.toNat ∧ c.toNat ≤ 102) := by
  simpa only [isDigit, Bool.or_eq_true, Bool.and_eq_true, decide_eq_true_eq,
    UInt16.le_iff_toNat_le, UInt16.reduceToNat] using hex

theorem hexValue_spec {c : UInt16} (hex : (isDigit c || (97 ≤ c && c ≤ 102)) = true) :
    (hexValue c < 10 ∧ c.toNat = hexValue c + 48) ∨
      (10 ≤ hexValue c ∧ hexValue c < 16 ∧ c.toNat = hexValue c + 87) := by
  unfold hexValue
  split
  · rename_i digit
    have bounds : 48 ≤ c.toNat ∧ c.toNat ≤ 57 := by
      simpa only [isDigit, Bool.and_eq_true, decide_eq_true_eq, UInt16.le_iff_toNat_le,
        UInt16.reduceToNat] using digit
    omega
  · rename_i letter
    have bounds := isHex_bounds hex
    have outside : ¬ (48 ≤ c.toNat ∧ c.toNat ≤ 57) := by
      simpa only [isDigit, Bool.and_eq_true, decide_eq_true_eq, UInt16.le_iff_toNat_le,
        UInt16.reduceToNat] using letter
    omega

theorem hexValue_lt {c : UInt16} (hex : (isDigit c || (97 ≤ c && c ≤ 102)) = true) :
    hexValue c < 16 := by
  have isC := hexValue_spec hex
  omega

theorem hexValue_inj {c d : UInt16} (first : (isDigit c || (97 ≤ c && c ≤ 102)) = true)
    (second : (isDigit d || (97 ≤ d && d ≤ 102)) = true) (same : hexValue c = hexValue d) :
    c = d := by
  have isC := hexValue_spec first
  have isD := hexValue_spec second
  rw [← same] at isD
  exact UInt16.toNat_inj.mp (by omega)

theorem hexPair_inj {high low high' low' : UInt16}
    (first : ∀ c ∈ [high, low], (isDigit c || (97 ≤ c && c ≤ 102)) = true)
    (second : ∀ c ∈ [high', low'], (isDigit c || (97 ≤ c && c ≤ 102)) = true)
    (same : (16 * hexValue high + hexValue low).toUInt8 =
      (16 * hexValue high' + hexValue low').toUInt8) : high = high' ∧ low = low' := by
  have isHigh := hexValue_lt (first high (by simp))
  have isLow := hexValue_lt (first low (by simp))
  have isHigh' := hexValue_lt (second high' (by simp))
  have isLow' := hexValue_lt (second low' (by simp))
  have bytes := congrArg UInt8.toNat same
  simp only [Nat.toUInt8_eq, UInt8.toNat_ofNat'] at bytes
  exact ⟨hexValue_inj (first high (by simp)) (second high' (by simp)) (by omega),
    hexValue_inj (first low (by simp)) (second low' (by simp)) (by omega)⟩

theorem hexBytes_inj {width : Nat} {t t' : Text} {rest rest' : List UInt8}
    (length : t.length = 2 * width) (length' : t'.length = 2 * width)
    (hex : ∀ c ∈ t, (isDigit c || (97 ≤ c && c ≤ 102)) = true)
    (hex' : ∀ c ∈ t', (isDigit c || (97 ≤ c && c ≤ 102)) = true)
    (same : hexBytes t ++ rest = hexBytes t' ++ rest') : t = t' ∧ rest = rest' := by
  induction width generalizing t t' with
  | zero =>
    obtain rfl := eq_nil_of_length_eq_zero length
    obtain rfl := eq_nil_of_length_eq_zero length'
    exact ⟨rfl, same⟩
  | succ width ih =>
    match t, t' with
    | high :: low :: tail, high' :: low' :: tail' =>
      obtain ⟨byte, later⟩ := List.cons.inj same
      obtain ⟨rfl, rfl⟩ := hexPair_inj
        (fun c inside => hex c (by simp only [mem_cons] at inside ⊢; tauto))
        (fun c inside => hex' c (by simp only [mem_cons] at inside ⊢; tauto)) byte
      simp only [length_cons] at length length'
      obtain ⟨rfl, rests⟩ := ih (by omega) (by omega)
        (fun c inside => hex c (mem_cons_of_mem _ (mem_cons_of_mem _ inside)))
        (fun c inside => hex' c (mem_cons_of_mem _ (mem_cons_of_mem _ inside))) later
      exact ⟨rfl, rests⟩

variable {rest rest' : List UInt8}

/-- **A hash as its bytes**, and then the rest. -/
theorem pushHash_append_inj {t' : Text} (first : isEvidenceHash t = true)
    (second : isEvidenceHash t' = true) (same : pushHash t ++ rest = pushHash t' ++ rest') :
    t = t' ∧ rest = rest' := by
  obtain ⟨length, hex⟩ := Bool.and_eq_true_iff.mp first
  obtain ⟨length', hex'⟩ := Bool.and_eq_true_iff.mp second
  exact @hexBytes_inj 32 _ _ _ _ (of_decide_eq_true length) (of_decide_eq_true length')
    (List.all_eq_true.mp hex) (List.all_eq_true.mp hex') same

theorem pushUint_append_inj {width : Nat} {n m : Int} (first : 0 ≤ n ∧ n < (256 ^ width : Nat))
    (second : 0 ≤ m ∧ m < (256 ^ width : Nat))
    (same : bigEndian width n.toNat ++ rest = bigEndian width m.toNat ++ rest') :
    n = m ∧ rest = rest' := by
  obtain ⟨n, rfl⟩ := Int.eq_ofNat_of_zero_le first.1
  obtain ⟨m, rfl⟩ := Int.eq_ofNat_of_zero_le second.1
  obtain ⟨numbers, rests⟩ :=
    bigEndian_append_inj (Int.ofNat_lt.mp first.2) (Int.ofNat_lt.mp second.2) same
  exact ⟨congrArg Int.ofNat numbers, rests⟩

/-- Two's complement tells the integers that a double holds exactly. -/
theorem pushInt64_append_inj {n m : Int} (first : -MAX_SAFE_INTEGER ≤ n ∧ n ≤ MAX_SAFE_INTEGER)
    (second : -MAX_SAFE_INTEGER ≤ m ∧ m ≤ MAX_SAFE_INTEGER)
    (same : pushInt64 n ++ rest = pushInt64 m ++ rest') : n = m ∧ rest = rest' := by
  have bound (k : Int) : 0 ≤ k % 2 ^ 64 ∧ k % 2 ^ 64 < (256 ^ 8 : Nat) :=
    ⟨Int.emod_nonneg k (by decide), Int.emod_lt_of_pos k (by decide)⟩
  obtain ⟨numbers, rests⟩ := pushUint_append_inj (bound n) (bound m) same
  refine ⟨?_, rests⟩
  have size : (2 : Int) ^ 64 = 18446744073709551616 := by decide
  have safe : MAX_SAFE_INTEGER = 9007199254740991 := by decide
  rw [size] at numbers
  rw [safe] at first second
  omega

/-! ### Normal fields -/

/-- What `normalizeEvidenceFields` gives. -/
structure SnapshotFields.Normal (fields : SnapshotFields) : Prop where
  sourceId : NormalText fields.sourceId
  url : NormalText fields.url
  method : NormalText fields.method
  contentType : NormalText fields.contentType
  reqHead : NormalText fields.reqHead
  respHead : NormalText fields.respHead
  flowId : NormalText fields.flowId
  reqHash : isEvidenceHash fields.reqHash = true
  respHash : isEvidenceHash fields.respHash = true
  status : 0 ≤ fields.status ∧ fields.status ≤ 0xffffffff
  reqLen : 0 ≤ fields.reqLen ∧ fields.reqLen ≤ MAX_SAFE_INTEGER
  respLen : 0 ≤ fields.respLen ∧ fields.respLen ≤ MAX_SAFE_INTEGER
  capturedAt : -MAX_SAFE_INTEGER ≤ fields.capturedAt ∧ fields.capturedAt ≤ MAX_SAFE_INTEGER

theorem assertHash_eq_ok {name : Text} :
    assertHash name column = .ok t ↔ column = .text t ∧ isEvidenceHash t = true := by
  constructor
  · intro is
    cases column with
    | text t' =>
      obtain ⟨hash, is⟩ := Returns.ite_ok_eq_ok.mp is
      cases is
      exact ⟨rfl, hash⟩
    | number n | fraction | bytes b => cases is
  · rintro ⟨rfl, hash⟩
    exact if_pos hash

theorem assertWithin_eq_ok {name : Text} {low high n : Int} :
    assertWithin name low high column = .ok n ↔ column = .number n ∧ low ≤ n ∧ n ≤ high := by
  constructor
  · intro is
    cases column with
    | number n' =>
      obtain ⟨within, is⟩ := Returns.ite_ok_eq_ok.mp is
      cases is
      exact ⟨rfl, within⟩
    | text t | fraction | bytes b => cases is
  · rintro ⟨rfl, within⟩
    exact if_pos within

/-- The texts of a row. -/
def RowFields.texts (row : RowFields) : List Column :=
  [row.sourceId, row.url, row.method, row.contentType, row.reqHead, row.respHead, row.flowId]

/-- Every text of a row is one that normalisation leaves as it is. -/
def RowFields.Clean (row : RowFields) : Prop :=
  ∀ column ∈ row.texts, ∃ t, column = .text t ∧ NormalText t

variable {fields : SnapshotFields}

/-- **What normalisation pins**: hashes and numbers as they are, and of the texts their normal
forms. -/
theorem normalizeEvidenceFields_ok {row : RowFields}
    (is : normalizeEvidenceFields row = .ok fields) :
    fields.Normal ∧ row.reqHash = .text fields.reqHash ∧ row.respHash = .text fields.respHash ∧
      (row.Clean → row = fields.columns) := by
  unfold normalizeEvidenceFields at is
  simp only [assertUint32, assertUint64, assertInt64, Returns.bind_eq_ok,
    assertHash_eq_ok, assertWithin_eq_ok] at is
  obtain ⟨reqHash, ⟨isReqHash, reqHex⟩, respHash, ⟨isRespHash, respHex⟩, status, ⟨isStatus, uint32⟩,
    reqLen, ⟨isReqLen, reqUint⟩, respLen, ⟨isRespLen, respUint⟩, capturedAt, ⟨isCaptured, int64⟩,
    sourceId, isSourceId, url, isUrl, method, isMethod, contentType, isContentType,
    reqHead, isReqHead, respHead, isRespHead, flowId, isFlowId, is⟩ := is
  cases is
  refine ⟨⟨normalText_of_ok isSourceId, normalText_of_ok isUrl, normalText_of_ok isMethod,
    normalText_of_ok isContentType, normalText_of_ok isReqHead, normalText_of_ok isRespHead,
    normalText_of_ok isFlowId, reqHex, respHex, uint32, reqUint, respUint, int64⟩,
    isReqHash, isRespHash, fun clean => ?_⟩
  have whole {column : Column} {t : Text} (inside : column ∈ row.texts)
      (gives : normalizeEvidenceText column = .ok t) : column = .text t := by
    obtain ⟨t', rfl, normal⟩ := clean column inside
    rw [normalizeEvidenceText_normal normal] at gives
    cases gives
    rfl
  obtain ⟨_, _, _, _, _, _, _, _, _, _, _, _, _⟩ := row
  simp only at isReqHash isRespHash isStatus isReqLen isRespLen isCaptured
  subst isReqHash isRespHash isStatus isReqLen isRespLen isCaptured
  obtain rfl := whole (by simp [RowFields.texts]) isSourceId
  obtain rfl := whole (by simp [RowFields.texts]) isUrl
  obtain rfl := whole (by simp [RowFields.texts]) isMethod
  obtain rfl := whole (by simp [RowFields.texts]) isContentType
  obtain rfl := whole (by simp [RowFields.texts]) isReqHead
  obtain rfl := whole (by simp [RowFields.texts]) isRespHead
  obtain rfl := whole (by simp [RowFields.texts]) isFlowId
  rfl

/-- **Normal fields are left as they are.** -/
theorem normalizeEvidenceFields_normal (normal : fields.Normal) :
    normalizeEvidenceFields fields.columns = .ok fields := by
  simp only [normalizeEvidenceFields, SnapshotFields.columns, assertUint32, assertUint64,
    assertInt64, assertHash_eq_ok.mpr ⟨rfl, normal.reqHash⟩,
    assertHash_eq_ok.mpr ⟨rfl, normal.respHash⟩, assertWithin_eq_ok.mpr ⟨rfl, normal.status⟩,
    assertWithin_eq_ok.mpr ⟨rfl, normal.reqLen⟩, assertWithin_eq_ok.mpr ⟨rfl, normal.respLen⟩,
    assertWithin_eq_ok.mpr ⟨rfl, normal.capturedAt⟩, normalizeEvidenceText_normal normal.sourceId,
    normalizeEvidenceText_normal normal.url, normalizeEvidenceText_normal normal.method,
    normalizeEvidenceText_normal normal.contentType, normalizeEvidenceText_normal normal.reqHead,
    normalizeEvidenceText_normal normal.respHead, normalizeEvidenceText_normal normal.flowId]
  rfl

theorem clean_columns (normal : fields.Normal) : RowFields.Clean fields.columns := by
  intro column inside
  simp only [RowFields.texts, SnapshotFields.columns, mem_cons, not_mem_nil,
    or_false] at inside
  rcases inside with rfl | rfl | rfl | rfl | rfl | rfl | rfl
  · exact ⟨_, rfl, normal.sourceId⟩
  · exact ⟨_, rfl, normal.url⟩
  · exact ⟨_, rfl, normal.method⟩
  · exact ⟨_, rfl, normal.contentType⟩
  · exact ⟨_, rfl, normal.reqHead⟩
  · exact ⟨_, rfl, normal.respHead⟩
  · exact ⟨_, rfl, normal.flowId⟩

theorem tag_ne_flowTag : TAG ≠ FLOW_TAG := by decide

/-- The tag tells whether there is a flow. -/
theorem tag_append_inj {c c' : Prop} [Decidable c] [Decidable c']
    (same : (if c then TAG else FLOW_TAG) ++ rest = (if c' then TAG else FLOW_TAG) ++ rest') :
    (c ↔ c') ∧ rest = rest' := by
  have length (c : Prop) [Decidable c] : (if c then TAG else FLOW_TAG).length = 19 := by
    split <;> rfl
  obtain ⟨tags, rests⟩ := append_inj same (by rw [length, length])
  refine ⟨?_, rests⟩
  split at tags <;> split at tags
  · exact ⟨fun _ => ‹c'›, fun _ => ‹c›⟩
  · exact (tag_ne_flowTag tags).elim
  · exact (tag_ne_flowTag tags.symm).elim
  · exact ⟨fun holds => (‹¬ c› holds).elim, fun holds => (‹¬ c'› holds).elim⟩

theorem pushFlow_inj {t' : Text} (first : NormalText t) (second : NormalText t')
    (kind : t = [] ↔ t' = []) {bytes : List UInt8} (pushed : pushFlow t = .ok bytes)
    (pushed' : pushFlow t' = .ok bytes) : t = t' := by
  unfold pushFlow at pushed pushed'
  by_cases empty : t = []
  · rw [empty, kind.mp empty]
  · rw [if_neg empty] at pushed
    rw [if_neg fun is => empty (kind.mpr is)] at pushed'
    exact (@pushString_append_inj _ _ first second _ _ [] [] pushed pushed' rfl).1

/-- **The encoding is injective** on normal fields. -/
theorem encode_injective {a b : SnapshotFields} (first : a.Normal) (second : b.Normal)
    {preimage : List UInt8} (encoded : encodeEvidenceSnapshotPreimage a = .ok preimage)
    (encoded' : encodeEvidenceSnapshotPreimage b = .ok preimage) : a = b := by
  unfold encodeEvidenceSnapshotPreimage at encoded encoded'
  simp only [Returns.bind_eq_ok] at encoded encoded'
  obtain ⟨_, sourceId, _, url, _, method, _, contentType, _, reqHead, _, respHead, flow, flowId,
    is⟩ := encoded
  obtain ⟨_, sourceId', _, url', _, method', _, contentType', _, reqHead', _, respHead', flow',
    flowId', is'⟩ := encoded'
  have same := (Except.ok.inj is).trans (Except.ok.inj is').symm
  obtain ⟨kind, same⟩ := tag_append_inj same
  obtain ⟨sameSource, same⟩ := pushString_append_inj first.sourceId second.sourceId sourceId
    sourceId' same
  obtain ⟨sameCaptured, same⟩ := pushInt64_append_inj first.capturedAt second.capturedAt same
  obtain ⟨sameUrl, same⟩ := pushString_append_inj first.url second.url url url' same
  obtain ⟨sameMethod, same⟩ := pushString_append_inj first.method second.method method method' same
  have uint32 {n : Int} (within : 0 ≤ n ∧ n ≤ 0xffffffff) : 0 ≤ n ∧ n < (256 ^ 4 : Nat) := by
    exact ⟨within.1, Int.lt_of_le_of_lt within.2 (by decide)⟩
  have uint64 {n : Int} (within : 0 ≤ n ∧ n ≤ MAX_SAFE_INTEGER) : 0 ≤ n ∧ n < (256 ^ 8 : Nat) := by
    exact ⟨within.1, Int.lt_of_le_of_lt within.2 (by decide)⟩
  obtain ⟨sameStatus, same⟩ :=
    pushUint_append_inj (uint32 first.status) (uint32 second.status) same
  obtain ⟨sameType, same⟩ := pushString_append_inj first.contentType second.contentType contentType
    contentType' same
  obtain ⟨sameReqHead, same⟩ := pushString_append_inj first.reqHead second.reqHead reqHead reqHead'
    same
  obtain ⟨sameRespHead, same⟩ := pushString_append_inj first.respHead second.respHead respHead
    respHead' same
  obtain ⟨sameReqHash, same⟩ := pushHash_append_inj first.reqHash second.reqHash same
  obtain ⟨sameRespHash, same⟩ := pushHash_append_inj first.respHash second.respHash same
  obtain ⟨sameReqLen, same⟩ :=
    pushUint_append_inj (uint64 first.reqLen) (uint64 second.reqLen) same
  obtain ⟨sameRespLen, same⟩ :=
    pushUint_append_inj (uint64 first.respLen) (uint64 second.respLen) same
  subst same
  have sameFlow := pushFlow_inj first.flowId second.flowId kind flowId flowId'
  obtain ⟨_, _, _, _, _, _, _, _, _, _, _, _, _⟩ := a
  obtain ⟨_, _, _, _, _, _, _, _, _, _, _, _, _⟩ := b
  simp only [TgSecEvidenceSnapshotFields.mk.injEq]
  exact ⟨sameSource, sameCaptured, sameUrl, sameMethod, sameStatus, sameType, sameReqHead,
    sameRespHead, sameReqHash, sameRespHash, sameReqLen, sameRespLen, sameFlow⟩

end TianGong.Evidence

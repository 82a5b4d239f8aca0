/-
**The frames of a client.**

* `ClientFrame`: a masked frame, with its length in any of the three forms that can hold it.
-/

import Mathlib.Data.Fintype.Basic
import TianGong.SecServer.WebSocket

namespace TianGong.SecServer

open Chunks (Read)
open Utf8 (encodeChars units)
open List

/-! ### Numbers -/

theorem length_writeUInt (width n : Nat) : (writeUInt width n).length = width := by
  induction width generalizing n with
  | zero => rfl
  | succ width ih => rw [writeUInt, length_append, ih, length_singleton]

theorem readUInt_concat (bytes : List UInt8) (byte : UInt8) :
    readUInt (bytes ++ [byte]) = readUInt bytes * 256 + byte.toNat :=
  foldl_concat ..

theorem readUInt_writeUInt {width n : Nat} (small : n < 256 ^ width) :
    readUInt (writeUInt width n) = n := by
  induction width generalizing n with
  | zero =>
    rw [Nat.pow_zero, Nat.lt_one_iff] at small
    rw [small]
    rfl
  | succ width ih =>
    have high : n / 256 < 256 ^ width := by
      rw [Nat.div_lt_iff_lt_mul (by decide), ← Nat.pow_succ]
      exact small
    rw [writeUInt, readUInt_concat, ih high, UInt8.toNat_ofNat']
    omega

theorem writeUInt_readUInt (bytes : List UInt8) :
    writeUInt bytes.length (readUInt bytes) = bytes := by
  induction bytes using List.reverseRecOn with
  | nil => rfl
  | append_singleton bytes byte ih =>
    have small := byte.toNat_lt
    rw [length_append, length_singleton, writeUInt, readUInt_concat]
    rw [show (readUInt bytes * 256 + byte.toNat) / 256 = readUInt bytes by omega, ih]
    refine congrArg (fun last => bytes ++ [last]) (UInt8.toNat_inj.mp ?_)
    rw [UInt8.toNat_ofNat']
    omega

theorem writeUInt_add (high low n : Nat) :
    writeUInt (high + low) n = writeUInt high (n / 256 ^ low) ++ writeUInt low n := by
  induction low generalizing n with
  | zero => rw [Nat.pow_zero, Nat.div_one, writeUInt, append_nil, Nat.add_zero]
  | succ low ih =>
    rw [← Nat.add_assoc, writeUInt, ih, writeUInt, Nat.div_div_eq_div_mul, ← Nat.pow_succ',
      append_assoc]

theorem readUInt_lt (bytes : List UInt8) : readUInt bytes < 256 ^ bytes.length := by
  induction bytes using List.reverseRecOn with
  | nil => exact Nat.one_pos
  | append_singleton bytes byte ih =>
    have small := byte.toNat_lt
    rw [readUInt_concat, length_append, length_singleton, Nat.pow_succ]
    omega

/-! ### Frames -/

/-- How the length of a frame is written. -/
inductive LengthForm where
  | short
  | medium
  | long

/-- The form can hold a length. -/
def LengthForm.Fits : LengthForm → Nat → Prop
  | .short, length => length < 126
  | .medium, length => length < 2 ^ 16
  | .long, length => length < 2 ^ 63

instance (form : LengthForm) (length : Nat) : Decidable (form.Fits length) :=
  match form with
  | .short => inferInstanceAs (Decidable (length < 126))
  | .medium => inferInstanceAs (Decidable (length < 2 ^ 16))
  | .long => inferInstanceAs (Decidable (length < 2 ^ 63))

/-- The second byte and the extended length. -/
def LengthForm.bytes : LengthForm → Nat → List UInt8
  | .short, length => [0x80 ||| UInt8.ofNat length]
  | .medium, length => (0x80 ||| 126) :: writeUInt 2 length
  | .long, length => (0x80 ||| 127) :: writeUInt 8 length

/-- A masked frame. -/
structure ClientFrame where
  fin : Bool
  opcode : UInt8
  mask : List UInt8
  payload : List UInt8
  form : LengthForm
  opcode_lt : opcode.toNat < 16
  mask_length : mask.length = 4
  fits : form.Fits payload.length

namespace ClientFrame

/-- The first byte. -/
def firstByte (fin : Bool) (opcode : UInt8) : UInt8 := (if fin then 0x80 else 0) ||| opcode

def bytes (f : ClientFrame) : List UInt8 :=
  firstByte f.fin f.opcode :: f.form.bytes f.payload.length ++ f.mask ++ applyMask f.mask f.payload

end ClientFrame

/-- The bytes of a sequence of frames. -/
def frameBytes (frames : List ClientFrame) : List UInt8 := frames.flatMap ClientFrame.bytes

theorem frameBytes_append (frames more : List ClientFrame) :
    frameBytes (frames ++ more) = frameBytes frames ++ frameBytes more :=
  flatMap_append

theorem frameBytes_concat (frames : List ClientFrame) (f : ClientFrame) :
    frameBytes (frames ++ [f]) = frameBytes frames ++ f.bytes := by
  rw [frameBytes, flatMap_append, flatMap_singleton, frameBytes]

variable {opcode : UInt8} (fin : Bool)

theorem firstByte_bits (small : opcode.toNat < 16) :
    (ClientFrame.firstByte fin opcode &&& 0x80 != 0) = fin ∧
      (ClientFrame.firstByte fin opcode &&& 0x70 != 0) = false ∧
      ClientFrame.firstByte fin opcode &&& 0x0f = opcode := by
  have all : ∀ (fin : Bool) (n : Fin 16),
      (ClientFrame.firstByte fin (UInt8.ofNat n) &&& 0x80 != 0) = fin ∧
        (ClientFrame.firstByte fin (UInt8.ofNat n) &&& 0x70 != 0) = false ∧
        ClientFrame.firstByte fin (UInt8.ofNat n) &&& 0x0f = UInt8.ofNat n := by decide
  have this := all fin ⟨opcode.toNat, small⟩
  rwa [UInt8.ofNat_toNat] at this

theorem secondByte_bits {n : Nat} (small : n < 128) :
    ((0x80 ||| UInt8.ofNat n) &&& 0x80 != 0) = true ∧
      ((0x80 ||| UInt8.ofNat n) &&& 0x7f).toNat = n := by
  have all : ∀ n : Fin 128, ((0x80 ||| UInt8.ofNat n) &&& 0x80 != 0) = true ∧
      ((0x80 ||| UInt8.ofNat n) &&& 0x7f).toNat = n := by decide
  exact all ⟨n, small⟩

/-- The bits of each byte make it up again. -/
theorem bits_table : ∀ n : Fin 256,
    ((UInt8.ofNat n &&& 0x70 != 0) = false → UInt8.ofNat n =
        ClientFrame.firstByte (UInt8.ofNat n &&& 0x80 != 0) (UInt8.ofNat n &&& 0x0f)) ∧
      (UInt8.ofNat n &&& 0x0f).toNat < 16 ∧
      ((UInt8.ofNat n &&& 0x80 != 0) = true →
        UInt8.ofNat n = 0x80 ||| UInt8.ofNat (UInt8.ofNat n &&& 0x7f).toNat) ∧
      (UInt8.ofNat n &&& 0x7f).toNat < 128 := by
  decide +kernel

theorem firstByte_of_bits {first : UInt8} (plain : (first &&& 0x70 != 0) = false) :
    first = ClientFrame.firstByte (first &&& 0x80 != 0) (first &&& 0x0f) ∧
      (first &&& 0x0f).toNat < 16 := by
  have bits := bits_table ⟨first.toNat, first.toNat_lt⟩
  rw [UInt8.ofNat_toNat] at bits
  exact ⟨bits.1 plain, bits.2.1⟩

theorem secondByte_of_bits {second : UInt8} (masked : (second &&& 0x80 != 0) = true) :
    second = 0x80 ||| UInt8.ofNat (second &&& 0x7f).toNat ∧ (second &&& 0x7f).toNat < 128 := by
  have bits := bits_table ⟨second.toNat, second.toNat_lt⟩
  rw [UInt8.ofNat_toNat] at bits
  exact ⟨bits.2.2.1 masked, bits.2.2.2⟩

theorem length_applyMask (mask payload : List UInt8) :
    (applyMask mask payload).length = payload.length :=
  length_mapIdx

/-- **Masking twice changes nothing.** -/
theorem applyMask_applyMask (mask payload : List UInt8) :
    applyMask mask (applyMask mask payload) = payload := by
  refine ext_getElem? fun i => ?_
  unfold applyMask
  rw [List.getElem?_mapIdx, List.getElem?_mapIdx, Option.map_map]
  cases payload[i]? with
  | none => rfl
  | some byte =>
    refine congrArg some ?_
    rw [Function.comp_apply, UInt8.xor_assoc, UInt8.xor_self, UInt8.xor_zero]

/-! ### Reading frames -/

/-- What is made of a frame. -/
def ClientFrame.read (f : ClientFrame) (more : List UInt8) : Read UInt8 ReadFrame Refusal :=
  if MAX_MESSAGE_BYTES < f.payload.length then .stop ⟨1009, text "message too large"⟩
  else if f.opcode &&& 0x08 != 0 && (!f.fin || 125 < f.payload.length) then
    .stop ⟨1002, text "bad control frame"⟩
  else .item ⟨f.fin, f.opcode, f.payload⟩ more

theorem readPayload_bytes (f : ClientFrame) (more : List UInt8) :
    readPayload f.fin f.opcode f.payload.length
      (f.mask ++ applyMask f.mask f.payload ++ more) = f.read more := by
  have body : (f.mask ++ applyMask f.mask f.payload).length = 4 + f.payload.length := by
    rw [length_append, length_applyMask, f.mask_length]
  unfold readPayload ClientFrame.read
  dsimp only
  split_ifs with large bad short
  · rfl
  · rfl
  · rw [length_append, body] at short
    omega
  · rw [← body, drop_left, append_assoc, ← f.mask_length, take_left, drop_left,
      ← length_applyMask f.mask f.payload, take_left, applyMask_applyMask]

/-- A masked header without reserved bits. -/
theorem readFrame_header (small : opcode.toNat < 16) {n : Nat} (low : n < 128) (body : List UInt8) :
    readFrame (ClientFrame.firstByte fin opcode :: (0x80 ||| UInt8.ofNat n) :: body) =
      if n = 126 then
        if body.length < 2 then .more
        else readPayload fin opcode (readUInt (body.take 2)) (body.drop 2)
      else if n = 127 then
        if body.length < 8 then .more
        else if readUInt (body.take 4) ≠ 0 ∨
            MAX_MESSAGE_BYTES < readUInt ((body.drop 4).take 4) then
          .stop ⟨1009, text "message too large"⟩
        else readPayload fin opcode (readUInt ((body.drop 4).take 4)) (body.drop 8)
      else readPayload fin opcode n body := by
  obtain ⟨fin_, plain, opcode_⟩ := firstByte_bits fin small
  obtain ⟨masked, length⟩ := secondByte_bits low
  unfold readFrame
  dsimp only
  rw [fin_, plain, opcode_, masked, length, if_neg Bool.false_ne_true, Bool.not_true,
    if_neg Bool.false_ne_true]

/-- **A frame is read as it is**, unless it is too large or a control frame that must not be. -/
theorem readFrame_bytes (f : ClientFrame) (more : List UInt8) :
    readFrame (f.bytes ++ more) = f.read more := by
  have fits := f.fits
  rw [← readPayload_bytes f more]
  unfold ClientFrame.bytes
  cases form : f.form with
  | short =>
    rw [form] at fits
    have low : f.payload.length < 126 := fits
    have header := readFrame_header f.fin f.opcode_lt (Nat.lt_trans low (by decide : 126 < 128))
      (f.mask ++ applyMask f.mask f.payload ++ more)
    rw [if_neg low.ne, if_neg (by omega)] at header
    rw [← header]
    simp [LengthForm.bytes]
  | medium =>
    rw [form] at fits
    have low : f.payload.length < 256 ^ 2 := fits
    have header := readFrame_header f.fin f.opcode_lt (show 126 < 128 by decide)
      (writeUInt 2 f.payload.length ++ (f.mask ++ applyMask f.mask f.payload ++ more))
    rw [if_pos rfl, if_neg (by rw [length_append, length_writeUInt]; omega),
      take_left' (length_writeUInt 2 _), drop_left' (length_writeUInt 2 _),
      readUInt_writeUInt low] at header
    rw [← header]
    simp [LengthForm.bytes]
  | long =>
    rw [form] at fits
    have low : f.payload.length < 2 ^ 63 := fits
    have header := readFrame_header f.fin f.opcode_lt (show 127 < 128 by decide)
      (writeUInt 4 (f.payload.length / 256 ^ 4) ++ (writeUInt 4 f.payload.length ++
        (f.mask ++ applyMask f.mask f.payload ++ more)))
    have eight : (writeUInt 4 (f.payload.length / 256 ^ 4) ++ (writeUInt 4 f.payload.length ++
        (f.mask ++ applyMask f.mask f.payload ++ more))).drop 8 =
          f.mask ++ applyMask f.mask f.payload ++ more := by
      rw [← append_assoc, drop_left']
      rw [length_append, length_writeUInt, length_writeUInt]
    rw [if_neg (by decide), if_pos rfl,
      if_neg (by simp only [length_append, length_writeUInt]; omega),
      take_left' (length_writeUInt 4 _), drop_left' (length_writeUInt 4 _),
      take_left' (length_writeUInt 4 _), eight] at header
    have long : LengthForm.long.bytes f.payload.length = (0x80 ||| UInt8.ofNat 127) ::
        (writeUInt 4 (f.payload.length / 256 ^ 4) ++ writeUInt 4 f.payload.length) := by
      rw [← writeUInt_add]
      rfl
    have bytes : ClientFrame.firstByte f.fin f.opcode :: LengthForm.long.bytes f.payload.length ++
        f.mask ++ applyMask f.mask f.payload ++ more =
          ClientFrame.firstByte f.fin f.opcode :: (0x80 ||| UInt8.ofNat 127) ::
            (writeUInt 4 (f.payload.length / 256 ^ 4) ++ (writeUInt 4 f.payload.length ++
              (f.mask ++ applyMask f.mask f.payload ++ more))) := by
      rw [long]
      simp only [cons_append, append_assoc]
    have high : readUInt (writeUInt 4 (f.payload.length / 256 ^ 4)) = f.payload.length / 256 ^ 4 :=
      readUInt_writeUInt (by omega)
    rw [bytes, header, high]
    by_cases large : MAX_MESSAGE_BYTES < f.payload.length
    · have stops : f.payload.length / 256 ^ 4 ≠ 0 ∨
          MAX_MESSAGE_BYTES < readUInt (writeUInt 4 f.payload.length) := by
        by_cases none : f.payload.length / 256 ^ 4 = 0
        · have whole : f.payload.length < 256 ^ 4 := by omega
          rw [readUInt_writeUInt whole]
          exact .inr large
        · exact .inl none
      rw [if_pos stops, readPayload, if_pos large]
    · have whole : f.payload.length < 256 ^ 4 :=
        Nat.lt_of_le_of_lt (Nat.le_of_not_lt large) (by decide)
      rw [readUInt_writeUInt whole, Nat.div_eq_of_lt whole,
        if_neg (not_or.mpr ⟨not_not.mpr rfl, large⟩)]

/-- What is read after a header is a mask and a masked payload. -/
theorem readPayload_item {fin : Bool} {length : Nat} {rest left : List UInt8} {frame : ReadFrame}
    (read : readPayload fin opcode length rest = .item frame left) :
    ∃ mask payload, mask.length = 4 ∧ payload.length = length ∧ length ≤ MAX_MESSAGE_BYTES ∧
      rest = mask ++ applyMask mask payload ++ left ∧ frame = ⟨fin, opcode, payload⟩ := by
  unfold readPayload at read
  by_cases large : MAX_MESSAGE_BYTES < length
  · rw [if_pos large] at read
    cases read
  rw [if_neg large] at read
  dsimp only at read
  split at read
  · cases read
  by_cases short : rest.length < 4 + length
  · rw [if_pos short] at read
    cases read
  rw [if_neg short] at read
  cases read
  have room : 4 + length ≤ rest.length := Nat.le_of_not_lt short
  refine ⟨rest.take 4, _, ?_, ?_, Nat.le_of_not_lt large, ?_, rfl⟩
  · rw [length_take]
    omega
  · rw [length_applyMask, length_take, length_drop]
    omega
  · rw [applyMask_applyMask, append_assoc, ← drop_drop, take_append_drop,
      take_append_drop]

/-- A header, a mask and a masked payload are a frame. -/
theorem exists_frame {second : UInt8} (small : opcode.toNat < 16) (form : LengthForm)
    (extended : List UInt8) {mask payload rest body : List UInt8} (four : mask.length = 4)
    (fits : form.Fits payload.length) (header : second :: extended = form.bytes payload.length)
    (body_eq : body = extended ++ (mask ++ applyMask mask payload ++ rest)) :
    ∃ f : ClientFrame, ClientFrame.firstByte fin opcode :: second :: body = f.bytes ++ rest ∧
      (⟨fin, opcode, payload⟩ : ReadFrame) = ⟨f.fin, f.opcode, f.payload⟩ := by
  refine ⟨⟨fin, opcode, mask, payload, form, small, four, fits⟩, ?_, rfl⟩
  unfold ClientFrame.bytes
  rw [← header, body_eq]
  simp only [cons_append, append_assoc]

/-- **What is read as a frame is one.** -/
theorem readFrame_item {pending rest : List UInt8} {frame : ReadFrame}
    (read : readFrame pending = .item frame rest) :
    ∃ f : ClientFrame, pending = f.bytes ++ rest ∧ frame = ⟨f.fin, f.opcode, f.payload⟩ := by
  rcases pending with _ | ⟨first, _ | ⟨second, body⟩⟩
  · cases read
  · cases read
  cases reserved : (first &&& 0x70 != 0) with
  | true =>
    unfold readFrame at read
    simp only [reserved, if_true] at read
    cases read
  | false =>
    cases masked : (second &&& 0x80 != 0) with
    | false =>
      unfold readFrame at read
      simp only [reserved, masked, Bool.false_eq_true, if_false, Bool.not_false, if_true] at read
      cases read
    | true =>
      obtain ⟨isFirst, small⟩ := firstByte_of_bits reserved
      obtain ⟨isSecond, low⟩ := secondByte_of_bits masked
      rw [isFirst, isSecond, readFrame_header _ small low] at read
      rw [isFirst, isSecond]
      generalize (first &&& 0x80 != 0) = fin at read ⊢
      generalize first &&& 0x0f = opcode at read small ⊢
      generalize (second &&& 0x7f).toNat = n at read low ⊢
      by_cases medium : n = 126
      · rw [if_pos medium] at read
        by_cases short : body.length < 2
        · rw [if_pos short] at read
          cases read
        rw [if_neg short] at read
        obtain ⟨mask, payload, four, length, -, body', rfl⟩ := readPayload_item read
        have two : (body.take 2).length = 2 := by
          rw [length_take]
          omega
        have value := writeUInt_readUInt (body.take 2)
        have small' := readUInt_lt (body.take 2)
        rw [two] at value small'
        refine exists_frame fin small .medium (body.take 2) four ?_ ?_ ?_
        · rw [length]
          exact small'
        · rw [length, medium]
          exact congrArg _ value.symm
        · rw [← body', take_append_drop]
      rw [if_neg medium] at read
      by_cases long : n = 127
      · rw [if_pos long] at read
        by_cases short : body.length < 8
        · rw [if_pos short] at read
          cases read
        rw [if_neg short] at read
        by_cases large : readUInt (body.take 4) ≠ 0 ∨
            MAX_MESSAGE_BYTES < readUInt ((body.drop 4).take 4)
        · rw [if_pos large] at read
          cases read
        rw [if_neg large] at read
        obtain ⟨high, bounded⟩ := not_or.mp large
        obtain ⟨mask, payload, four, length, -, body', rfl⟩ := readPayload_item read
        have two : (body.take 4).length = 4 := by
          rw [length_take]
          omega
        have two' : ((body.drop 4).take 4).length = 4 := by
          rw [length_take, length_drop]
          omega
        have zero := writeUInt_readUInt (body.take 4)
        have value := writeUInt_readUInt ((body.drop 4).take 4)
        have small' := readUInt_lt ((body.drop 4).take 4)
        rw [two, not_not.mp high] at zero
        rw [two'] at value small'
        refine exists_frame fin small .long (body.take 4 ++ (body.drop 4).take 4) four ?_ ?_ ?_
        · rw [length]
          exact Nat.lt_trans small' (by decide)
        · rw [length, long, ← zero]
          conv_lhs => rw [← value, ← Nat.div_eq_of_lt small', ← writeUInt_add]
          rfl
        · rw [← body', append_assoc, ← @drop_drop _ 4 4 body,
            take_append_drop, take_append_drop]
      · rw [if_neg long] at read
        obtain ⟨mask, payload, four, length, -, rfl, rfl⟩ := readPayload_item read
        refine exists_frame fin small .short [] four ?_ ?_ rfl
        · rw [length]
          show n < 126
          omega
        · rw [length]
          rfl

end TianGong.SecServer

/-
**The frame reader of the web socket.**

`websocket.ts`: what a connection makes of the bytes of its client, first those that came with the
upgrade, then those of each chunk.

* `readFrame`: a frame at the front of what is pending, or the reason to refuse it.
* `Connection.handleFrame`, `deliver`, `close`, `writeFrame`: what is done with a frame.
-/

import TianGong.Lib.Chunks
import TianGong.Lib.Utf8

namespace TianGong.SecServer

open List
open Chunks (Read Settles Reader Machine)
open Utf8 (encode encodeChars decodeChars units)

def MAX_MESSAGE_BYTES : Nat := 1024 * 1024

def OPCODE_CONTINUATION : UInt8 := 0x0
def OPCODE_TEXT : UInt8 := 0x1
def OPCODE_BINARY : UInt8 := 0x2
def OPCODE_CLOSE : UInt8 := 0x8
def OPCODE_PING : UInt8 := 0x9
def OPCODE_PONG : UInt8 := 0xa

/-- `readUInt16BE`, `readUInt32BE` -/
def readUInt (bytes : List UInt8) : Nat := bytes.foldl (fun n byte => n * 256 + byte.toNat) 0

/-- `writeUInt16BE`, `writeUInt32BE` -/
def writeUInt : Nat → Nat → List UInt8
  | 0, _ => []
  | width + 1, n => writeUInt width (n / 256) ++ [UInt8.ofNat n]

/-- A frame as it is handled. -/
structure ReadFrame where
  fin : Bool
  opcode : UInt8
  payload : List UInt8

/-- The code and the reason of a close. -/
structure Refusal where
  code : Nat
  reason : Text

/-- The payload with the mask applied. -/
def applyMask (mask payload : List UInt8) : List UInt8 :=
  payload.mapIdx fun index byte => byte ^^^ mask.getD (index % 4) 0

/-- The part of `drain` after the length is read. -/
def readPayload (fin : Bool) (opcode : UInt8) (length : Nat) (rest : List UInt8) :
    Read UInt8 ReadFrame Refusal :=
  if MAX_MESSAGE_BYTES < length then .stop ⟨1009, text "message too large"⟩
  else
    let control := opcode &&& 0x08 != 0
    if control && (!fin || 125 < length) then .stop ⟨1002, text "bad control frame"⟩
    else if rest.length < 4 + length then .more
    else
      let mask := rest.take 4
      .item ⟨fin, opcode, applyMask mask ((rest.drop 4).take length)⟩ (rest.drop (4 + length))

/-- The reading of `drain`. -/
def readFrame (pending : List UInt8) : Read UInt8 ReadFrame Refusal :=
  match pending with
  | first :: second :: body =>
    let fin := first &&& 0x80 != 0
    let reserved := first &&& 0x70 != 0
    let opcode := first &&& 0x0f
    let masked := second &&& 0x80 != 0
    let length := (second &&& 0x7f).toNat
    if reserved then .stop ⟨1002, text "reserved bits"⟩
    else if !masked then .stop ⟨1002, text "unmasked client frame"⟩
    else if length = 126 then
      if body.length < 2 then .more
      else readPayload fin opcode (readUInt (body.take 2)) (body.drop 2)
    else if length = 127 then
      if body.length < 8 then .more
      else
        let high := readUInt (body.take 4)
        let low := readUInt ((body.drop 4).take 4)
        if high ≠ 0 ∨ MAX_MESSAGE_BYTES < low then
          .stop ⟨1009, text "message too large"⟩
        else readPayload fin opcode low (body.drop 8)
    else readPayload fin opcode length body
  | _ => .more

/-- A connection, without the bytes that are pending; with what it has written to the socket and
what its listener was given. -/
structure Connection where
  fragments : List (List UInt8) := []
  fragmentBytes : Nat := 0
  fragmenting : Bool := false
  closeSent : Bool := false
  closeNotified : Bool := false
  isClosed : Bool := false
  /-- A message listener has been added. -/
  listening : Bool := false
  written : List (List UInt8) := []
  delivered : List Text := []

namespace Connection

def writeFrame (c : Connection) (opcode : UInt8) (payload : List UInt8) : Connection :=
  let length := payload.length
  let header :=
    if length < 126 then [0x80 ||| opcode, UInt8.ofNat length]
    else if length < 65536 then [0x80 ||| opcode, 126] ++ writeUInt 2 length
    else [0x80 ||| opcode, 127] ++ writeUInt 4 0 ++ writeUInt 4 length
  { c with written := c.written ++ [header ++ payload] }

def close (c : Connection) (code : Nat) (reason : Text) : Connection :=
  if c.isClosed then c
  else
    let closed := { c with isClosed := true }
    let reasonBytes := (encode reason).take 123
    let body := writeUInt 2 code ++ reasonBytes
    let sent :=
      if closed.closeSent then closed
      else { closed with closeSent := true }.writeFrame OPCODE_CLOSE body
    { sent with closeNotified := true }

/-- `new TextDecoder("utf-8", { fatal: true }).decode`: bytes that are no UTF-8 are refused, and a
byte-order mark in front is dropped. -/
def decodeFatal (payload : List UInt8) : Option Text :=
  let text := units (decodeChars payload)
  if encodeChars (decodeChars payload) = payload then
    some (if text.head? = some 0xFEFF then text.tail else text)
  else none

def deliver (c : Connection) (fin : Bool) (payload : List UInt8) : Connection :=
  if !fin then
    { c with fragmenting := true, fragments := [payload], fragmentBytes := payload.length }
  else
    match decodeFatal payload with
    | none => c.close 1007 (text "invalid utf-8")
    | some text => if c.listening then { c with delivered := c.delivered ++ [text] } else c

def handleFrame (c : Connection) (fin : Bool) (opcode : UInt8) (payload : List UInt8) :
    Connection :=
  if opcode = OPCODE_TEXT then
    if c.fragmenting then c.close 1002 (text "interleaved data frame") else c.deliver fin payload
  else if opcode = OPCODE_CONTINUATION then
    if !c.fragmenting then c.close 1002 (text "unexpected continuation")
    else
      let grown := { c with
        fragments := c.fragments ++ [payload]
        fragmentBytes := c.fragmentBytes + payload.length }
      if MAX_MESSAGE_BYTES < grown.fragmentBytes then grown.close 1009 (text "message too large")
      else if fin then
        { grown with fragments := [], fragmentBytes := 0, fragmenting := false }.deliver true
          grown.fragments.flatten
      else grown
  else if opcode = OPCODE_BINARY then c.close 1003 (text "text frames only")
  else if opcode = OPCODE_CLOSE then
    let code := if 2 ≤ payload.length then readUInt (payload.take 2) else 1000
    c.close code []
  else if opcode = OPCODE_PING then c.writeFrame OPCODE_PONG payload
  else if opcode = OPCODE_PONG then c
  else c.close 1002 (text "unknown opcode")

end Connection

/-! ### The machine -/

theorem readPayload_settles (fin : Bool) (opcode : UInt8) (length : Nat) {size : Nat}
    {rest : List UInt8} (inside : rest.length ≤ size) (more : List UInt8) :
    Settles size more (readPayload fin opcode length rest)
      (readPayload fin opcode length (rest ++ more)) := by
  unfold readPayload
  by_cases large : MAX_MESSAGE_BYTES < length
  · rw [if_pos large, if_pos large]
    exact .stop _
  rw [if_neg large, if_neg large]
  dsimp only
  split
  · exact .stop _
  by_cases short : rest.length < 4 + length
  · rw [if_pos short]
    exact .more
  have room : 4 + length ≤ rest.length := Nat.le_of_not_lt short
  rw [if_neg short, if_neg (by rw [length_append]; omega),
    take_append_of_le_length (by omega), drop_append_of_le_length (by omega),
    take_append_of_le_length (by rw [length_drop]; omega),
    drop_append_of_le_length room]
  exact .item _ (by rw [length_drop]; omega)

theorem readFrame_settles (pending more : List UInt8) :
    Settles pending.length more (readFrame pending) (readFrame (pending ++ more)) := by
  rcases pending with _ | ⟨first, _ | ⟨second, body⟩⟩
  · exact .more
  · exact .more
  rw [cons_append, cons_append]
  unfold readFrame
  dsimp only
  split
  · exact .stop _
  split
  · exact .stop _
  split
  · by_cases short : body.length < 2
    · rw [if_pos short]
      exact .more
    · have room : 2 ≤ body.length := Nat.le_of_not_lt short
      have room' : ¬(body ++ more).length < 2 := by rw [length_append]; omega
      rw [if_neg short, if_neg room', take_append_of_le_length room,
        drop_append_of_le_length room]
      exact readPayload_settles _ _ _ (by simp; omega) _
  split
  · by_cases short : body.length < 8
    · rw [if_pos short]
      exact .more
    · have room : 8 ≤ body.length := Nat.le_of_not_lt short
      have room' : ¬(body ++ more).length < 8 := by rw [length_append]; omega
      rw [if_neg short, if_neg room', take_append_of_le_length (by omega),
        drop_append_of_le_length (by omega),
        take_append_of_le_length (by rw [length_drop]; omega),
        drop_append_of_le_length room]
      split
      · exact .stop _
      · exact readPayload_settles _ _ _ (by simp; omega) _
  · exact readPayload_settles _ _ _ (by simp; omega) _

/-- The reader of frames. -/
def reader : Reader UInt8 ReadFrame Refusal := ⟨readFrame, readFrame_settles⟩

theorem Connection.isClosed_close (c : Connection) (code : Nat) (reason : Text) :
    (c.close code reason).isClosed = true := by
  dsimp only [close]
  split_ifs with closed
  · exact closed
  · rfl
  · rfl

/-- `drain`: frames are handled until the connection is closed. -/
def machine : Machine UInt8 ReadFrame Refusal Connection where
  reader := reader
  handle c frame := c.handleFrame frame.fin frame.opcode frame.payload
  refuse c refusal := c.close refusal.code refusal.reason
  done := Connection.isClosed
  done_refuse c refusal := c.isClosed_close refusal.code refusal.reason

/-- A connection that has been made, with what came with the upgrade. -/
def accepted (head : List UInt8) : Connection × List UInt8 :=
  if 0 < head.length then machine.feed ({}, []) head else ({}, [])

def onMessage (x : Connection × List UInt8) : Connection × List UInt8 :=
  ({ x.1 with listening := true }, x.2)

/-- A connection that is listened to once it has been made, after the chunks that come then. -/
def received (head : List UInt8) (chunks : List (List UInt8)) : Connection × List UInt8 :=
  chunks.foldl machine.feed (onMessage (accepted head))

end TianGong.SecServer

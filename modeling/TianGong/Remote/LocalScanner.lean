/-
**The local line scanner, and the two together.**

`line-scan.ts` of gibraltar, with its decoders as parameters, beside the port of it in the daemon.

* `LineScanner.push`, `LineScanner.finish`: the scanner.
* `ofDaemon_process`: step by step it does what the daemon's does.
* `scanners_agree`: for every file and any two ways of cutting it, the two give one answer.
-/

import TianGong.Remote.DaemonScanner

namespace TianGong.Remote.Local

open Output (NEWLINE)
open Utf8 (StreamDecoder encode encodeChars units)

structure LineScanner (d : StreamDecoder) extends LineRange where
  position : Nat := 0
  newlines : Nat := 0
  lineStart : Nat := 0
  start : Option Nat := none
  end_ : Option Nat := none
  firstLineEnd : Option Nat := none
  lastLineStart : Option Nat := none
  selectedBytes : Nat := 0
  firstLineBytes : Nat := 0
  selection : Option d.State := none
  firstLine : Option d.State := none
  head : Option (List UInt8) := some []
  bom : Bool := false

/-- What the constructor throws. -/
inductive RangeError where
  | invalidLineRange

def MAX_SAFE_INTEGER : Nat := 2 ^ 53 - 1

/-- Whether the constructor takes the lines. No `endLine` is `Infinity`. -/
def Accepted (startLine : Nat) (endLine : Option Nat) : Prop :=
  startLine ≤ MAX_SAFE_INTEGER ∧ ∀ line ∈ endLine, startLine < line ∧ line ≤ MAX_SAFE_INTEGER

instance (startLine : Nat) (endLine : Option Nat) : Decidable (Accepted startLine endLine) :=
  inferInstanceAs (Decidable (_ ∧ _))

variable {d : StreamDecoder}

/-- UTF-8 byte length of decoded text. -/
def decodedBytes (text : Text) : Nat := if text = [] then 0 else (encode text).length

/-- `decode` of a decoder that may be gone, with the size of its text. -/
def decode (decoder : Option d.State) (bytes : List UInt8) : Option d.State × Nat :=
  match decoder with
  | some decoder =>
    (some (d.decode decoder bytes).1, decodedBytes (units (d.decode decoder bytes).2))
  | none => (none, 0)

/-- The size of what a decoder gives out at its end. -/
def lastBytes (decoder : Option d.State) : Nat :=
  match decoder with
  | some decoder => decodedBytes (units (d.finish decoder))
  | none => 0

/-- `indexOf` of a chunk. -/
def indexOf (chunk : List UInt8) (byte : UInt8) (start : Nat) : Option Nat :=
  ((chunk.drop start).findIdx? fun other => other = byte).map fun found => start + found

namespace LineScanner

/-- `line === endLine - 1` -/
def endsAt (scanner : LineScanner d) (line : Nat) : Bool :=
  scanner.endLine.any fun endLine => line == endLine - 1

def begin (scanner : LineScanner d) (start : Nat) : LineScanner d :=
  { scanner with
    start := some start
    lastLineStart := if scanner.endsAt scanner.startLine then some start else scanner.lastLineStart
    selection := some d.start
    firstLine := some d.start }

def new (lines : LineRange) : LineScanner d :=
  let scanner : LineScanner d := { lines with }
  if lines.startLine = 0 then scanner.begin 0 else scanner

def endFirstLine (scanner : LineScanner d) (position : Nat) : LineScanner d :=
  { scanner with
    firstLineEnd := some position
    firstLineBytes := scanner.firstLineBytes + lastBytes scanner.firstLine
    firstLine := none }

def endSelection (scanner : LineScanner d) (position : Nat) : LineScanner d :=
  { scanner with
    end_ := some position
    selectedBytes := scanner.selectedBytes + lastBytes scanner.selection
    selection := none }

/-- Feed a part of a chunk, which starts at file offset `base`, to the decoders of the ranges still
open. -/
def feed (scanner : LineScanner d) (chunk : List UInt8) (base from_ to_ : Nat) : LineScanner d :=
  let from_ := if scanner.bom && base + from_ < 3 then min to_ (3 - base) else from_
  if to_ ≤ from_ then scanner
  else
    let bytes := (chunk.take to_).drop from_
    { scanner with
      selection := (decode scanner.selection bytes).1
      selectedBytes := scanner.selectedBytes + (decode scanner.selection bytes).2
      firstLine := (decode scanner.firstLine bytes).1
      firstLineBytes := scanner.firstLineBytes + (decode scanner.firstLine bytes).2 }

/-- What a newline ends: line `newlines`, before the newline. -/
def closeLine (scanner : LineScanner d) (position : Nat) : LineScanner d :=
  let line := scanner.newlines
  let scanner := if line = scanner.startLine then scanner.endFirstLine position else scanner
  if scanner.endsAt line then scanner.endSelection position else scanner

/-- What begins behind a newline. -/
def openLine (scanner : LineScanner d) (position : Nat) : LineScanner d :=
  let scanner := { scanner with newlines := scanner.newlines + 1, lineStart := position + 1 }
  let scanner := if scanner.newlines = scanner.startLine then scanner.begin scanner.lineStart
    else scanner
  if scanner.endsAt scanner.newlines then { scanner with lastLineStart := some scanner.lineStart }
  else scanner

/-- The loop of `process`: the newline it has found, and the byte behind the one before. -/
def newlinesOf (chunk : List UInt8) (base : Nat) :
    Nat → Option Nat → Nat → LineScanner d → LineScanner d × Nat
  | fuel + 1, some index, from_, scanner =>
    let scanner := (scanner.feed chunk base from_ index).closeLine (base + index)
    let scanner := (scanner.feed chunk base index (index + 1)).openLine (base + index)
    newlinesOf chunk base fuel (indexOf chunk NEWLINE (index + 1)) (index + 1) scanner
  | _, _, from_, scanner => (scanner, from_)

def process (scanner : LineScanner d) (chunk : List UInt8) : LineScanner d :=
  let base := scanner.position
  let rest := newlinesOf chunk base chunk.length (indexOf chunk NEWLINE 0) 0 scanner
  let scanner := rest.1.feed chunk base rest.2 chunk.length
  { scanner with position := scanner.position + chunk.length }

def releaseHead (scanner : LineScanner d) : LineScanner d :=
  let head := scanner.head.getD []
  process { scanner with head := none, bom := startsWithBom head } head

def push (scanner : LineScanner d) (chunk : List UInt8) : LineScanner d :=
  match scanner.head with
  | some head =>
    let take := min (3 - head.length) chunk.length
    let head := head ++ chunk.take take
    if head.length < 3 then { scanner with head := some head }
    else (releaseHead { scanner with head := some head }).process (chunk.drop take)
  | none => scanner.process chunk

def finish (scanner : LineScanner d) : LineScan :=
  let scanner := if scanner.head.isSome then scanner.releaseHead else scanner
  let size := scanner.position
  match scanner.start with
  | none => ⟨scanner.newlines, size, size, size, size, 0, 0⟩
  | some start =>
    let scanner := if scanner.firstLineEnd.isNone then scanner.endFirstLine size else scanner
    let scanner := if scanner.end_.isNone then scanner.endSelection size else scanner
    { newlines := scanner.newlines
      start := start
      end_ := scanner.end_.getD size
      firstLineEnd := scanner.firstLineEnd.getD size
      lastLineStart := scanner.lastLineStart.getD scanner.lineStart
      selectedBytes := scanner.selectedBytes
      firstLineBytes := scanner.firstLineBytes }

end LineScanner

/-- A file that is pushed chunk by chunk. -/
def scan (d : StreamDecoder) (startLine : Nat) (endLine : Option Nat) (chunks : List (List UInt8)) :
    Except RangeError LineScan :=
  if accepted : Accepted startLine endLine then
    let lines : LineRange := ⟨startLine, endLine, fun line ends => (accepted.2 line ends).1⟩
    .ok (chunks.foldl LineScanner.push (LineScanner.new (d := d) lines)).finish
  else .error .invalidLineRange

/-! ### Beside the daemon's -/

/-- The same fields. -/
def ofDaemon (scanner : Daemon.LineScanner d) : LineScanner d := { scanner with }

variable (position : Nat)

section OfDaemon

variable (scanner : Daemon.LineScanner d)

theorem decodedBytes_units (cs : List Char) :
    decodedBytes (units cs) = (encodeChars cs).length := by
  unfold decodedBytes
  rw [Utf8.encode_units]
  split_ifs with empty
  · have none := Utf8.encode_units cs
    rw [empty, Utf8.encode_nil] at none
    rw [← none, List.length_nil]
  · rfl

theorem decode_eq (decoder : Option d.State) (bytes : List UInt8) :
    decode decoder bytes = Daemon.decodeInto decoder bytes := by
  rcases decoder with _ | decoder
  · rfl
  · simp only [decode, Daemon.decodeInto, decodedBytes_units]

theorem lastBytes_eq (decoder : Option d.State) : lastBytes decoder = Daemon.lastBytes decoder := by
  rcases decoder with _ | decoder
  · rfl
  · simp only [lastBytes, Daemon.lastBytes, decodedBytes_units]

/-- The last line is the one before `endLine`. -/
theorem ofDaemon_endsAt (line : Nat) :
    (ofDaemon scanner).endsAt line = scanner.isLastLine line := by
  have past := scanner.ordered
  unfold LineScanner.endsAt Daemon.LineScanner.isLastLine ofDaemon
  rcases ends : scanner.endLine with _ | endLine
  · rfl
  · have less := past endLine ends
    have same : line = endLine - 1 ↔ line + 1 = endLine := by omega
    simp only [Option.any_some, Bool.beq_eq_decide_eq, same]

theorem ofDaemon_begin (start : Nat) :
    ofDaemon (scanner.begin start) = (ofDaemon scanner).begin start := by
  have ends := ofDaemon_endsAt scanner scanner.startLine
  unfold Daemon.LineScanner.begin LineScanner.begin
  rw [show (ofDaemon scanner).startLine = scanner.startLine from rfl, ends]
  rfl

theorem ofDaemon_new (lines : LineRange) :
    ofDaemon (Daemon.LineScanner.new (d := d) lines) = LineScanner.new lines := by
  unfold Daemon.LineScanner.new LineScanner.new
  dsimp only
  split_ifs
  · exact ofDaemon_begin _ 0
  · rfl

theorem ofDaemon_endFirstLine :
    ofDaemon (scanner.endFirstLine position) = (ofDaemon scanner).endFirstLine position := by
  unfold Daemon.LineScanner.endFirstLine LineScanner.endFirstLine
  rw [lastBytes_eq]
  rfl

theorem ofDaemon_endSelection :
    ofDaemon (scanner.endSelection position) = (ofDaemon scanner).endSelection position := by
  unfold Daemon.LineScanner.endSelection LineScanner.endSelection
  rw [lastBytes_eq]
  rfl

theorem ofDaemon_feed (chunk : List UInt8) (base from_ to_ : Nat) :
    ofDaemon (scanner.feed chunk base from_ to_) =
      (ofDaemon scanner).feed chunk base from_ to_ := by
  unfold Daemon.LineScanner.feed LineScanner.feed
  simp only [decode_eq]
  rw [show (ofDaemon scanner).bom = scanner.bom from rfl, apply_ite ofDaemon]
  rfl

theorem ofDaemon_closeLine :
    ofDaemon (scanner.closeLine position) = (ofDaemon scanner).closeLine position := by
  unfold Daemon.LineScanner.closeLine LineScanner.closeLine
  dsimp only
  rw [apply_ite ofDaemon, ofDaemon_endSelection, apply_ite ofDaemon, ofDaemon_endFirstLine,
    ← ofDaemon_endsAt, apply_ite ofDaemon, ofDaemon_endFirstLine]
  rfl

theorem ofDaemon_openLine :
    ofDaemon (scanner.openLine position) = (ofDaemon scanner).openLine position := by
  -- The scanner behind the newline, and with the selection that begins there.
  obtain ⟨counted, here⟩ : ∃ counted : Daemon.LineScanner d, counted =
      { scanner with newlines := scanner.newlines + 1, lineStart := position + 1 } := ⟨_, rfl⟩
  obtain ⟨behind, opened⟩ : ∃ behind, behind =
      if counted.newlines = counted.startLine then counted.begin counted.lineStart else counted :=
    ⟨_, rfl⟩
  have begun : ofDaemon behind = if (ofDaemon counted).newlines = (ofDaemon counted).startLine then
      (ofDaemon counted).begin (ofDaemon counted).lineStart else ofDaemon counted := by
    rw [opened, apply_ite ofDaemon, ofDaemon_begin]
    rfl
  have daemon : scanner.openLine position = if behind.isLastLine behind.newlines then
      { behind with lastLineStart := some behind.lineStart } else behind := by
    rw [opened, here]
    rfl
  have local_ : (ofDaemon scanner).openLine position =
      if (ofDaemon behind).endsAt (ofDaemon behind).newlines then
        { ofDaemon behind with lastLineStart := some (ofDaemon behind).lineStart }
      else ofDaemon behind := by
    rw [begun, here]
    rfl
  rw [daemon, local_, ofDaemon_endsAt, apply_ite ofDaemon]
  rfl

theorem ofDaemon_newlinesOf (chunk : List UInt8) (base fuel from_ : Nat) :
    LineScanner.newlinesOf chunk base fuel (indexOf chunk NEWLINE from_) from_ (ofDaemon scanner) =
      (ofDaemon (Daemon.LineScanner.newlinesOf chunk base fuel from_ scanner).1,
        (Daemon.LineScanner.newlinesOf chunk base fuel from_ scanner).2) := by
  induction fuel generalizing from_ scanner with
  | zero => rfl
  | succ fuel ih =>
    unfold Daemon.LineScanner.newlinesOf
    unfold indexOf
    cases search : (chunk.drop from_).findIdx? fun byte => byte = NEWLINE with
    | none => rfl
    | some found =>
      rw [Option.map_some, LineScanner.newlinesOf, ← ofDaemon_feed, ← ofDaemon_closeLine,
        ← ofDaemon_feed, ← ofDaemon_openLine, ih]
      rfl

theorem ofDaemon_process (chunk : List UInt8) :
    ofDaemon (scanner.process chunk) = (ofDaemon scanner).process chunk := by
  have newlines := ofDaemon_newlinesOf scanner chunk scanner.position chunk.length 0
  unfold Daemon.LineScanner.process LineScanner.process
  dsimp only
  rw [show (ofDaemon scanner).position = scanner.position from rfl, newlines, ← ofDaemon_feed]
  rfl

theorem ofDaemon_releaseHead : ofDaemon scanner.releaseHead = (ofDaemon scanner).releaseHead :=
  ofDaemon_process _ _

theorem ofDaemon_push (chunk : List UInt8) :
    ofDaemon (scanner.push chunk) = (ofDaemon scanner).push chunk := by
  unfold Daemon.LineScanner.push LineScanner.push
  rw [show (ofDaemon scanner).head = scanner.head from rfl]
  rcases scanner.head with _ | head
  · exact ofDaemon_process scanner chunk
  · dsimp only
    rw [apply_ite ofDaemon, ofDaemon_process, ofDaemon_releaseHead]
    rfl

theorem ofDaemon_finish : (ofDaemon scanner).finish = scanner.finish := by
  have released (scanner : Daemon.LineScanner d) :
      (if (ofDaemon scanner).head.isSome then (ofDaemon scanner).releaseHead
        else ofDaemon scanner) =
        ofDaemon (if scanner.head.isSome then scanner.releaseHead else scanner) := by
    rw [apply_ite ofDaemon, ofDaemon_releaseHead]
    rfl
  unfold LineScanner.finish Daemon.LineScanner.finish
  dsimp only
  rw [released]
  generalize (if scanner.head.isSome then scanner.releaseHead else scanner) = scanner
  rw [show (ofDaemon scanner).start = scanner.start from rfl]
  rcases scanner.start with _ | start
  · rfl
  · have first : (if (ofDaemon scanner).firstLineEnd.isNone then
        (ofDaemon scanner).endFirstLine (ofDaemon scanner).position else ofDaemon scanner) =
        ofDaemon (if scanner.firstLineEnd.isNone then scanner.endFirstLine scanner.position
          else scanner) := by
      rw [apply_ite ofDaemon, ofDaemon_endFirstLine]
      rfl
    dsimp only
    rw [first]
    generalize (if scanner.firstLineEnd.isNone then scanner.endFirstLine scanner.position
      else scanner) = closed
    have second : (if (ofDaemon closed).end_.isNone then
        (ofDaemon closed).endSelection (ofDaemon scanner).position else ofDaemon closed) =
        ofDaemon (if closed.end_.isNone then closed.endSelection scanner.position else closed) := by
      rw [apply_ite ofDaemon, ofDaemon_endSelection]
      rfl
    rw [second]
    rfl

end OfDaemon

/-- **Two line scanners, one answer**: however each of them gets the file, and whatever its decoder
holds back, they report the same, for all the lines that the local one takes. -/
theorem scanners_agree (d e : StreamDecoder) (startLine : Nat) (endLine : Option Nat)
    {chunks others : List (List UInt8)} (same : chunks.flatten = others.flatten)
    (ordered : ∀ line, endLine = some line → startLine < line) :
    scan d startLine endLine chunks =
      if Accepted startLine endLine then .ok (Daemon.scan e ⟨startLine, endLine, ordered⟩ others)
      else .error .invalidLineRange := by
  have fold (scanner : Daemon.LineScanner d) : ∀ chunks : List (List UInt8),
      ofDaemon (chunks.foldl Daemon.LineScanner.push scanner) =
        chunks.foldl LineScanner.push (ofDaemon scanner) := by
    intro chunks
    induction chunks generalizing scanner with
    | nil => rfl
    | cons chunk chunks ih => rw [List.foldl_cons, List.foldl_cons, ih, ofDaemon_push]
  unfold scan
  split_ifs with accepted
  · rw [Daemon.scan_eq, ← same, ← Daemon.scan_eq (d := d)]
    unfold Daemon.scan
    rw [← ofDaemon_finish, fold, ofDaemon_new]
  · rfl

/-- A marked file with an incomplete character at the end of its second line, cut within the mark
and within the character. -/
theorem scanners_agree_marked :
    scan .whatwg 1 (some 2) [[0xEF], [0xBB, 0xBF, 0x61, 0x0A, 0xE2], [0x82, 0x0A]] =
      .ok (Daemon.scan .whatwg ⟨1, some 2, fun _ ends => Option.some.inj ends ▸ Nat.lt_succ_self 1⟩
        [[0xEF, 0xBB, 0xBF, 0x61], [0x0A, 0xE2, 0x82, 0x0A]]) ∧
    Daemon.scan .whatwg ⟨1, some 2, fun _ ends => Option.some.inj ends ▸ Nat.lt_succ_self 1⟩
      [[0xEF, 0xBB, 0xBF, 0x61], [0x0A, 0xE2, 0x82, 0x0A]] = ⟨2, 5, 7, 7, 5, 3, 3⟩ := by
  have same : [[0xEF], [0xBB, 0xBF, 0x61, 0x0A, 0xE2], [0x82, 0x0A]].flatten =
      ([[0xEF, 0xBB, 0xBF, 0x61], [0x0A, 0xE2, 0x82, 0x0A]] : List (List UInt8)).flatten := rfl
  exact ⟨(scanners_agree .whatwg .whatwg 1 (some 2) same _).trans (if_pos (by decide)),
    by decide +kernel⟩

end TianGong.Remote.Local

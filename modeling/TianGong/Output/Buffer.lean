/-
**Bounded output: `output.ts`.**

`boundOutput` cuts a text to whole lines within `maxBytes` bytes and `maxLines` lines, the first
lines for `head` and the last for `tail`. `OutputBuffer` does the same for a stream that arrives in
chunks, strings or bytes, and keeps only what a later window can need: `push`, `end_` and
`snapshot` are its operations, `OutputSkip` what a producer left out before a chunk.

A buffer of bytes is a list of bytes, and an index search is the search of the runtime:
`indexOf` from an index upwards, `lastIndexOf` from an index downwards.
-/

import TianGong.Lib.Utf8

namespace TianGong.Output

open Utf8 (encode decode isContinuation)

/-- Which end of the output is kept. -/
inductive Retain
  | head
  | tail
deriving DecidableEq

/-- Retention limits of one output stream. -/
structure OutputLimits where
  maxBytes : Nat
  maxLines : Nat
  retain : Retain

/-- Retained output and what the limits dropped. -/
structure BoundedOutput where
  text : Text
  droppedBytes : Nat
  droppedLines : Nat
deriving DecidableEq

/-- An exact slice of the input within the limits, and what it left out. -/
structure OutputSlice where
  text : Text
  bytes : Nat
  droppedBytes : Nat
  droppedLines : Nat

/-- Output a producer omitted before a chunk. -/
structure OutputSkip where
  bytes : Nat
  newlines : Nat
  endsWithNewline : Bool

/-- `NEWLINE`, as a byte. -/
def NEWLINE : UInt8 := 0x0A

/-- `INVALID_OUTPUT`: the class `[\x00-\x08\x0b-\x1f\ufff9-\ufffb]`. -/
def INVALID_OUTPUT (u : UInt16) : Bool :=
  u ≤ 0x08 || (0x0B ≤ u && u ≤ 0x1F) || (0xFFF9 ≤ u && u ≤ 0xFFFB)

/-- Remove control characters that break display and transcripts; tabs and newlines stay. -/
def sanitizeOutput (t : Text) : Text := t.filter fun u => !INVALID_OUTPUT u

/-! ### Searching bytes -/

/-- `bytes.indexOf(NEWLINE, start)`. -/
def indexOf (bytes : List UInt8) (start : Nat) : Option Nat :=
  ((bytes.drop start).findIdx? (· == NEWLINE)).map (start + ·)

/-- `bytes.lastIndexOf(NEWLINE, index)`. -/
def lastIndexOf (bytes : List UInt8) : Nat → Option Nat
  | 0 => if bytes[0]? = some NEWLINE then some 0 else none
  | i + 1 => if bytes[i + 1]? = some NEWLINE then some (i + 1) else lastIndexOf bytes i

/-- The last character boundary at or before `index`. -/
def characterEnd (bytes : List UInt8) : Nat → Nat
  | 0 => 0
  | i + 1 => if isContinuation (bytes.getD (i + 1) 0) then characterEnd bytes i else i + 1

/-- The first character boundary at or after `index`. -/
def characterStart (bytes : List UInt8) (index : Nat) : Nat :=
  index + ((bytes.drop index).takeWhile isContinuation).length

def lineCount (bytes : List UInt8) : Nat :=
  if bytes.length = 0 then 0
  else bytes.count NEWLINE + if bytes.getLast? = some NEWLINE then 0 else 1

/-! ### Bounding a text -/

/-- The first loop of `headRange`: from newline to newline until `maxLines` of them are counted;
`index` is where `bytes` stand in the whole. -/
def headLines (maxLines : Nat) : Nat → Nat → List UInt8 → Option Nat
  | _, _, [] => none
  | lines, index, b :: rest =>
    if b = NEWLINE then
      if lines + 1 = maxLines then some (index + 1)
      else headLines maxLines (lines + 1) (index + 1) rest
    else headLines maxLines lines (index + 1) rest

def headRange (bytes : List UInt8) (limits : OutputLimits) : Nat × Nat :=
  if limits.maxLines = 0 ∨ limits.maxBytes = 0 then (0, 0)
  else
    let end_ := (headLines limits.maxLines 0 0 bytes).getD bytes.length
    if limits.maxBytes < end_ then
      match lastIndexOf bytes (limits.maxBytes - 1) with
      | none => (0, characterEnd bytes limits.maxBytes)
      | some newline => (0, newline + 1)
    else (0, end_)

/-- The first loop of `tailRange`: the newlines below an index, last first, until `lines` has
reached `maxLines` at one of them. -/
def tailLines (bytes : List UInt8) (maxLines : Nat) : Nat → Nat → Nat
  | _, 0 => 0
  | lines, i + 1 =>
    if bytes[i]? = some NEWLINE then
      if lines = maxLines then i + 1 else tailLines bytes maxLines (lines + 1) i
    else tailLines bytes maxLines lines i

def tailRange (bytes : List UInt8) (limits : OutputLimits) : Nat × Nat :=
  if limits.maxLines = 0 ∨ limits.maxBytes = 0 then (bytes.length, bytes.length)
  else
    -- A trailing newline ends the last line rather than starting another.
    let below := if bytes.getLast? = some NEWLINE then bytes.length - 1 else bytes.length
    let start := tailLines bytes limits.maxLines 1 below
    if limits.maxBytes < bytes.length - start then
      let from_ := bytes.length - limits.maxBytes
      match indexOf bytes (from_ - 1) with
      | none => (characterStart bytes from_, bytes.length)
      | some newline =>
        if newline + 1 < bytes.length then (newline + 1, bytes.length)
        else (characterStart bytes from_, bytes.length)
    else (start, bytes.length)

/-- Bound `t` to whole lines within the limits. -/
def boundOutput (t : Text) (limits : OutputLimits) : OutputSlice :=
  let bytes := encode t
  let range := match limits.retain with
    | .head => headRange bytes limits
    | .tail => tailRange bytes limits
  let kept := (bytes.take range.2).drop range.1
  { text := if kept.length = bytes.length then t else decode kept
    bytes := kept.length
    droppedBytes := bytes.length - kept.length
    droppedLines := lineCount bytes - lineCount kept }

/-! ### The buffer -/

/-- UTF-8 byte length of `content`; a lone surrogate counts as U+FFFD, three bytes. -/
def utf8ByteLength : Text → Nat
  | [] => 0
  | [code] => if code ≤ 0x7F then 1 else if code ≤ 0x7FF then 2 else 3
  | code :: next :: rest =>
    if code ≤ 0x7F then 1 + utf8ByteLength (next :: rest)
    else if code ≤ 0x7FF then 2 + utf8ByteLength (next :: rest)
    else if isLead code && isTrail next then 4 + utf8ByteLength rest
    else 3 + utf8ByteLength (next :: rest)

def countNewlines (content : Text) : Nat := content.count 0x0A

/-- `text.endsWith("\n")`. -/
def endsWithNewline (t : Text) : Bool := t.getLast? == some 0x0A

/-- Lines of text with `newlines` newlines; a final unterminated line counts. -/
def lines (newlines : Nat) (terminated : Bool) : Nat := newlines + if terminated then 0 else 1

/-- A stored chunk. -/
structure StoredChunk where
  text : Text
  bytes : Nat
  newlines : Nat

/-- A chunk of a stream. -/
inductive Chunk
  | string (t : Text)
  | bytes (bs : List UInt8)

structure OutputBuffer where
  limits : OutputLimits
  decoder : Utf8.Decoder := {}
  started : Bool := false
  chunks : List StoredChunk := []
  storedBytes : Nat := 0
  storedNewlines : Nat := 0
  full : Bool := false
  totalBytes : Nat := 0
  totalNewlines : Nat := 0
  endsWithNewline : Bool := true

/-- The loop at the end of `#accept`: leading chunks go while the rest holds more than a window. -/
def dropLeading (limits : OutputLimits) :
    List StoredChunk → Nat → Nat → List StoredChunk × Nat × Nat
  | first :: second :: rest, storedBytes, storedNewlines =>
    if storedBytes - first.bytes ≤ limits.maxBytes + 1 ∧
        storedNewlines - first.newlines ≤ limits.maxLines + 1 then
      (first :: second :: rest, storedBytes, storedNewlines)
    else
      dropLeading limits (second :: rest) (storedBytes - first.bytes)
        (storedNewlines - first.newlines)
  | chunks, storedBytes, storedNewlines => (chunks, storedBytes, storedNewlines)

/-- The loop of `tailMargin`: the newlines below an index, last first, until there are more than
`maxLines`. -/
def marginLines (bytes : List UInt8) (maxLines : Nat) : Nat → Nat → Nat
  | _, 0 => 0
  | newlines, i + 1 =>
    if bytes[i]? = some NEWLINE then
      if maxLines < newlines + 1 then i else marginLines bytes maxLines (newlines + 1) i
    else marginLines bytes maxLines newlines i

/-- The shortest suffix of `t` with more than `maxBytes` bytes or more than `maxLines` newlines, or
all of it. -/
def tailMargin (t : Text) (limits : OutputLimits) : Text :=
  let bytes := encode t
  let byteStart :=
    if limits.maxBytes < bytes.length then characterEnd bytes (bytes.length - limits.maxBytes - 1)
    else 0
  let lineStart := marginLines bytes limits.maxLines 0 bytes.length
  let start := max byteStart lineStart
  if start = 0 then t else decode (bytes.drop start)

namespace OutputBuffer

def accept (b : OutputBuffer) (t : Text) : Bool × OutputBuffer :=
  if t.length = 0 then (false, b)
  else
    let bytes := utf8ByteLength t
    let newlines := countNewlines t
    let counted := { b with
      totalBytes := b.totalBytes + bytes
      totalNewlines := b.totalNewlines + newlines
      endsWithNewline := Output.endsWithNewline t }
    if b.full then (true, counted)
    else
      let chunks := b.chunks ++ [{ text := t, bytes := bytes, newlines := newlines }]
      let storedBytes := b.storedBytes + bytes
      let storedNewlines := b.storedNewlines + newlines
      match b.limits.retain with
      | .head =>
        (true, { counted with
          chunks := chunks
          storedBytes := storedBytes
          storedNewlines := storedNewlines
          -- Nothing past a full window is ever needed.
          full := b.limits.maxBytes < storedBytes || b.limits.maxLines ≤ storedNewlines })
      | .tail =>
        let kept := dropLeading b.limits chunks storedBytes storedNewlines
        (true, { counted with
          chunks := kept.1
          storedBytes := kept.2.1
          storedNewlines := kept.2.2 })

/-- `#skip`: nothing stored before omitted output can be in the window once the text after it
arrives. -/
def skip (b : OutputBuffer) (skipped : OutputSkip) : OutputBuffer :=
  if skipped.bytes = 0 then b
  else { b with
    totalBytes := b.totalBytes + skipped.bytes
    totalNewlines := b.totalNewlines + skipped.newlines
    endsWithNewline := skipped.endsWithNewline
    chunks := []
    storedBytes := 0
    storedNewlines := 0 }

/-- The first lines of `push`: the text of an incomplete character that ends here, the text of the
chunk, and the buffer with the decoder after both. -/
def incoming (b : OutputBuffer) (chunk : Chunk) (skipping : Bool) : Text × Text × OutputBuffer :=
  match chunk with
  | .string t =>
    let pending := Utf8.units b.decoder.flush
    (pending, t, { b with
      decoder := {}
      started := b.started || !pending.isEmpty || !t.isEmpty || skipping })
  | .bytes bs =>
    -- Bytes of an incomplete character from an earlier byte chunk come first.
    let pending := if skipping then Utf8.units b.decoder.flush else []
    let read := (if skipping then {} else b.decoder).feed bs
    let t := Utf8.units read.2
    let first := !b.started && pending.isEmpty && !skipping
    (pending, if first && t.head? == some 0xFEFF then t.tail else t, { b with
      decoder := read.1
      started := b.started || !pending.isEmpty || !t.isEmpty || skipping })

def push (b : OutputBuffer) (chunk : Chunk) (skipped : Option OutputSkip) :
    Except Text Bool × OutputBuffer :=
  let (pending, t, b) := b.incoming chunk skipped.isSome
  match skipped with
  | none => (b.accept (pending ++ t)).map .ok id
  | some skipped =>
    match b.limits.retain with
    | .head => (.error (text "Skipped output requires tail retention"), b)
    | .tail => (.ok true, (((b.accept pending).2.skip skipped).accept t).2)

/-- `end`: an incomplete trailing character becomes a replacement character. -/
def end_ (b : OutputBuffer) : OutputBuffer :=
  ({ b with decoder := {} }.accept (Utf8.units b.decoder.flush)).2

/-- The stored text. -/
def stored (b : OutputBuffer) : Text := (b.chunks.map (·.text)).flatten

/-- What a snapshot leaves stored. -/
def compact (b : OutputBuffer) : OutputBuffer :=
  match b.limits.retain with
  | .tail =>
    let t := tailMargin b.stored b.limits
    { b with
      chunks := if t.isEmpty then []
        else [{ text := t, bytes := utf8ByteLength t, newlines := countNewlines t }]
      storedBytes := utf8ByteLength t
      storedNewlines := if t.isEmpty then 0 else countNewlines t }
  | .head =>
    if 1 < b.chunks.length then
      let t := b.stored
      { b with
        chunks := if t.isEmpty then []
          else [{ text := t, bytes := b.storedBytes, newlines := countNewlines t }]
        storedNewlines := if t.isEmpty then 0 else countNewlines t }
    else b

/-- Retained, sanitized output and what the limits dropped from the whole stream. -/
def snapshot (b : OutputBuffer) : BoundedOutput × OutputBuffer :=
  let kept := boundOutput b.stored b.limits
  let storedLines := lines b.storedNewlines (b.stored.isEmpty || Output.endsWithNewline b.stored)
  let keptLines := storedLines - kept.droppedLines
  ({ text := sanitizeOutput kept.text
     droppedBytes := b.totalBytes - kept.bytes
     droppedLines := lines b.totalNewlines b.endsWithNewline - keptLines },
    b.compact)

end OutputBuffer

end TianGong.Output

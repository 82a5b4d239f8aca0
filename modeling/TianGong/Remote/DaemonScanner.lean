/-
**The daemon's line scanner.**

`scan.rs` of tg-env, with its decoders as parameters. A chunk is gone through from newline to
newline, and what lies between is fed to the decoders of the ranges that are open.

* `scan_eq`: however the file is cut into chunks, the answer is that of `scanLines`.
-/

import TianGong.Remote.LineScan

namespace TianGong.Remote.Daemon

open List
open Output (NEWLINE)
open Utf8 (StreamDecoder Range Measures encodeChars sizeOfChars)

structure LineScanner (d : StreamDecoder) extends LineRange where
  position : Nat := 0
  newlines : Nat := 0
  lineStart : Nat := 0
  start : Option Nat := none
  end_ : Option Nat := none
  firstLineEnd : Option Nat := none
  lastLineStart : Option Nat := none
  selectedBytes : Nat := 0
  firstLineBytes : Nat := 0
  selection : Option d.State := none
  firstLine : Option d.State := none
  head : Option (List UInt8) := some []
  bom : Bool := false

variable {d : StreamDecoder}

/-- `decode_into` of a decoder that may be gone, with the size of its text. -/
def decodeInto (decoder : Option d.State) (bytes : List UInt8) : Option d.State × Nat :=
  match decoder with
  | some decoder =>
    (some (d.decode decoder bytes).1, (encodeChars (d.decode decoder bytes).2).length)
  | none => (none, 0)

/-- The size of what a decoder gives out at its end. -/
def lastBytes (decoder : Option d.State) : Nat :=
  match decoder with
  | some decoder => (encodeChars (d.finish decoder)).length
  | none => 0

namespace LineScanner

def isLastLine (scanner : LineScanner d) (line : Nat) : Bool :=
  scanner.endLine.any fun last => line + 1 == last

def begin (scanner : LineScanner d) (start : Nat) : LineScanner d :=
  { scanner with
    start := some start
    lastLineStart :=
      if scanner.isLastLine scanner.startLine then some start else scanner.lastLineStart
    selection := some d.start
    firstLine := some d.start }

def new (lines : LineRange) : LineScanner d :=
  let scanner : LineScanner d := { lines with }
  if lines.startLine = 0 then scanner.begin 0 else scanner

def endFirstLine (scanner : LineScanner d) (position : Nat) : LineScanner d :=
  { scanner with
    firstLineEnd := some position
    firstLineBytes := scanner.firstLineBytes + lastBytes scanner.firstLine
    firstLine := none }

def endSelection (scanner : LineScanner d) (position : Nat) : LineScanner d :=
  { scanner with
    end_ := some position
    selectedBytes := scanner.selectedBytes + lastBytes scanner.selection
    selection := none }

def feed (scanner : LineScanner d) (chunk : List UInt8) (base from_ to_ : Nat) : LineScanner d :=
  -- Decoding the whole file drops a leading byte-order mark.
  let from_ := if scanner.bom && base + from_ < 3 then min to_ (3 - base) else from_
  if to_ ≤ from_ then scanner
  else
    let bytes := (chunk.take to_).drop from_
    { scanner with
      selection := (decodeInto scanner.selection bytes).1
      selectedBytes := scanner.selectedBytes + (decodeInto scanner.selection bytes).2
      firstLine := (decodeInto scanner.firstLine bytes).1
      firstLineBytes := scanner.firstLineBytes + (decodeInto scanner.firstLine bytes).2 }

/-- What a newline ends: line `newlines`, before the newline. -/
def closeLine (scanner : LineScanner d) (position : Nat) : LineScanner d :=
  let line := scanner.newlines
  let scanner := if line = scanner.startLine then scanner.endFirstLine position else scanner
  if scanner.isLastLine line then scanner.endSelection position else scanner

/-- What begins behind a newline. -/
def openLine (scanner : LineScanner d) (position : Nat) : LineScanner d :=
  let scanner := { scanner with newlines := scanner.newlines + 1, lineStart := position + 1 }
  let scanner := if scanner.newlines = scanner.startLine then scanner.begin scanner.lineStart
    else scanner
  if scanner.isLastLine scanner.newlines then
    { scanner with lastLineStart := some scanner.lineStart }
  else scanner

/-- A newline of a chunk, from the byte behind the one before. It belongs to the selection between
selected lines only. -/
def newline (scanner : LineScanner d) (chunk : List UInt8) (base from_ newline : Nat) :
    LineScanner d :=
  ((((scanner.feed chunk base from_ newline).closeLine (base + newline)).feed chunk base newline
    (newline + 1)).openLine (base + newline))

/-- The loop of `process`, with the byte behind the last newline. -/
def newlinesOf (chunk : List UInt8) (base : Nat) : Nat → Nat → LineScanner d → LineScanner d × Nat
  | 0, index, scanner => (scanner, index)
  | fuel + 1, index, scanner =>
    match (chunk.drop index).findIdx? fun byte => byte = NEWLINE with
    | none => (scanner, index)
    | some found =>
      newlinesOf chunk base fuel (index + found + 1)
        (scanner.newline chunk base index (index + found))

def process (scanner : LineScanner d) (chunk : List UInt8) : LineScanner d :=
  let base := scanner.position
  let rest := newlinesOf chunk base chunk.length 0 scanner
  let scanner := rest.1.feed chunk base rest.2 chunk.length
  { scanner with position := scanner.position + chunk.length }

def releaseHead (scanner : LineScanner d) : LineScanner d :=
  let head := scanner.head.getD []
  process { scanner with head := none, bom := startsWithBom head } head

def push (scanner : LineScanner d) (chunk : List UInt8) : LineScanner d :=
  match scanner.head with
  | some head =>
    let take := min (3 - head.length) chunk.length
    let head := head ++ chunk.take take
    if head.length < 3 then { scanner with head := some head }
    else (releaseHead { scanner with head := some head }).process (chunk.drop take)
  | none => scanner.process chunk

def finish (scanner : LineScanner d) : LineScan :=
  let scanner := if scanner.head.isSome then scanner.releaseHead else scanner
  let size := scanner.position
  match scanner.start with
  | none => ⟨scanner.newlines, size, size, size, size, 0, 0⟩
  | some start =>
    let scanner := if scanner.firstLineEnd.isNone then scanner.endFirstLine size else scanner
    let scanner := if scanner.end_.isNone then scanner.endSelection size else scanner
    { newlines := scanner.newlines
      start := start
      end_ := scanner.end_.getD size
      firstLineEnd := scanner.firstLineEnd.getD size
      lastLineStart := scanner.lastLineStart.getD scanner.lineStart
      selectedBytes := scanner.selectedBytes
      firstLineBytes := scanner.firstLineBytes }

end LineScanner

/-- A file that is pushed chunk by chunk. -/
def scan (d : StreamDecoder) (lines : LineRange) (chunks : List (List UInt8)) : LineScan :=
  (chunks.foldl LineScanner.push (LineScanner.new (d := d) lines)).finish

/-! ### A scanner and a scan -/

/-- **What a scanner knows is what a scan knows.** -/
structure Agrees (lines : LineRange) (bom : Bool) (scanner : LineScanner d) (scan : Scan) :
    Prop where
  range : scanner.toLineRange = lines
  bom : scanner.bom = bom
  newlines : scanner.newlines = scan.newlines
  lineStart : scanner.lineStart = scan.lineStart
  start : scanner.start = scan.start
  end_ : scanner.end_ = scan.end_
  firstLineEnd : scanner.firstLineEnd = scan.firstLineEnd
  lastLineStart : scanner.lastLineStart = scan.lastLineStart
  selection : Measures d scanner.selection scanner.selectedBytes scan.selection
  firstLine : Measures d scanner.firstLine scanner.firstLineBytes scan.firstLine
  sound : scan.Sound lines

theorem decodeInto_measures {decoder : Option d.State} {count : Nat} {range : Range}
    (measures : Measures d decoder count range) (bytes : List UInt8) :
    Measures d (decodeInto decoder bytes).1 (count + (decodeInto decoder bytes).2)
      (range.feed bytes) := by
  have fed := measures.decode bytes
  rcases decoder with _ | decoder
  · exact fed
  · exact fed

theorem lastBytes_measures {decoder : Option d.State} {count : Nat} {range : Range}
    (measures : Measures d decoder count range) :
    Measures d none (count + lastBytes decoder) range.finish := by
  have ended := measures.finish
  rcases decoder with _ | decoder
  · exact ended
  · exact ended

section Agrees

variable {lines : LineRange} {bom : Bool} {scanner : LineScanner d} {scan : Scan}

section Agrees

variable (agrees : Agrees lines bom scanner scan)
include agrees

theorem Agrees.isLastLine (line : Nat) :
    scanner.isLastLine line = lines.isLast line := by
  rw [← agrees.range]
  unfold LineScanner.isLastLine LineRange.isLast
  rcases scanner.endLine with _ | last
  · rfl
  · simp [eq_comm]

theorem Agrees.endFirstLine (behind : ¬scan.newlines < lines.startLine) (position : Nat) :
    Agrees lines bom (scanner.endFirstLine position) (scan.endFirstLine position) :=
  { agrees with
    firstLineEnd := rfl
    firstLine := lastBytes_measures agrees.firstLine
    sound := agrees.sound.endFirstLine behind position }

theorem Agrees.endSelection (behind : ¬scan.newlines < lines.startLine) (position : Nat) :
    Agrees lines bom (scanner.endSelection position) (scan.endSelection position) :=
  { agrees with
    end_ := rfl
    selection := lastBytes_measures agrees.selection
    sound := agrees.sound.endSelection behind position }

/-- **A part of a chunk is fed** as its bytes are, at their position in the file. -/
theorem Agrees.feed (chunk : List UInt8) {base from_ : Nat} (to_ : Nat)
    (here : scan.position = base + from_) :
    Agrees lines bom (scanner.feed chunk base from_ to_)
      (scan.feed bom ((chunk.take to_).drop from_)) := by
  have sound : (scan.feed bom ((chunk.take to_).drop from_)).Sound lines := agrees.sound.feed _
  -- What is left of the bytes without a byte-order mark.
  obtain ⟨first, cut, kept⟩ : ∃ first,
      (if scanner.bom && base + from_ < 3 then min to_ (3 - base) else from_) = first ∧
      (if bom then ((chunk.take to_).drop from_).drop (3 - scan.position)
        else (chunk.take to_).drop from_) = (chunk.take to_).drop first := by
    refine ⟨_, rfl, ?_⟩
    rw [agrees.bom, here]
    rcases bom with _ | _
    · rfl
    · by_cases marked : base + from_ < 3
      · simp only [if_true, Bool.true_and, marked, decide_true, drop_drop]
        rcases Nat.le_total to_ (3 - base) with all | some_
        · rw [Nat.min_eq_left all, drop_eq_nil_of_le, drop_eq_nil_of_le] <;>
            rw [length_take] <;> omega
        · rw [Nat.min_eq_right some_]
          congr 1
          omega
      · have none : 3 - (base + from_) = 0 := by omega
        simp [marked, none]
  unfold LineScanner.feed
  simp only [cut]
  have ranges : (scan.feed bom ((chunk.take to_).drop from_)).selection =
      scan.selection.feed ((chunk.take to_).drop first) ∧
      (scan.feed bom ((chunk.take to_).drop from_)).firstLine =
        scan.firstLine.feed ((chunk.take to_).drop first) := by
    simp only [Scan.feed, kept, and_self]
  split_ifs with empty
  · have none : (chunk.take to_).drop first = [] :=
      drop_eq_nil_of_le (Nat.le_trans (length_take_le _ _) empty)
    rw [none] at ranges
    simp only [Range.feed_nil] at ranges
    exact { agrees with
      selection := ranges.1 ▸ agrees.selection
      firstLine := ranges.2 ▸ agrees.firstLine
      sound := sound }
  · exact { agrees with
      selection := ranges.1 ▸ decodeInto_measures agrees.selection _
      firstLine := ranges.2 ▸ decodeInto_measures agrees.firstLine _
      sound := sound }

theorem Agrees.startLine :
    scanner.startLine = lines.startLine := by rw [agrees.range]

theorem Agrees.closeLine :
    Agrees lines bom (scanner.closeLine scan.position) (scan.closeLine lines) := by
  unfold LineScanner.closeLine Scan.closeLine
  dsimp only
  rw [agrees.newlines, agrees.startLine]
  by_cases first : scan.newlines = lines.startLine
  · have behind : ¬scan.newlines < lines.startLine := Nat.not_lt.mpr (Nat.le_of_eq first.symm)
    have ended := agrees.endFirstLine behind scan.position
    simp only [if_pos first]
    rw [ended.isLastLine, show (scan.endFirstLine scan.position).newlines = scan.newlines from rfl]
    split_ifs
    · exact ended.endSelection behind _
    · exact ended
  · simp only [if_neg first]
    rw [agrees.isLastLine]
    split_ifs with last
    · exact agrees.endSelection (Scan.not_before_of_isLast last) _
    · exact agrees

theorem Agrees.begin (selection : scan.selection = .unbegun) (firstLine : scan.firstLine = .unbegun)
    (start : Nat) (sound : (scan.begin lines start).Sound lines) :
    Agrees lines bom (scanner.begin start) (scan.begin lines start) := by
  have fresh := agrees.selection
  have freshLine := agrees.firstLine
  rw [selection] at fresh
  rw [firstLine] at freshLine
  refine { agrees with
    start := rfl
    lastLineStart := ?_
    selection := fresh.begin
    firstLine := freshLine.begin
    sound := sound }
  simp only [LineScanner.begin, Scan.begin, agrees.startLine, agrees.isLastLine,
    agrees.lastLineStart]

theorem Agrees.lastLine (lastLineStart : Option Nat) :
    Agrees lines bom { scanner with lastLineStart } { scan with lastLineStart } :=
  { agrees with
    lastLineStart := rfl
    sound := agrees.sound.lastLineStart lastLineStart }

theorem Agrees.openLine {position : Nat} (here : scan.position = position + 1) :
    Agrees lines bom (scanner.openLine position) (scan.openLine lines) := by
  have counted : Agrees lines bom
      { scanner with newlines := scan.newlines + 1, lineStart := scan.position }
      { scan with newlines := scan.newlines + 1, lineStart := scan.position } :=
    { agrees with
      newlines := rfl
      lineStart := rfl
      sound := agrees.sound.counted _ }
  unfold LineScanner.openLine Scan.openLine
  dsimp only
  rw [agrees.startLine, agrees.newlines, ← here]
  by_cases first : scan.newlines + 1 = lines.startLine
  · have before : scan.newlines < lines.startLine := Nat.lt_of_succ_le (Nat.le_of_eq first)
    obtain ⟨selection, firstLine, -⟩ := agrees.sound.waits before
    have begun := counted.begin selection firstLine scan.position
      (agrees.sound.begin before (Nat.not_lt.mpr (Nat.le_of_eq first.symm)))
    simp only [if_pos first]
    rw [begun.isLastLine, begun.newlines]
    split_ifs with last
    · exact begun.lastLine _
    · exact begun
  · simp only [if_neg first]
    rw [counted.isLastLine]
    split_ifs with last
    · exact counted.lastLine _
    · exact counted

/-- **A newline** is a newline of the file. -/
theorem Agrees.newline {chunk : List UInt8} {base from_ newline : Nat}
    (here : scan.position = base + from_) (later : from_ ≤ newline)
    (found : chunk[newline]? = some NEWLINE) :
    Agrees lines bom (scanner.newline chunk base from_ newline)
      ((scan.feed bom ((chunk.take newline).drop from_)).byte lines bom NEWLINE) := by
  obtain ⟨inside, isNewline⟩ := List.getElem?_eq_some_iff.mp found
  have one : (chunk.take (newline + 1)).drop newline = [NEWLINE] := by
    rw [drop_take, Nat.add_sub_cancel_left, drop_eq_getElem_cons inside, isNewline]
    rfl
  have position : (scan.feed bom ((chunk.take newline).drop from_)).position = base + newline := by
    simp only [Scan.feed, length_drop, length_take, here]
    omega
  have closed := (agrees.feed chunk newline here).closeLine
  rw [position] at closed
  have fed := closed.feed chunk (newline + 1) (Scan.position_closeLine.trans position)
  rw [one] at fed
  rw [Scan.byte_newline]
  exact fed.openLine (congrArg (· + 1) (Scan.position_closeLine.trans position))

end Agrees

/-- **The newlines of a chunk**, and what is behind the last one. -/
theorem Agrees.newlinesOf (chunk : List UInt8) (base : Nat) : ∀ (fuel index : Nat)
    {scanner : LineScanner d} {scan : Scan}, Agrees lines bom scanner scan →
      scan.position = base + index → index ≤ chunk.length → chunk.length ≤ index + fuel →
      Agrees lines bom
        ((LineScanner.newlinesOf chunk base fuel index scanner).1.feed chunk base
          (LineScanner.newlinesOf chunk base fuel index scanner).2 chunk.length)
        ((chunk.drop index).foldl (Scan.byte lines bom) scan) := by
  intro fuel
  induction fuel with
  | zero =>
    intro index scanner scan agrees here inside enough
    have fed := agrees.feed chunk chunk.length here
    rw [take_length] at fed
    have all : chunk.drop index = [] := drop_eq_nil_of_le enough
    rw [all] at fed ⊢
    rw [Scan.feed_nil] at fed
    exact fed
  | succ fuel ih =>
    intro index scanner scan agrees here inside enough
    unfold LineScanner.newlinesOf
    cases search : (chunk.drop index).findIdx? fun byte => byte = NEWLINE with
    | none =>
      have plain : NEWLINE ∉ chunk.drop index := by
        intro member
        have other := List.findIdx?_eq_none_iff.mp search NEWLINE member
        simp at other
      have fed := agrees.feed chunk chunk.length here
      rw [take_length] at fed
      rw [Scan.foldl_byte_plain plain]
      exact fed
    | some found =>
      obtain ⟨within, has, others⟩ := List.findIdx?_eq_some_iff_getElem.mp search
      rw [length_drop] at within
      have newline : chunk[index + found]? = some NEWLINE := by
        rw [List.getElem?_eq_getElem (by omega), ← of_decide_eq_true has, getElem_drop]
      have plain : NEWLINE ∉ (chunk.take (index + found)).drop index := by
        intro member
        obtain ⟨place, bound, same⟩ := getElem_of_mem member
        rw [length_drop, length_take] at bound
        refine others place (by omega) ?_
        rw [getElem_drop, getElem_take] at same
        rw [getElem_drop, same]
        exact decide_eq_true rfl
      have split : chunk.drop index =
          (chunk.take (index + found)).drop index ++ NEWLINE :: chunk.drop (index + found + 1) := by
        obtain ⟨bound, isNewline⟩ := List.getElem?_eq_some_iff.mp newline
        conv_lhs => rw [← take_append_drop (index + found) chunk]
        rw [drop_append_of_le_length (by rw [length_take]; omega),
          drop_eq_getElem_cons bound, isNewline]
      have behind : (Scan.byte lines bom (scan.feed bom ((chunk.take (index + found)).drop index))
          NEWLINE).position = base + (index + found + 1) := by
        rw [Scan.position_byte]
        simp only [Scan.feed, length_drop, length_take, here]
        omega
      rw [split, foldl_append, foldl_cons, Scan.foldl_byte_plain plain]
      exact ih _ (agrees.newline here (Nat.le_add_right _ _) newline) behind (by omega) (by omega)

/-- **A chunk is read.** -/
theorem Agrees.process (agrees : Agrees lines bom scanner scan)
    (here : scan.position = scanner.position)
    (chunk : List UInt8) :
    Agrees lines bom (scanner.process chunk) (chunk.foldl (Scan.byte lines bom) scan) :=
  { agrees.newlinesOf chunk scanner.position chunk.length 0 here (Nat.zero_le _) (by omega) with }

end Agrees

/-! ### The file -/

section File

variable {lines : LineRange} {scanner : LineScanner d}

/-- What the newlines of a chunk leave alone. -/
def Still (scanner scanner' : LineScanner d) : Prop :=
  scanner'.position = scanner.position ∧ scanner'.head = scanner.head

theorem still_feed (scanner : LineScanner d) (chunk : List UInt8) (base from_ to_ : Nat) :
    Still scanner (scanner.feed chunk base from_ to_) := by
  unfold LineScanner.feed
  dsimp only
  split_ifs <;> exact ⟨rfl, rfl⟩

theorem still_closeLine (position : Nat) : Still scanner (scanner.closeLine position) := by
  unfold LineScanner.closeLine
  dsimp only
  split_ifs <;> exact ⟨rfl, rfl⟩

theorem still_openLine (position : Nat) : Still scanner (scanner.openLine position) := by
  unfold LineScanner.openLine
  dsimp only
  split_ifs <;> exact ⟨rfl, rfl⟩

theorem Still.trans {a b c : LineScanner d} (first : Still a b) (then_ : Still b c) : Still a c :=
  ⟨then_.1.trans first.1, then_.2.trans first.2⟩

theorem still_newlinesOf (chunk : List UInt8) (base fuel index : Nat) :
    Still scanner (LineScanner.newlinesOf chunk base fuel index scanner).1 := by
  induction fuel generalizing index scanner with
  | zero => exact ⟨rfl, rfl⟩
  | succ fuel ih =>
    unfold LineScanner.newlinesOf
    split
    · exact ⟨rfl, rfl⟩
    · refine Still.trans ?_ (ih _)
      exact (((still_feed _ _ _ _ _).trans (still_closeLine _)).trans (still_feed _ _ _ _ _)).trans
        (still_openLine _)

theorem process_frame (scanner : LineScanner d) (chunk : List UInt8) :
    (scanner.process chunk).position = scanner.position + chunk.length ∧
      (scanner.process chunk).head = scanner.head := by
  obtain ⟨position, head⟩ := (still_newlinesOf chunk scanner.position chunk.length 0).trans
    (still_feed _ chunk scanner.position
      (LineScanner.newlinesOf chunk scanner.position chunk.length 0 scanner).2 chunk.length)
  exact ⟨congrArg (· + chunk.length) position, head⟩

theorem agrees_new (lines : LineRange) (bom : Bool) :
    Agrees lines bom { LineScanner.new (d := d) lines with head := none, bom }
      (Scan.initial lines) := by
  have sound : (Scan.initial lines).Sound lines := Scan.sound_initial
  have plain : Agrees lines bom { ({ lines with } : LineScanner d) with head := none, bom } {} :=
    ⟨rfl, rfl, rfl, rfl, rfl, rfl, rfl, rfl, .unbegun, .unbegun,
      ⟨fun _ => ⟨rfl, rfl, rfl, rfl, rfl⟩, by simp, by simp⟩⟩
  unfold LineScanner.new
  unfold Scan.initial at sound ⊢
  dsimp only
  split_ifs with first
  · rw [if_pos first] at sound
    exact { plain.begin rfl rfl 0 sound with }
  · exact plain

/-- What a scanner has of a file: its first bytes are held until there are three of them. -/
inductive Has (lines : LineRange) : LineScanner d → List UInt8 → Prop
  | waits (head : List UInt8) (short : head.length < 3) :
      Has lines { LineScanner.new lines with head := some head } head
  | reads (scanner : LineScanner d) (bytes : List UInt8) (past : 3 ≤ bytes.length)
      (released : scanner.head = none) (here : scanner.position = bytes.length)
      (agrees : Agrees lines (startsWithBom bytes) scanner
        (Scan.read lines (startsWithBom bytes) bytes)) : Has lines scanner bytes

theorem has_new (lines : LineRange) : Has (d := d) lines (LineScanner.new lines) [] := by
  have head : LineScanner.new (d := d) lines = { LineScanner.new lines with head := some [] } := by
    unfold LineScanner.new
    dsimp only
    split_ifs <;> rfl
  rw [head]
  exact .waits [] (by decide)

/-- The first bytes are released. -/
theorem agrees_releaseHead (head : List UInt8) :
    Agrees lines (startsWithBom head)
      (LineScanner.releaseHead { LineScanner.new (d := d) lines with head := some head })
      (Scan.read lines (startsWithBom head) head) := by
  have start : (Scan.initial lines).position = (LineScanner.new (d := d) lines).position := by
    unfold LineScanner.new Scan.initial
    dsimp only
    split_ifs <;> rfl
  exact (agrees_new lines (startsWithBom head)).process start head

/-- The answer, where both ranges have their ends. -/
theorem Agrees.answer {bom : Bool} {scan : Scan} (agrees : Agrees lines bom scanner scan)
    (start size : Nat) (firstLine : scan.firstLineEnd.isSome = true)
    (selection : scan.end_.isSome = true) :
    (⟨scanner.newlines, start, scanner.end_.getD size, scanner.firstLineEnd.getD size,
      scanner.lastLineStart.getD scanner.lineStart, scanner.selectedBytes, scanner.firstLineBytes⟩ :
        LineScan) =
      ⟨scan.newlines, start, scan.end_.getD size, scan.firstLineEnd.getD size,
        scan.lastLineStart.getD scan.lineStart, scan.selection.size, scan.firstLine.size⟩ := by
  rw [agrees.newlines, agrees.end_, agrees.firstLineEnd, agrees.lastLineStart, agrees.lineStart,
    agrees.selection.size_eq (agrees.sound.selection selection),
    agrees.firstLine.size_eq (agrees.sound.firstLine firstLine)]

/-- The bytes that are still held at the end. -/
theorem finish_held (held : scanner.head.isSome = true) :
    scanner.finish = scanner.releaseHead.finish := by
  have released : scanner.releaseHead.head = none := (process_frame _ _).2
  unfold LineScanner.finish
  simp only [held, released, if_true, Option.isSome_none, Bool.false_eq_true, if_false]

theorem position_initial (lines : LineRange) : (Scan.initial lines).position = 0 := by
  unfold Scan.initial
  split_ifs <;> rfl

theorem position_new (lines : LineRange) : (LineScanner.new (d := d) lines).position = 0 := by
  unfold LineScanner.new
  dsimp only
  split_ifs <;> rfl

/-- **A scanner that has read some bytes reads more.** -/
theorem Has.process {bytes : List UInt8} (past : 3 ≤ bytes.length) (released : scanner.head = none)
    (here : scanner.position = bytes.length)
    (agrees : Agrees lines (startsWithBom bytes) scanner
      (Scan.read lines (startsWithBom bytes) bytes))
    (chunk : List UInt8) : Has lines (scanner.process chunk) (bytes ++ chunk) := by
  have start : (Scan.read lines (startsWithBom bytes) bytes).position = scanner.position := by
    rw [Scan.read, Scan.position_foldl, position_initial, here, Nat.zero_add]
  obtain ⟨position, head⟩ := process_frame scanner chunk
  refine .reads _ _ (by rw [length_append]; omega) (head.trans released) ?_ ?_
  · rw [position, here, length_append]
  · rw [startsWithBom_append past, Scan.read, foldl_append]
    exact agrees.process start chunk

/-- **A chunk that is pushed** is read behind what was. -/
theorem Has.push {bytes : List UInt8} (has : Has lines scanner bytes) (chunk : List UInt8) :
    Has lines (scanner.push chunk) (bytes ++ chunk) := by
  rcases has with ⟨_, short⟩ | ⟨_, _, past, released, here, agrees⟩
  · unfold LineScanner.push
    dsimp only
    split_ifs with still
    · -- Three bytes are not there yet.
      have all : chunk.take (min (3 - bytes.length) chunk.length) = chunk := by
        rw [length_append, length_take] at still
        exact take_of_length_le (by omega)
      rw [all] at still ⊢
      exact .waits _ still
    · rw [Nat.not_lt] at still
      have frame := process_frame { LineScanner.new (d := d) lines with
        head := none
        bom := startsWithBom (bytes ++ chunk.take (min (3 - bytes.length) chunk.length)) }
        (bytes ++ chunk.take (min (3 - bytes.length) chunk.length))
      have rest := Has.process still frame.2 (frame.1.trans (by rw [position_new, Nat.zero_add]))
        (agrees_releaseHead _) (chunk.drop (min (3 - bytes.length) chunk.length))
      rw [append_assoc, take_append_drop] at rest
      exact rest
  · unfold LineScanner.push
    rw [released]
    exact Has.process past released here agrees chunk

/-- **The answers are the same** where the scanner knows what the scan knows. -/
theorem Agrees.finish {bom : Bool} {scan : Scan} (agrees : Agrees lines bom scanner scan)
    (released : scanner.head = none) (here : scanner.position = scan.position) :
    scanner.finish = scan.finish := by
  unfold LineScanner.finish Scan.finish
  simp only [released, Option.isSome_none, Bool.false_eq_true, if_false, agrees.start, here,
    agrees.newlines]
  cases begun : scan.start with
  | none => rfl
  | some start =>
    have behind : ¬scan.newlines < lines.startLine := by
      intro before
      have none := (agrees.sound.waits before).2.2.2.2
      rw [begun] at none
      cases none
    have first : Agrees lines bom
        (if scanner.firstLineEnd.isNone then scanner.endFirstLine scan.position else scanner)
        (if scan.firstLineEnd.isNone then scan.endFirstLine scan.position else scan) := by
      rw [agrees.firstLineEnd]
      split_ifs
      · exact agrees.endFirstLine behind _
      · exact agrees
    have ends : (if scan.firstLineEnd.isNone then scan.endFirstLine scan.position
        else scan).firstLineEnd.isSome = true := by
      split_ifs with none
      · rfl
      · exact Option.isSome_iff_ne_none.mpr (mt Option.isNone_iff_eq_none.mpr none)
    have still : ¬(if scan.firstLineEnd.isNone then scan.endFirstLine scan.position
        else scan).newlines < lines.startLine := by
      split_ifs
      · exact behind
      · exact behind
    dsimp only
    generalize (if scanner.firstLineEnd.isNone then scanner.endFirstLine scan.position
      else scanner) = scanner₁ at first ⊢
    generalize (if scan.firstLineEnd.isNone then scan.endFirstLine scan.position
      else scan) = scan₁ at first ends still ⊢
    rw [first.end_]
    split_ifs with open_
    · have last := first.endSelection still scan.position
      exact last.answer start _ ends rfl
    · exact first.answer start _ ends
        (Option.isSome_iff_ne_none.mpr (mt Option.isNone_iff_eq_none.mpr open_))

/-- **However the file is cut**, the answer is that of its lines. -/
theorem scan_eq (lines : LineRange) (chunks : List (List UInt8)) :
    scan d lines chunks = scanLines lines chunks.flatten := by
  have has : Has lines (chunks.foldl LineScanner.push (LineScanner.new (d := d) lines))
    chunks.flatten := by
    induction chunks using List.reverseRecOn with
    | nil => exact has_new lines
    | append_singleton chunks chunk ih =>
      rw [foldl_concat, flatten_concat]
      exact ih.push chunk
  have position (bytes : List UInt8) : (Scan.read lines (startsWithBom bytes) bytes).position =
      bytes.length := by
    rw [Scan.read, Scan.position_foldl, position_initial, Nat.zero_add]
  unfold scan scanLines
  generalize chunks.foldl LineScanner.push (LineScanner.new (d := d) lines) = scanner at has ⊢
  rcases has with ⟨_, short⟩ | ⟨_, _, past, released, here, agrees⟩
  · obtain ⟨at_, head⟩ := process_frame { LineScanner.new (d := d) lines with
        head := none
        bom := startsWithBom chunks.flatten } chunks.flatten
    rw [position_new, Nat.zero_add] at at_
    exact (finish_held rfl).trans
      ((agrees_releaseHead chunks.flatten).finish head (at_.trans (position _).symm))
  · exact agrees.finish released (here.trans (position _).symm)

end File

end TianGong.Remote.Daemon

/-
**Scanning the lines of a file.**

What a scan of lines is for: where the selected lines are, and how many bytes they decode to. `Scan`
reads a file byte by byte and holds what the ranges have of it; it has no decoder and no chunks.

* `Scan.foldl_byte_plain`, `Scan.byte_newline`: a run of bytes without a newline, and a newline.
-/

import TianGong.Lib.StreamDecoder
import TianGong.Output.Buffer

namespace TianGong.Remote

open Output (NEWLINE)
open Utf8 (Range)

/-- Lines from one up to another, or to the end. -/
structure LineRange where
  startLine : Nat
  endLine : Option Nat
  ordered : ∀ line, endLine = some line → startLine < line

structure LineScan where
  newlines : Nat
  start : Nat
  end_ : Nat
  firstLineEnd : Nat
  lastLineStart : Nat
  selectedBytes : Nat
  firstLineBytes : Nat
  deriving DecidableEq

/-- The line is the last one selected. -/
def LineRange.isLast (lines : LineRange) (line : Nat) : Bool := lines.endLine == some (line + 1)

def startsWithBom (bytes : List UInt8) : Bool := [0xEF, 0xBB, 0xBF].isPrefixOf bytes

theorem startsWithBom_append {bytes : List UInt8} (long : 3 ≤ bytes.length) (more : List UInt8) :
    startsWithBom (bytes ++ more) = startsWithBom bytes := by
  rcases bytes with _ | ⟨a, _ | ⟨b, _ | ⟨c, rest⟩⟩⟩
  · exact absurd long (by decide)
  · exact absurd long (by simp)
  · exact absurd long (by simp)
  · rfl

/-- What a scan knows after some bytes. -/
structure Scan where
  position : Nat := 0
  newlines : Nat := 0
  lineStart : Nat := 0
  start : Option Nat := none
  end_ : Option Nat := none
  firstLineEnd : Option Nat := none
  lastLineStart : Option Nat := none
  selection : Range := .unbegun
  firstLine : Range := .unbegun

namespace Scan

variable (lines : LineRange) (bom : Bool)

/-- The selection begins here. -/
def begin (scan : Scan) (start : Nat) : Scan :=
  { scan with
    start := some start
    lastLineStart := if lines.isLast lines.startLine then some start else scan.lastLineStart
    selection := .open_ []
    firstLine := .open_ [] }

def endFirstLine (scan : Scan) (position : Nat) : Scan :=
  { scan with firstLineEnd := some position, firstLine := scan.firstLine.finish }

def endSelection (scan : Scan) (position : Nat) : Scan :=
  { scan with end_ := some position, selection := scan.selection.finish }

/-- Bytes of the ranges that are open. A byte-order mark is not part of the text. -/
def feed (scan : Scan) (bytes : List UInt8) : Scan :=
  let kept := if bom then bytes.drop (3 - scan.position) else bytes
  { scan with
    position := scan.position + bytes.length
    selection := scan.selection.feed kept
    firstLine := scan.firstLine.feed kept }

/-- The ranges that end before a newline. -/
def closeLine (scan : Scan) : Scan :=
  let scan := if scan.newlines = lines.startLine then scan.endFirstLine scan.position else scan
  if lines.isLast scan.newlines then scan.endSelection scan.position else scan

/-- What begins behind a newline. -/
def openLine (scan : Scan) : Scan :=
  let scan := { scan with newlines := scan.newlines + 1, lineStart := scan.position }
  let scan := if scan.newlines = lines.startLine then scan.begin lines scan.lineStart else scan
  if lines.isLast scan.newlines then { scan with lastLineStart := some scan.lineStart } else scan

/-- One byte of the file. -/
def byte (scan : Scan) (b : UInt8) : Scan :=
  if b = NEWLINE then ((scan.closeLine lines).feed bom [b]).openLine lines else scan.feed bom [b]

/-- Before the first byte. -/
def initial : Scan := if lines.startLine = 0 then ({} : Scan).begin lines 0 else {}

/-- The scan after some bytes. -/
def read (bytes : List UInt8) : Scan := bytes.foldl (byte lines bom) (initial lines)

/-- The answer, at the end of the file. -/
def finish (scan : Scan) : LineScan :=
  let size := scan.position
  match scan.start with
  | none => ⟨scan.newlines, size, size, size, size, 0, 0⟩
  | some start =>
    let scan := if scan.firstLineEnd.isNone then scan.endFirstLine size else scan
    let scan := if scan.end_.isNone then scan.endSelection size else scan
    { newlines := scan.newlines
      start := start
      end_ := scan.end_.getD size
      firstLineEnd := scan.firstLineEnd.getD size
      -- A selection that reaches past the last line ends with the last line.
      lastLineStart := scan.lastLineStart.getD scan.lineStart
      selectedBytes := scan.selection.size
      firstLineBytes := scan.firstLine.size }

end Scan

/-- The lines of a file. -/
def scanLines (lines : LineRange) (file : List UInt8) : LineScan :=
  (Scan.read lines (startsWithBom file) file).finish

/-! ### Runs of bytes -/

variable (scan : Scan)

namespace Scan

variable {lines : LineRange} {bom : Bool}

@[simp] theorem feed_nil : scan.feed bom [] = scan := by
  simp [feed]

theorem feed_append (bytes more : List UInt8) :
    scan.feed bom (bytes ++ more) = (scan.feed bom bytes).feed bom more := by
  have kept : (bytes ++ more).drop (3 - scan.position) =
      bytes.drop (3 - scan.position) ++ more.drop (3 - (scan.position + bytes.length)) := by
    rw [List.drop_append]
    congr 2
    omega
  cases bom <;> simp [feed, kept, Range.feed_append, Nat.add_assoc]

/-- **Bytes without a newline** are fed. -/
theorem foldl_byte_plain {bytes : List UInt8} (plain : NEWLINE ∉ bytes) (scan : Scan) :
    bytes.foldl (byte lines bom) scan = scan.feed bom bytes := by
  induction bytes generalizing scan with
  | nil => exact (feed_nil scan).symm
  | cons b rest ih =>
    have other : b ≠ NEWLINE := fun same => plain (same ▸ List.mem_cons_self)
    rw [List.foldl_cons, ih fun member => plain (List.mem_cons_of_mem b member), byte, if_neg other,
      ← feed_append, List.singleton_append]

/-- **A newline** ends a line, is fed, and begins one. -/
theorem byte_newline : scan.byte lines bom NEWLINE =
    ((scan.closeLine lines).feed bom [NEWLINE]).openLine lines := if_pos rfl

/-- A range that is not open. -/
def Closed (range : Range) : Prop := ∀ bytes, range ≠ .open_ bytes

/-- **What a scan keeps**: before the selection nothing has begun, and where a range has its end, it
is over. -/
structure Sound (lines : LineRange) (scan : Scan) : Prop where
  waits : scan.newlines < lines.startLine → scan.selection = .unbegun ∧ scan.firstLine = .unbegun ∧
    scan.firstLineEnd = none ∧ scan.end_ = none ∧ scan.start = none
  firstLine : scan.firstLineEnd.isSome → Closed scan.firstLine
  selection : scan.end_.isSome → Closed scan.selection

theorem closed_finish (range : Range) : Closed range.finish := by
  intro bytes open_
  rcases range with _ | before | before <;> cases open_

theorem Closed.feed {range : Range} (closed : Closed range) (bytes : List UInt8) :
    Closed (range.feed bytes) := by
  rcases range with _ | before | before
  · exact closed
  · exact (closed before rfl).elim
  · exact closed

section Step

variable {scan : Scan}

theorem position_closeLine : (scan.closeLine lines).position = scan.position := by
  unfold closeLine
  dsimp only
  split_ifs <;> rfl

theorem position_openLine : (scan.openLine lines).position = scan.position := by
  unfold openLine
  dsimp only
  split_ifs <;> rfl

theorem position_byte (b : UInt8) : (scan.byte lines bom b).position = scan.position + 1 := by
  unfold byte
  split_ifs
  · exact position_openLine.trans (congrArg (· + 1) position_closeLine)
  · rfl

theorem position_foldl (bytes : List UInt8) :
    (bytes.foldl (byte lines bom) scan).position = scan.position + bytes.length := by
  induction bytes generalizing scan with
  | nil => rfl
  | cons b rest ih =>
    rw [List.foldl_cons, ih, position_byte, List.length_cons]
    omega

theorem Sound.feed (sound : Sound lines scan) (bytes : List UInt8) :
    Sound lines (scan.feed bom bytes) where
  waits := by
    intro before
    obtain ⟨selection, firstLine, rest⟩ := sound.waits before
    simp only [Scan.feed, selection, firstLine]
    exact ⟨rfl, rfl, rest⟩
  firstLine := fun ended => (sound.firstLine ended).feed _
  selection := fun ended => (sound.selection ended).feed _

theorem Sound.endFirstLine (sound : Sound lines scan) (behind : ¬scan.newlines < lines.startLine)
    (position : Nat) : Sound lines (scan.endFirstLine position) :=
  ⟨fun before => (behind before).elim, fun _ => closed_finish _, sound.selection⟩

theorem Sound.endSelection (sound : Sound lines scan) (behind : ¬scan.newlines < lines.startLine)
    (position : Nat) : Sound lines (scan.endSelection position) :=
  ⟨fun before => (behind before).elim, sound.firstLine, fun _ => closed_finish _⟩

/-- The last line is not before the first one. -/
theorem not_before_of_isLast {line : Nat} (last : lines.isLast line = true) :
    ¬line < lines.startLine := by
  have past := lines.ordered (line + 1) (by simpa [LineRange.isLast] using last)
  omega

theorem Sound.lastLineStart (sound : Sound lines scan) (lastLineStart : Option Nat) :
    Sound lines { scan with lastLineStart } :=
  ⟨sound.waits, sound.firstLine, sound.selection⟩

theorem Sound.counted (sound : Sound lines scan) (lineStart : Nat) :
    Sound lines { scan with newlines := scan.newlines + 1, lineStart } :=
  ⟨fun before => sound.waits (Nat.lt_of_succ_lt before), sound.firstLine, sound.selection⟩

/-- The selection begins where it has not begun. -/
theorem Sound.begin {newlines lineStart start : Nat} (sound : Sound lines scan)
    (before : scan.newlines < lines.startLine) (here : ¬newlines < lines.startLine) :
    Sound lines (Scan.begin lines { scan with newlines, lineStart } start) := by
  obtain ⟨-, -, noFirst, noEnd, -⟩ := sound.waits before
  refine ⟨fun less => (here less).elim, ?_, ?_⟩ <;> simp [Scan.begin, noFirst, noEnd]

end Step

theorem sound_initial : Sound lines (initial lines) := by
  unfold initial
  split_ifs with first
  · refine ⟨fun before => absurd before (by simp [begin, first]), ?_, ?_⟩ <;> simp [begin]
  · exact ⟨fun _ => ⟨rfl, rfl, rfl, rfl, rfl⟩, by simp, by simp⟩

end Scan

end TianGong.Remote

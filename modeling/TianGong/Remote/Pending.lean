/-
**The daemon's output window.**

`window.rs` of tg-env: undelivered command output is held by stream, and text that is followed by
more than the window is replaced by counts. A Rust string is the list of its UTF-8 bytes.

* `cutOf_spec`: a cut stands where a character starts, and what is left is more than the window.
-/

import Mathlib.Data.List.Chain
import Mathlib.Order.MinMax
import TianGong.Output.Bound

namespace TianGong.Remote

open Output (NEWLINE OutputSkip Exceeds)
open Utf8 (encodeChars isContinuation IsStart encodeChars_append)
open List

/-- The names of the streams. -/
inductive Stream where
  | stdout
  | stderr
  deriving DecidableEq

/-- A window. Its limits come from numbers of JavaScript: the largest below `2 ^ 64` is
`2 ^ 64 - 2048`, and what is larger is no `u64`. -/
structure Window where
  maxBytes : Nat
  maxLines : Nat
  maxBytes_lt : maxBytes + 1 < 2 ^ 64
  maxLines_lt : maxLines + 1 < 2 ^ 64

structure Skipped where
  bytes : Nat := 0
  newlines : Nat := 0
  endsWithNewline : Bool := false

/-- One output event: its stream, text, and the output omitted right before it. -/
structure WindowEvent where
  stream : Stream
  text : List UInt8
  skipped : Option OutputSkip

structure Pending where
  window : Window
  /-- Undelivered text in arrival order, by stream. -/
  segments : List (Stream × List UInt8) := []
  bytes : Nat := 0
  newlines : Nat := 0
  skipped : Option Skipped := none

def newlineCount (text : List UInt8) : Nat := text.count NEWLINE

/-- `is_char_boundary` -/
def isCharBoundary (text : List UInt8) (index : Nat) : Bool :=
  index == 0 || index == text.length || text[index]?.any fun byte => !isContinuation byte

/-- The loop that steps back to a character boundary. -/
def boundaryBefore (text : List UInt8) : Nat → Nat
  | 0 => 0
  | index + 1 =>
    if isCharBoundary text (index + 1) then index + 1 else boundaryBefore text index

/-- The indices of the newlines. -/
def newlinePositions : Nat → List UInt8 → List Nat
  | _, [] => []
  | index, byte :: rest =>
    if byte = NEWLINE then index :: newlinePositions (index + 1) rest
    else newlinePositions (index + 1) rest

/-- Text is appended to the last segment if that is of its stream. -/
def pushSegment {α : Type} (segments : List (Stream × List α)) (stream : Stream) (text : List α) :
    List (Stream × List α) :=
  match segments.getLast? with
  | some last =>
    if last.1 = stream then segments.dropLast ++ [(last.1, last.2 ++ text)]
    else segments ++ [(stream, text)]
  | none => segments ++ [(stream, text)]

/-- Whether the text after a cut still proves the cut text is outside the window. -/
def Window.proves (window : Window) (bytes newlines : Nat) : Bool :=
  window.maxBytes < bytes || window.maxLines < newlines

/-- The first loop of `trim`: the segments, their bytes and newlines, and what is removed. -/
def dropSegments (window : Window) :
    List (Stream × List UInt8) → Nat → Nat → List UInt8 →
      List (Stream × List UInt8) × Nat × Nat × List UInt8
  | first :: second :: rest, bytes, newlines, removed =>
    if window.proves (bytes - first.2.length) (newlines - newlineCount first.2) then
      dropSegments window (second :: rest) (bytes - first.2.length)
        (newlines - newlineCount first.2) (removed ++ first.2)
    else (first :: second :: rest, bytes, newlines, removed)
  | segments, bytes, newlines, removed => (segments, bytes, newlines, removed)

/-- By bytes: keep more than `max_bytes` overall. -/
def byteCut (window : Window) (first : List UInt8) (restBytes : Nat) : Nat :=
  let keepBytes := window.maxBytes + 1 - restBytes
  if keepBytes < first.length then boundaryBefore first (first.length - keepBytes) else 0

/-- The prefix of the first segment that is cut. -/
def cutOf (window : Window) (first : List UInt8) (restBytes restNewlines : Nat) : Nat :=
  let cut := byteCut window first restBytes
  -- By lines: keep more than `max_lines` newlines overall, starting at a newline of this segment.
  let keepNewlines := window.maxLines + 1 - restNewlines
  if 0 < keepNewlines then
    let positions := newlinePositions 0 first
    if keepNewlines ≤ positions.length then
      max cut (positions.getD (positions.length - keepNewlines) 0)
    else cut
  else first.length

/-- The counts of removed text, after what was skipped. -/
def Skipped.add (skipped : Skipped) (removed : List UInt8) : Skipped where
  bytes := skipped.bytes + removed.length
  newlines := skipped.newlines + newlineCount removed
  endsWithNewline := removed.getLast? == some NEWLINE

namespace Pending

/-- Replace the longest prefix whose remainder still proves exclusion by counts. -/
def trim (pending : Pending) : Pending :=
  let (segments, bytes, newlines, removed) :=
    dropSegments pending.window pending.segments pending.bytes pending.newlines []
  match segments with
  -- never: `push` trims right after it has added text
  | [] => pending
  | (stream, first) :: rest =>
    let cut := cutOf pending.window first (bytes - first.length) (newlines - newlineCount first)
    let cutText := first.take cut
    let left := first.drop cut
    let removed := removed ++ cutText
    { pending with
      segments := if left = [] then rest else (stream, left) :: rest
      bytes := bytes - cutText.length
      newlines := newlines - newlineCount cutText
      skipped :=
        if removed = [] then pending.skipped
        else some ((pending.skipped.getD {}).add removed) }

/-- `push`. The products wrap around in a release build. -/
def push (pending : Pending) (stream : Stream) (text : List UInt8) : Pending :=
  if text = [] then pending
  else
    let pushed := { pending with
      segments := pushSegment pending.segments stream text
      bytes := pending.bytes + text.length
      newlines := pending.newlines + newlineCount text }
    if 4 * (pending.window.maxBytes + 1) % 2 ^ 64 < pushed.bytes ∨
        4 * (pending.window.maxLines + 1) % 2 ^ 64 < pushed.newlines then
      pushed.trim
    else pushed

/-- Deliver everything held: one event carrying the skip and all text after it, or one event per
segment. -/
def take (pending : Pending) : List WindowEvent × Pending :=
  let empty := { pending with segments := [], bytes := 0, newlines := 0, skipped := none }
  match pending.skipped with
  | some skipped =>
    let stream := (pending.segments.getLast?.map Prod.fst).getD .stdout
    ([{ stream := stream
        text := (pending.segments.map Prod.snd).flatten
        skipped := some
          { bytes := skipped.bytes
            newlines := skipped.newlines
            endsWithNewline := skipped.endsWithNewline } }], empty)
  | none => (pending.segments.map fun segment => ⟨segment.1, segment.2, none⟩, empty)

end Pending

/-! ### Cuts -/

theorem isStart_of_boundary {text : List UInt8} {index : Nat} (positive : 0 < index)
    (boundary : isCharBoundary text index = true) : IsStart text index := by
  intro byte found
  unfold isCharBoundary at boundary
  rw [Option.mem_def] at found
  rw [found, Bool.or_eq_true, Bool.or_eq_true] at boundary
  rcases boundary with (zero | outside) | first
  · exact absurd (beq_iff_eq.mp zero) positive.ne'
  · rw [beq_iff_eq.mp outside, List.getElem?_eq_none le_rfl] at found
    cases found
  · simpa using first

variable (window : Window) (cs : List Char)

theorem boundaryBefore_spec (index : Nat) :
    boundaryBefore (encodeChars cs) index ≤ index ∧
      IsStart (encodeChars cs) (boundaryBefore (encodeChars cs) index) := by
  induction index with
  | zero => exact ⟨le_rfl, Utf8.isStart_zero cs⟩
  | succ index ih =>
    rw [boundaryBefore]
    split_ifs with boundary
    · exact ⟨le_rfl, isStart_of_boundary (Nat.succ_pos _) boundary⟩
    · exact ⟨ih.1.trans (Nat.le_succ _), ih.2⟩

theorem length_newlinePositions (index : Nat) (text : List UInt8) :
    (newlinePositions index text).length = newlineCount text := by
  induction text generalizing index with
  | nil => rfl
  | cons byte rest ih =>
    rw [newlinePositions, newlineCount, count_cons, ← newlineCount, ← ih (index + 1)]
    by_cases newline : byte = NEWLINE
    · rw [if_pos newline, if_pos (beq_iff_eq.mpr newline), length_cons]
    · rw [if_neg newline, if_neg fun equal => newline (beq_iff_eq.mp equal), add_zero]

/-- What starts at a newline holds it and those after it. -/
theorem getD_newlinePositions {index k : Nat} {text : List UInt8}
    (inside : k < (newlinePositions index text).length) :
    ∃ p, (newlinePositions index text).getD k 0 = index + p ∧ text[p]? = some NEWLINE ∧
      newlineCount (text.drop p) + k = (newlinePositions index text).length := by
  induction text generalizing index k with
  | nil => exact absurd inside (Nat.not_lt_zero _)
  | cons byte rest ih =>
    rw [newlinePositions] at inside ⊢
    by_cases newline : byte = NEWLINE
    · rw [if_pos newline] at inside ⊢
      cases k with
      | zero =>
        refine ⟨0, rfl, congrArg some newline, ?_⟩
        rw [drop_zero, newlineCount, newline, count_cons_self, ← newlineCount,
          length_cons, length_newlinePositions]
      | succ k =>
        obtain ⟨p, position, found, count⟩ := ih (Nat.lt_of_succ_lt_succ inside)
        refine ⟨p + 1, ?_, found, ?_⟩
        · rw [getD_cons_succ, position]
          omega
        · rw [drop_succ_cons, length_cons]
          omega
    · rw [if_neg newline] at inside ⊢
      obtain ⟨p, position, found, count⟩ := ih inside
      refine ⟨p + 1, ?_, found, count⟩
      rw [position]
      omega

/-- What a cut of a first segment does: it stands where a character starts, and if it takes
anything then what is left is more than the window. -/
structure Cuts (window : Window) (first : List UInt8) (restBytes restNewlines cut : Nat) :
    Prop where
  start : IsStart first cut
  proves : cut = 0 ∨
    window.proves ((first.drop cut).length + restBytes)
      (newlineCount (first.drop cut) + restNewlines)

theorem proves_iff {window : Window} {bytes newlines : Nat} :
    window.proves bytes newlines = true ↔ window.maxBytes < bytes ∨ window.maxLines < newlines := by
  rw [Window.proves, Bool.or_eq_true, decide_eq_true_iff, decide_eq_true_iff]

theorem byteCut_spec (restBytes restNewlines : Nat) :
    Cuts window (encodeChars cs) restBytes restNewlines
      (byteCut window (encodeChars cs) restBytes) := by
  dsimp only [byteCut]
  split_ifs with longer
  · have spec := boundaryBefore_spec cs
      ((encodeChars cs).length - (window.maxBytes + 1 - restBytes))
    refine ⟨spec.2, .inr (proves_iff.mpr (.inl ?_))⟩
    rw [length_drop]
    have := spec.1
    omega
  · exact ⟨Utf8.isStart_zero cs, .inl rfl⟩

/-- **Every cut of `trim` is one.** -/
theorem cutOf_spec (restBytes restNewlines : Nat) :
    Cuts window (encodeChars cs) restBytes restNewlines
      (cutOf window (encodeChars cs) restBytes restNewlines) := by
  have bytes := byteCut_spec window cs restBytes restNewlines
  dsimp only [cutOf]
  split_ifs with some enough
  · obtain ⟨p, position, newline, count⟩ := getD_newlinePositions
      (show (newlinePositions 0 (encodeChars cs)).length - (window.maxLines + 1 - restNewlines) <
        (newlinePositions 0 (encodeChars cs)).length by omega)
    rw [position, zero_add]
    rcases max_choice (byteCut window (encodeChars cs) restBytes) p with left | right
    · rwa [left]
    · rw [right]
      refine ⟨fun byte found => ?_, .inr (proves_iff.mpr (.inr ?_))⟩
      · rw [Option.mem_def, newline, Option.some.injEq] at found
        rw [← found]
        decide
      · omega
  · exact bytes
  · refine ⟨fun byte found => ?_, .inr (proves_iff.mpr (.inr ?_))⟩
    · rw [List.getElem?_eq_none le_rfl] at found
      cases found
    · omega

/-! ### What is held -/

/-- The bytes of segments of characters. -/
def encoded (held : List (Stream × List Char)) : List (Stream × List UInt8) :=
  held.map fun segment => (segment.1, encodeChars segment.2)

/-- Every character with its stream. -/
def tagged {α : Type} (segments : List (Stream × List α)) : List (Stream × α) :=
  segments.flatMap fun segment => segment.2.map fun x => (segment.1, x)

/-- The characters of segments. -/
def chars (held : List (Stream × List Char)) : List Char := (tagged held).map Prod.snd

variable {α : Type} (held : List (Stream × List Char)) (stream : Stream)

theorem tagged_append (a b : List (Stream × List α)) : tagged (a ++ b) = tagged a ++ tagged b :=
  flatMap_append

theorem tagged_cons (text : List α) (rest : List (Stream × List α)) :
    tagged ((stream, text) :: rest) = text.map (fun x => (stream, x)) ++ tagged rest :=
  rfl

theorem map_snd_tag (text : List α) : (text.map fun x => (stream, x)).map Prod.snd = text := by
  rw [map_map]
  exact map_id text

theorem chars_cons (text : List Char) (rest : List (Stream × List Char)) :
    chars ((stream, text) :: rest) = text ++ chars rest := by
  rw [chars, tagged_cons, map_append, map_snd_tag, chars]

theorem newlineCount_append (a b : List UInt8) :
    newlineCount (a ++ b) = newlineCount a + newlineCount b :=
  count_append

theorem flatten_encoded : ((encoded held).map Prod.snd).flatten = encodeChars (chars held) := by
  induction held with
  | nil => rfl
  | cons segment rest ih =>
    obtain ⟨stream, text⟩ := segment
    rw [chars_cons, encodeChars_append, ← ih]
    rfl

/-- The first loop of `trim` takes whole segments, and only what is followed by more than the
window. -/
theorem dropSegments_spec (some : held ≠ []) (removed : List UInt8) :
    ∃ gone left, held = gone ++ left ∧ left ≠ [] ∧
      dropSegments window (encoded held) (encodeChars (chars held)).length
          (newlineCount (encodeChars (chars held))) removed =
        (encoded left, (encodeChars (chars left)).length,
          newlineCount (encodeChars (chars left)), removed ++ encodeChars (chars gone)) ∧
      (gone = [] ∨ window.proves (encodeChars (chars left)).length
        (newlineCount (encodeChars (chars left)))) := by
  induction held generalizing removed with
  | nil => exact absurd rfl some
  | cons first rest ih =>
    have stays : ∃ gone left, first :: rest = gone ++ left ∧ left ≠ [] ∧
        (encoded (first :: rest), (encodeChars (chars (first :: rest))).length,
            newlineCount (encodeChars (chars (first :: rest))), removed) =
          (encoded left, (encodeChars (chars left)).length,
            newlineCount (encodeChars (chars left)), removed ++ encodeChars (chars gone)) ∧
        (gone = [] ∨ window.proves (encodeChars (chars left)).length
          (newlineCount (encodeChars (chars left)))) :=
      ⟨[], first :: rest, rfl, cons_ne_nil _ _,
        by rw [show encodeChars (chars []) = [] from rfl, append_nil], .inl rfl⟩
    cases rest with
    | nil => exact stays
    | cons second rest =>
      rw [show encoded (first :: second :: rest) =
        (first.1, encodeChars first.2) :: (second.1, encodeChars second.2) :: encoded rest from rfl,
        dropSegments]
      split_ifs with long
      · have bytes : (encodeChars (chars (first :: second :: rest))).length -
            (encodeChars first.2).length = (encodeChars (chars (second :: rest))).length := by
          rw [chars_cons, encodeChars_append, length_append, Nat.add_sub_cancel_left]
        have newlines : newlineCount (encodeChars (chars (first :: second :: rest))) -
            newlineCount (encodeChars first.2) =
              newlineCount (encodeChars (chars (second :: rest))) := by
          rw [chars_cons, encodeChars_append, newlineCount_append, Nat.add_sub_cancel_left]
        rw [bytes, newlines] at long ⊢
        obtain ⟨gone, left, parts, nonempty, result, proves⟩ :=
          ih (cons_ne_nil _ _) (removed ++ encodeChars first.2)
        refine ⟨first :: gone, left, by rw [parts, cons_append], nonempty, ?_, .inr ?_⟩
        · refine result.trans ?_
          rw [chars_cons, encodeChars_append, append_assoc]
        · rcases proves with none | proves
          · rw [none, nil_append] at parts
            rwa [← parts]
          · exact proves
      · exact stays

/-- What was removed, as it is counted. -/
def Measures (skipped : Option Skipped) (removed : List Char) : Prop :=
  skipped = if removed = [] then none else some (Skipped.add {} (encodeChars removed))

theorem encodeChars_eq_nil {cs : List Char} : encodeChars cs = [] ↔ cs = [] := by
  rw [← Utf8.encode_units, Utf8.encode_eq_nil]
  refine ⟨fun none => ?_, fun none => by rw [none]; rfl⟩
  rw [← Utf8.scalars_units cs, none]
  rfl

theorem Measures.add {skipped : Option Skipped} {removed : List Char}
    (measures : Measures skipped removed) (more : List Char) :
    Measures (if encodeChars more = [] then skipped
      else some ((skipped.getD {}).add (encodeChars more))) (removed ++ more) := by
  unfold Measures at measures ⊢
  by_cases none : more = []
  · rw [if_pos (encodeChars_eq_nil.mpr none), none, append_nil, measures]
  · rw [if_neg (mt encodeChars_eq_nil.mp none), measures,
      if_neg fun both => none (List.append_eq_nil_iff.mp both).2]
    by_cases first : removed = []
    · rw [if_pos first, first]
      rfl
    · rw [if_neg first, Option.getD_some, encodeChars_append]
      unfold Skipped.add
      rw [length_append, newlineCount_append,
        List.getLast?_append_of_ne_nil _ (mt encodeChars_eq_nil.mp none)]
      simp only [Nat.add_assoc]

/-- **What a window holds** of the characters `told` since it was last emptied: the first of them
are gone, and the others are held by stream. -/
structure Holds (pending : Pending) (told gone : List (Stream × Char))
    (held : List (Stream × List Char)) : Prop where
  segments : pending.segments = encoded held
  bytes : pending.bytes = (encodeChars (chars held)).length
  newlines : pending.newlines = newlineCount (encodeChars (chars held))
  told_eq : told = gone ++ tagged held
  skipped : Measures pending.skipped (gone.map Prod.snd)
  proves : gone = [] ∨ pending.window.proves (encodeChars (chars held)).length
    (newlineCount (encodeChars (chars held)))
  texts : ∀ segment ∈ held, segment.2 ≠ []
  apart : held.IsChain fun a b => a.1 ≠ b.1

theorem Holds.new : Holds { window := window } [] [] [] :=
  ⟨rfl, rfl, rfl, rfl, rfl, .inl rfl, fun segment member => (by cases member), .nil⟩

/-- A cut leaves characters on both sides. -/
theorem split_encodeChars {cs : List Char} {cut : Nat} (start : IsStart (encodeChars cs) cut) :
    ∃ es ds, cs = es ++ ds ∧ (encodeChars cs).take cut = encodeChars es ∧
      (encodeChars cs).drop cut = encodeChars ds := by
  obtain ⟨es, ds, rfl, rest⟩ := Utf8.drop_encodeChars start
  refine ⟨es, ds, rfl, ?_, rest⟩
  have whole := take_append_drop cut (encodeChars (es ++ ds))
  rw [rest, encodeChars_append] at whole
  rw [encodeChars_append]
  exact append_cancel_right whole

/-- What is left of a first segment stays in front of the others, unless it is empty. -/
theorem drained {stream : Stream} {es ds : List Char} {rest : List (Stream × List Char)}
    (texts : ∀ segment ∈ rest, segment.2 ≠ [])
    (apart : ((stream, es ++ ds) :: rest).IsChain fun a b => a.1 ≠ b.1) :
    ∃ held : List (Stream × List Char),
      (if encodeChars ds = [] then encoded rest else (stream, encodeChars ds) :: encoded rest) =
        encoded held ∧
      tagged held = ds.map (fun x => (stream, x)) ++ tagged rest ∧
      (∀ segment ∈ held, segment.2 ≠ []) ∧ held.IsChain fun a b => a.1 ≠ b.1 := by
  by_cases none : ds = []
  · rw [if_pos (encodeChars_eq_nil.mpr none), none]
    exact ⟨rest, rfl, rfl, texts, apart.tail⟩
  · rw [if_neg (mt encodeChars_eq_nil.mp none)]
    refine ⟨(stream, ds) :: rest, rfl, rfl, ?_, ?_⟩
    · rintro segment (_ | ⟨_, member⟩)
      · exact none
      · exact texts segment member
    · rw [isChain_cons] at apart ⊢
      exact apart

/-- Trimming keeps what a window holds. -/
theorem Holds.trim {pending : Pending} {told gone : List (Stream × Char)}
    {held : List (Stream × List Char)} (holds : Holds pending told gone held) (some : held ≠ []) :
    ∃ gone' held', Holds pending.trim told gone' held' := by
  obtain ⟨dropped, left, parts, nonempty, result, proves⟩ :=
    dropSegments_spec pending.window held some []
  rw [nil_append] at result
  cases left with
  | nil => exact absurd rfl nonempty
  | cons segment rest =>
    obtain ⟨stream, cs⟩ := segment
    have restBytes : (encodeChars (chars ((stream, cs) :: rest))).length - (encodeChars cs).length =
        (encodeChars (chars rest)).length := by
      rw [chars_cons, encodeChars_append, length_append, Nat.add_sub_cancel_left]
    have restNewlines : newlineCount (encodeChars (chars ((stream, cs) :: rest))) -
        newlineCount (encodeChars cs) = newlineCount (encodeChars (chars rest)) := by
      rw [chars_cons, encodeChars_append, newlineCount_append, Nat.add_sub_cancel_left]
    have cuts := cutOf_spec pending.window cs (encodeChars (chars rest)).length
      (newlineCount (encodeChars (chars rest)))
    unfold Pending.trim
    rw [holds.segments, holds.bytes, holds.newlines, result]
    rw [show encoded ((stream, cs) :: rest) = (stream, encodeChars cs) :: encoded rest from rfl]
    dsimp only
    rw [restBytes, restNewlines]
    generalize cutOf pending.window (encodeChars cs) (encodeChars (chars rest)).length
      (newlineCount (encodeChars (chars rest))) = cut at cuts ⊢
    obtain ⟨es, ds, rfl, taken, kept⟩ := split_encodeChars cuts.start
    have drops := cuts.proves
    rw [kept] at drops
    rw [taken, kept]
    obtain ⟨held', segments, tags, texts, apart⟩ :=
      drained (fun segment member => holds.texts segment
        (parts ▸ mem_append_right _ (mem_cons_of_mem _ member)))
        (parts ▸ holds.apart).right_of_append
    have held'_chars : chars held' = ds ++ chars rest := by
      rw [chars, tags, map_append, map_snd_tag, chars]
    have left_chars : chars ((stream, es ++ ds) :: rest) = es ++ chars held' := by
      rw [chars_cons, held'_chars, append_assoc]
    refine ⟨gone ++ tagged dropped ++ es.map fun x => (stream, x), held', ?_⟩
    constructor
    · exact segments
    · rw [left_chars, encodeChars_append, length_append, Nat.add_sub_cancel_left]
    · rw [left_chars, encodeChars_append, newlineCount_append, Nat.add_sub_cancel_left]
    · rw [holds.told_eq, parts, tagged_append, tagged_cons, tags, map_append]
      simp only [append_assoc]
    · rw [← encodeChars_append, map_append, map_append, map_snd_tag, append_assoc]
      exact holds.skipped.add _
    · rcases drops with zero | drops
      · rw [zero, take_zero] at taken
        have none : es = [] := encodeChars_eq_nil.mp taken.symm
        have same : chars ((stream, es ++ ds) :: rest) = chars held' :=
          left_chars.trans (by rw [none, nil_append])
        rw [same] at proves
        rcases proves with kept | proves
        · rw [kept, nil_append] at parts
          have before := holds.proves
          rw [parts, same] at before
          rw [kept, none]
          exact before.imp_left fun gone => by rw [gone]; rfl
        · exact .inr proves
      · rw [held'_chars, encodeChars_append, length_append, newlineCount_append]
        exact .inr drops
    · exact texts
    · exact apart

/-! ### Pushes -/

theorem pushSegment_concat (before : List (Stream × List α)) (last : Stream × List α)
    (stream : Stream) (text : List α) :
    pushSegment (before ++ [last]) stream text =
      if last.1 = stream then before ++ [(last.1, last.2 ++ text)]
      else before ++ [last] ++ [(stream, text)] := by
  unfold pushSegment
  rw [List.getLast?_concat, dropLast_concat]

theorem pushSegment_encoded (text : List Char) :
    pushSegment (encoded held) stream (encodeChars text) =
      encoded (pushSegment held stream text) := by
  rcases eq_nil_or_concat' held with rfl | ⟨before, last, rfl⟩
  · rfl
  · rw [show encoded (before ++ [last]) =
      encoded before ++ [(last.1, encodeChars last.2)] from map_append,
      pushSegment_concat, pushSegment_concat]
    split_ifs
    · rw [encoded, encoded, map_append, ← encodeChars_append]
      rfl
    · simp [encoded]

theorem tagged_pushSegment (held : List (Stream × List α)) (stream : Stream) (text : List α) :
    tagged (pushSegment held stream text) = tagged held ++ text.map fun x => (stream, x) := by
  rcases eq_nil_or_concat' held with rfl | ⟨before, last, rfl⟩
  · exact append_nil _
  · obtain ⟨name, held⟩ := last
    rw [pushSegment_concat]
    split_ifs with same
    · subst same
      simp [tagged]
    · simp [tagged]

/-- A push keeps neighbours of different streams, and adds no empty text. -/
theorem apart_pushSegment {held : List (Stream × List Char)} {stream : Stream} {text : List Char}
    (texts : ∀ segment ∈ held, segment.2 ≠ []) (apart : held.IsChain fun a b => a.1 ≠ b.1)
    (some : text ≠ []) :
    (∀ segment ∈ pushSegment held stream text, segment.2 ≠ []) ∧
      (pushSegment held stream text).IsChain fun a b => a.1 ≠ b.1 := by
  rcases eq_nil_or_concat' held with rfl | ⟨before, last, rfl⟩
  · refine ⟨fun segment member => ?_, isChain_singleton _⟩
    rw [List.mem_singleton.mp member]
    exact some
  · rw [pushSegment_concat]
    split_ifs with same
    · refine ⟨fun segment member => ?_, ?_⟩
      · rcases List.mem_append.mp member with earlier | final
        · exact texts segment (mem_append_left _ earlier)
        · rw [List.mem_singleton.mp final]
          exact fun both => some (List.append_eq_nil_iff.mp both).2
      · rw [isChain_append] at apart ⊢
        exact ⟨apart.1, isChain_singleton _, fun a member b final =>
          by
            cases final
            exact apart.2.2 a member last rfl⟩
    · refine ⟨fun segment member => ?_, ?_⟩
      · rcases List.mem_append.mp member with earlier | final
        · exact texts segment earlier
        · rw [List.mem_singleton.mp final]
          exact some
      · refine apart.append (isChain_singleton _) fun a member b final => ?_
        rw [List.getLast?_concat] at member
        cases member
        cases final
        exact same

theorem proves_mono {window : Window} {bytes newlines bytes' newlines' : Nat}
    (proves : window.proves bytes newlines = true) (more : bytes ≤ bytes')
    (lines : newlines ≤ newlines') : window.proves bytes' newlines' = true :=
  proves_iff.mpr ((proves_iff.mp proves).imp (fun long => long.trans_le more)
    fun long => long.trans_le lines)

theorem window_trim (pending : Pending) : pending.trim.window = pending.window := by
  unfold Pending.trim
  split
  split <;> rfl

theorem window_push (pending : Pending) (stream : Stream) (text : List UInt8) :
    (pending.push stream text).window = pending.window := by
  unfold Pending.push
  dsimp only
  split_ifs
  · rfl
  · exact window_trim _
  · rfl

/-- **A push keeps what a window holds**, whether it trims or not. -/
theorem Holds.push {pending : Pending} {told gone : List (Stream × Char)}
    {held : List (Stream × List Char)} (holds : Holds pending told gone held) (stream : Stream)
    (text : List Char) :
    ∃ gone' held', Holds (pending.push stream (encodeChars text))
      (told ++ text.map fun x => (stream, x)) gone' held' := by
  unfold Pending.push
  by_cases none : text = []
  · rw [if_pos (encodeChars_eq_nil.mpr none), none, map_nil, append_nil]
    exact ⟨gone, held, holds⟩
  rw [if_neg (mt encodeChars_eq_nil.mp none)]
  have chars_push : chars (pushSegment held stream text) = chars held ++ text := by
    rw [chars, tagged_pushSegment, map_append, map_snd_tag, chars]
  have bytes : (encodeChars (chars (pushSegment held stream text))).length =
      (encodeChars (chars held)).length + (encodeChars text).length := by
    rw [chars_push, encodeChars_append, length_append]
  have newlines : newlineCount (encodeChars (chars (pushSegment held stream text))) =
      newlineCount (encodeChars (chars held)) + newlineCount (encodeChars text) := by
    rw [chars_push, encodeChars_append, newlineCount_append]
  have parts := @apart_pushSegment held stream text holds.texts holds.apart none
  have pushed : Holds
      { pending with
        segments := pushSegment pending.segments stream (encodeChars text)
        bytes := pending.bytes + (encodeChars text).length
        newlines := pending.newlines + newlineCount (encodeChars text) }
      (told ++ text.map fun x => (stream, x)) gone (pushSegment held stream text) := by
    constructor
    · rw [← pushSegment_encoded, ← holds.segments]
    · rw [bytes, ← holds.bytes]
    · rw [newlines, ← holds.newlines]
    · rw [tagged_pushSegment, holds.told_eq, append_assoc]
    · exact holds.skipped
    · refine holds.proves.imp_right fun proves => ?_
      rw [bytes, newlines]
      exact proves_mono proves (Nat.le_add_right _ _) (Nat.le_add_right _ _)
    · exact parts.1
    · exact parts.2
  dsimp only
  split_ifs
  · refine pushed.trim fun empty => none ?_
    have all := congrArg chars empty
    rw [chars_push] at all
    exact (List.append_eq_nil_iff.mp all).2
  · exact ⟨gone, _, pushed⟩

end TianGong.Remote

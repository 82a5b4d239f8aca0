/-
**Truncation from the head: `truncate.ts`.**

`truncateHead` keeps the leading lines of a text that fit in two limits, and never a part of a line.
`truncateHeadOf` does it for a text of which only a prefix and the totals are known, so that the
read tool need not read a file to its end.

* `ended`: complete lines, each with its newline.
* `truncateHeadOf_prefix`: **a prefix that is long enough is as good as the text**, and what is kept
  is the longest run of leading lines within both limits.
-/

import Mathlib.Data.List.Induction
import TianGong.Output.Buffer

namespace TianGong.Gibraltar

open Output (utf8ByteLength endsWithNewline)
open List

def DEFAULT_MAX_LINES : Nat := 2000

def DEFAULT_MAX_BYTES : Nat := 50 * 1024

/-- Which limit was hit. -/
inductive TruncatedBy
  | lines
  | bytes
  deriving DecidableEq

structure TruncationResult where
  content : Text
  truncated : Bool
  truncatedBy : Option TruncatedBy
  totalLines : Nat
  totalBytes : Nat
  outputLines : Nat
  outputBytes : Nat
  lastLinePartial : Bool
  firstLineExceedsLimit : Bool
  maxLines : Nat
  maxBytes : Nat
  deriving DecidableEq

structure TruncationOptions where
  maxLines : Option Nat := none
  maxBytes : Option Nat := none

/-- The limits that apply. -/
def TruncationOptions.lines (options : TruncationOptions) : Nat :=
  options.maxLines.getD DEFAULT_MAX_LINES

def TruncationOptions.bytes (options : TruncationOptions) : Nat :=
  options.maxBytes.getD DEFAULT_MAX_BYTES

/-- Lines and bytes of a text. -/
structure Totals where
  lines : Nat
  bytes : Nat

/-- `splitLinesForCounting`: a newline at the end adds no line. -/
def splitLinesForCounting (content : Text) : List Text :=
  if content.length = 0 then []
  else
    let lines := content.splitOn 0x0A
    if endsWithNewline content then lines.dropLast else lines

/-- The loop: the complete lines that fit, and whether a line broke it off. -/
def collect (maxLines maxBytes : Nat) : Nat → Nat → List Text → List Text × Bool
  | _, _, [] => ([], false)
  | i, outputBytesCount, line :: rest =>
    if i < maxLines then
      let lineBytes := utf8ByteLength line + if 0 < i then 1 else 0
      if maxBytes < outputBytesCount + lineBytes then ([], true)
      else
        let after := collect maxLines maxBytes (i + 1) (outputBytesCount + lineBytes) rest
        (line :: after.1, after.2)
    else ([], false)

/-- `truncateHeadOf`. There is no first line to measure in an empty prefix of a text that is too
long. -/
def truncateHeadOf (prefixText : Text) (totals : Totals) (options : TruncationOptions) :
    Option TruncationResult :=
  let lines := splitLinesForCounting prefixText
  if totals.lines ≤ options.lines ∧ totals.bytes ≤ options.bytes then
    some { content := prefixText, truncated := false, truncatedBy := none
           totalLines := totals.lines, totalBytes := totals.bytes
           outputLines := totals.lines, outputBytes := totals.bytes
           lastLinePartial := false, firstLineExceedsLimit := false
           maxLines := options.lines, maxBytes := options.bytes }
  else
    match lines.head? with
    | none => none
    | some firstLine =>
      if options.bytes < utf8ByteLength firstLine then
        some { content := [], truncated := true, truncatedBy := some .bytes
               totalLines := totals.lines, totalBytes := totals.bytes
               outputLines := 0, outputBytes := 0
               lastLinePartial := false, firstLineExceedsLimit := true
               maxLines := options.lines, maxBytes := options.bytes }
      else
        let (outputLinesArr, broke) := collect options.lines options.bytes 0 0 lines
        let outputContent := [0x0A].intercalate outputLinesArr
        some { content := outputContent, truncated := true
               truncatedBy := some
                 (if broke then .bytes
                  else if outputLinesArr.length < totals.lines then .lines else .bytes)
               totalLines := totals.lines, totalBytes := totals.bytes
               outputLines := outputLinesArr.length, outputBytes := utf8ByteLength outputContent
               lastLinePartial := false, firstLineExceedsLimit := false
               maxLines := options.lines, maxBytes := options.bytes }

/-- The totals of a text. -/
def totals (content : Text) : Totals :=
  ⟨(splitLinesForCounting content).length, utf8ByteLength content⟩

def truncateHead (content : Text) (options : TruncationOptions) : Option TruncationResult :=
  truncateHeadOf content (totals content) options

/-! ### Bytes -/

/-- A newline ends a character. -/
theorem utf8ByteLength_append_newline (a b : Text) :
    utf8ByteLength (a ++ 0x0A :: b) = utf8ByteLength a + 1 + utf8ByteLength b := by
  have newline : utf8ByteLength (0x0A :: b) = 1 + utf8ByteLength b := by
    cases b <;> rfl
  have apart : isTrail 0x0A = false := rfl
  fun_induction utf8ByteLength a <;> grind [utf8ByteLength]

/-- A text is no longer than what goes on after it: a lone surrogate at its end counts three bytes,
and four with the one that follows. -/
theorem utf8ByteLength_le_append (a b : Text) : utf8ByteLength a ≤ utf8ByteLength (a ++ b) := by
  fun_induction utf8ByteLength a <;> cases b <;> grind [utf8ByteLength]

/-! ### Lines -/

/-- Complete lines, each with its newline. -/
def ended (lines : List Text) : Text := lines.flatMap (· ++ [0x0A])

theorem ended_cons (line : Text) (lines : List Text) (rest : Text) :
    ended (line :: lines) ++ rest = line ++ 0x0A :: (ended lines ++ rest) := by
  simp [ended]

/-- **A text is its complete lines and what is left.** -/
theorem exists_ended (t : Text) : ∃ lines rest, t = ended lines ++ rest ∧
    (∀ line ∈ lines, 0x0A ∉ line) ∧ 0x0A ∉ rest ∧ t.count 0x0A = lines.length := by
  induction t with
  | nil => exact ⟨[], [], rfl, fun _ member => (by cases member), not_mem_nil, rfl⟩
  | cons u t ih =>
    obtain ⟨lines, rest, rfl, whole, last, count⟩ := ih
    by_cases newline : u = 0x0A
    · subst newline
      refine ⟨[] :: lines, rest, (ended_cons [] lines rest).symm, ?_, last, ?_⟩
      · exact List.forall_mem_cons.mpr ⟨not_mem_nil, whole⟩
      · rw [count_cons_self, count, length_cons]
    · cases lines with
      | nil =>
        refine ⟨[], u :: rest, rfl, whole, ?_, ?_⟩
        · exact fun member => (List.mem_cons.mp member).elim (Ne.symm newline) last
        · rw [count_cons_of_ne newline, count]
      | cons line lines =>
        obtain ⟨here, others⟩ := List.forall_mem_cons.mp whole
        refine ⟨(u :: line) :: lines, rest, ?_, ?_, last, ?_⟩
        · rw [ended_cons, ended_cons, cons_append]
        · exact List.forall_mem_cons.mpr
            ⟨fun member => (List.mem_cons.mp member).elim (Ne.symm newline) here, others⟩
        · rw [count_cons_of_ne newline, count, length_cons, length_cons]

theorem splitLines_cons {line : Text} (whole : 0x0A ∉ line) (rest : Text) :
    splitLinesForCounting (line ++ 0x0A :: rest) = line :: splitLinesForCounting rest := by
  unfold splitLinesForCounting
  rw [if_neg (by simp), splitOn_append_cons_self, splitOn_eq_singleton whole]
  cases rest with
  | nil => simp [endsWithNewline]
  | cons u rest =>
    have last : endsWithNewline (line ++ 0x0A :: u :: rest) = endsWithNewline (u :: rest) := by
      simp [endsWithNewline, List.getLast?_cons_cons]
    have long : (u :: rest).length ≠ 0 := Nat.succ_ne_zero _
    rw [last, if_neg long]
    dsimp only
    split
    · exact dropLast_cons_of_ne_nil (splitOn_ne_nil _ _)
    · rfl

theorem splitLines_ended {lines : List Text} (whole : ∀ line ∈ lines, 0x0A ∉ line) (rest : Text) :
    splitLinesForCounting (ended lines ++ rest) = lines ++ splitLinesForCounting rest := by
  induction lines with
  | nil => rfl
  | cons line lines ih =>
    obtain ⟨here, others⟩ := List.forall_mem_cons.mp whole
    rw [ended_cons, splitLines_cons here, ih others, cons_append]

theorem splitLines_rest {rest : Text} (whole : 0x0A ∉ rest) :
    splitLinesForCounting rest = if rest = [] then [] else [rest] := by
  unfold splitLinesForCounting
  have unended : endsWithNewline rest = false := by
    refine Bool.eq_false_iff.mpr fun ends => whole (mem_of_getLast? ?_)
    simpa [endsWithNewline] using ends
  rw [splitOn_eq_singleton whole, unended]
  simp [length_eq_zero_iff]

theorem splitLines_eq_nil {t : Text} : splitLinesForCounting t = [] ↔ t = [] := by
  obtain ⟨lines, rest, rfl, whole, last, -⟩ := exists_ended t
  rw [splitLines_ended whole, splitLines_rest last, append_eq_nil_iff, append_eq_nil_iff]
  refine and_congr ?_ (by split <;> simp_all)
  cases lines <;> simp [ended]

/-- What is left of a prefix begins the next line of the text. -/
theorem splitLines_more {rest : Text} (whole : 0x0A ∉ rest) (nonempty : rest ≠ []) (more : Text) :
    ∃ tail lines, splitLinesForCounting (rest ++ more) = (rest ++ tail) :: lines := by
  obtain ⟨lines, left, rfl, ends, last, -⟩ := exists_ended more
  cases lines with
  | nil =>
    refine ⟨left, [], ?_⟩
    rw [show ended [] ++ left = left from rfl, splitLines_rest, if_neg (by simp [nonempty])]
    exact fun member => (List.mem_append.mp member).elim whole last
  | cons line lines =>
    obtain ⟨here, others⟩ := List.forall_mem_cons.mp ends
    refine ⟨line, lines ++ splitLinesForCounting left, ?_⟩
    rw [ended_cons, ← append_assoc, splitLines_cons, splitLines_ended others]
    exact fun member => (List.mem_append.mp member).elim whole here

/-! ### The longest run of lines -/

/-- Lines are within both limits. -/
def Fits (options : TruncationOptions) (lines : List Text) : Prop :=
  lines.length ≤ options.lines ∧ utf8ByteLength ([0x0A].intercalate lines) ≤ options.bytes

/-- **The first `count` lines are the longest run within both limits.** -/
structure Longest (options : TruncationOptions) (lines : List Text) (count : Nat) : Prop where
  le : count ≤ lines.length
  fits : Fits options (lines.take count)
  longest : ∀ other ≤ lines.length, Fits options (lines.take other) → other ≤ count

theorem intercalate_concat (lines : List Text) (line : Text) :
    [0x0A].intercalate (lines ++ [line]) = ended lines ++ line := by
  induction lines with
  | nil => exact intercalate_singleton
  | cons first rest ih =>
    have more : rest ++ [line] ≠ [] := by simp
    rw [cons_append, intercalate_cons_of_ne_nil more, ih, ended_cons, append_assoc,
      singleton_append]

theorem bytes_concat (lines : List Text) (line : Text) :
    utf8ByteLength ([0x0A].intercalate (lines ++ [line])) =
      utf8ByteLength ([0x0A].intercalate lines) +
        (utf8ByteLength line + if 0 < lines.length then 1 else 0) := by
  rcases eq_nil_or_concat' lines with rfl | ⟨front, last, rfl⟩
  · rw [nil_append, intercalate_singleton]
    exact (Nat.zero_add _).symm
  · have ends : ended (front ++ [last]) ++ line = (ended front ++ last) ++ 0x0A :: line := by
      simp [ended]
    rw [intercalate_concat, ends, utf8ByteLength_append_newline, intercalate_concat,
      if_pos (by simp)]
    omega

theorem Fits.take {options : TruncationOptions} {lines : List Text} (fits : Fits options lines)
    (count : Nat) : Fits options (lines.take count) := by
  induction lines using List.reverseRecOn with
  | nil => simpa using fits
  | append_singleton front last ih =>
    obtain ⟨length, bytes⟩ := fits
    rw [length_append] at length
    rw [bytes_concat] at bytes
    rcases Nat.lt_or_ge front.length count with all | some
    · rw [take_of_length_le (by rw [length_append]; exact all)]
      exact ⟨by rwa [length_append], by rwa [bytes_concat]⟩
    · rw [take_append_of_le_length some]
      exact ih ⟨by omega, by omega⟩

/-- **The loop keeps the longest run.** It breaks off where there is a line that the limit of lines
lets in. -/
theorem collect_longest {options : TruncationOptions} {before : List Text}
    (fits : Fits options before) (rest : List Text) :
    ∃ count ≤ rest.length,
      collect options.lines options.bytes before.length
          (utf8ByteLength ([0x0A].intercalate before)) rest =
        (rest.take count, decide (count < rest.length ∧ before.length + count < options.lines)) ∧
      Fits options (before ++ rest.take count) ∧
      (count < rest.length → ¬Fits options (before ++ rest.take (count + 1))) := by
  induction rest generalizing before with
  | nil => exact ⟨0, Nat.le_refl _, by simp [collect], by simpa using fits, by simp⟩
  | cons line rest ih =>
    have bytes := bytes_concat before line
    rw [collect]
    by_cases more : before.length < options.lines
    · rw [if_pos more]
      dsimp only
      rw [← bytes]
      by_cases large : options.bytes < utf8ByteLength ([0x0A].intercalate (before ++ [line]))
      · rw [if_pos large]
        refine ⟨0, Nat.zero_le _, by simp [more], by simpa using fits, fun _ both => ?_⟩
        exact absurd both.2 (Nat.not_le.mpr large)
      · rw [if_neg large]
        have here : Fits options (before ++ [line]) := by
          refine ⟨?_, Nat.not_lt.mp large⟩
          rw [length_append]
          exact more
        obtain ⟨count, le, kept, within, stops⟩ := ih here
        rw [length_append, length_singleton] at kept
        refine ⟨count + 1, Nat.succ_le_succ le, ?_, ?_, fun beyond => ?_⟩
        · rw [kept, take_succ_cons, length_cons]
          simp only [Nat.add_lt_add_iff_right, Nat.add_right_comm, ← Nat.add_assoc]
        · simpa using within
        · simpa using stops (Nat.lt_of_succ_lt_succ beyond)
    · rw [if_neg more]
      refine ⟨0, Nat.zero_le _, by simp [more], by simpa using fits, fun _ both => ?_⟩
      have length := both.1
      rw [length_append] at length
      exact more length

/-- The loop over the lines of a text. -/
theorem collect_all (options : TruncationOptions) (lines : List Text) :
    ∃ count, Longest options lines count ∧ collect options.lines options.bytes 0 0 lines =
      (lines.take count, decide (count < lines.length ∧ count < options.lines)) := by
  obtain ⟨count, le, kept, fits, stops⟩ :=
    @collect_longest options [] ⟨Nat.zero_le _, Nat.zero_le _⟩ lines
  rw [length_nil, Nat.zero_add] at kept
  refine ⟨count, ⟨le, fits, fun other within both => ?_⟩, kept⟩
  by_contra longer
  have next := both.take (count + 1)
  rw [take_take, Nat.min_eq_left (by omega)] at next
  exact stops (by omega) next

/-! ### A prefix that is long enough -/

section Prefix

variable {options : TruncationOptions} {complete : List Text} {rest : Text}

section Enough

variable (enough : options.bytes + 1 < utf8ByteLength (ended complete ++ rest) ∨ options.lines ≤ complete.length)
include enough

/-- Behind the complete lines of a prefix that is long enough, no line is kept. -/
theorem Fits.le_complete {more : List Text} (continues : ∀ next ∈ more.head?, rest <+: next)
    {count : Nat} (le : count ≤ (complete ++ more).length)
    (fits : Fits options ((complete ++ more).take count)) : count ≤ complete.length := by
  by_contra longer
  cases more with
  | nil =>
    rw [append_nil] at le
    exact longer le
  | cons next more =>
    have further := fits.take (complete.length + 1)
    rw [take_take, Nat.min_eq_left (by omega), take_length_add_append,
      take_succ_cons, take_zero] at further
    obtain ⟨lines, bytes⟩ := further
    obtain ⟨tail, rfl⟩ := continues next rfl
    rw [length_append, length_singleton] at lines
    rw [intercalate_concat, ← append_assoc] at bytes
    have longest := utf8ByteLength_le_append (ended complete ++ rest) tail
    omega

/-- The next line of the prefix is let in where the next line of the text is. -/
theorem Fits.more_lines (fits : Fits options complete) (below : complete.length < options.lines) :
    rest ≠ [] := by
  rintro rfl
  rcases enough with bytes | lines
  · have size := bytes_concat complete []
    rw [intercalate_concat] at size
    have empty : utf8ByteLength [] = 0 := rfl
    have within := fits.2
    split at size <;> omega
  · omega

theorem collect_prefix (whole : ∀ line ∈ complete, 0x0A ∉ line) (last : 0x0A ∉ rest) {more : Text}
    (nonempty : more ≠ []) :
    collect options.lines options.bytes 0 0 (splitLinesForCounting (ended complete ++ rest)) =
      collect options.lines options.bytes 0 0
        (splitLinesForCounting (ended complete ++ rest ++ more)) := by
  rw [append_assoc, splitLines_ended whole, splitLines_ended whole, splitLines_rest last]
  obtain ⟨next, lines, shape, continues⟩ : ∃ next lines,
      splitLinesForCounting (rest ++ more) = next :: lines ∧ rest <+: next := by
    by_cases empty : rest = []
    · subst empty
      have some : splitLinesForCounting more ≠ [] := fun none => nonempty (splitLines_eq_nil.mp none)
      obtain ⟨next, lines, shape⟩ := exists_cons_of_ne_nil some
      exact ⟨next, lines, shape, nil_prefix⟩
    · obtain ⟨tail, lines, shape⟩ := splitLines_more last empty more
      exact ⟨rest ++ tail, lines, shape, prefix_append rest tail⟩
  rw [shape]
  generalize isShort : (if rest = [] then [] else [rest]) = short
  have short_continues : ∀ next ∈ short.head?, rest <+: next := by
    grind
  have text_continues : ∀ next' ∈ (next :: lines).head?, rest <+: next' := by
    grind
  obtain ⟨count, longest, kept⟩ := collect_all options (complete ++ short)
  obtain ⟨count', longest', kept'⟩ := collect_all options (complete ++ next :: lines)
  have le := longest.fits.le_complete enough short_continues longest.le
  have le' := longest'.fits.le_complete enough text_continues longest'.le
  have taken : ∀ (k : Nat) (back : List Text), k ≤ complete.length →
      (complete ++ back).take k = complete.take k := fun k back within =>
    take_append_of_le_length within
  have same : count = count' := by
    refine Nat.le_antisymm (longest'.longest count ?_ ?_) (longest.longest count' ?_ ?_)
    · exact Nat.le_trans le (by simp)
    · rw [taken _ _ le, ← taken _ short le]
      exact longest.fits
    · exact Nat.le_trans le' (by simp)
    · rw [taken _ _ le', ← taken _ (next :: lines) le']
      exact longest'.fits
  subst same
  rw [kept, kept', taken _ _ le, taken _ _ le]
  congr 1
  refine decide_eq_decide.mpr (and_congr_left fun below => ?_)
  have beyond : count < (complete ++ next :: lines).length := by
    rw [length_append, length_cons]
    omega
  refine iff_of_true ?_ beyond
  rcases Nat.lt_or_ge count complete.length with inside | all
  · rw [length_append]
    omega
  · have fits := longest.fits
    have equal := Nat.le_antisymm le all
    rw [taken _ _ le, equal, take_length] at fits
    rw [equal] at below
    rw [← isShort, if_neg (fits.more_lines enough below), length_append, equal]
    exact Nat.lt_succ_self _

end Enough

end Prefix

theorem truncateHead_longest (t : Text) (options : TruncationOptions) :
    ∃ result, truncateHead t options = some result ∧ (result.truncated = true →
      ∃ count, Longest options (splitLinesForCounting t) count ∧ result.outputLines = count ∧
        result.content = [0x0A].intercalate ((splitLinesForCounting t).take count)) := by
  unfold truncateHead truncateHeadOf
  dsimp only
  obtain ⟨count, longest, kept⟩ := collect_all options (splitLinesForCounting t)
  split
  · exact ⟨_, rfl, fun truncated => by cases truncated⟩
  · rename_i large
    cases shape : splitLinesForCounting t with
    | nil =>
      rw [splitLines_eq_nil] at shape
      subst shape
      exact absurd ⟨Nat.zero_le _, Nat.zero_le _⟩ large
    | cons first lines =>
      rw [shape] at kept longest
      dsimp only [List.head?_cons]
      split
      · rename_i exceeds
        refine ⟨_, rfl, fun _ => ⟨0, ⟨Nat.zero_le _, ⟨Nat.zero_le _, Nat.zero_le _⟩, ?_⟩, rfl, rfl⟩⟩
        intro other _ fits
        by_contra some
        have one := (fits.take 1).2
        rw [take_take, Nat.min_eq_left (by omega), take_succ_cons, take_zero,
          intercalate_singleton] at one
        omega
      · refine ⟨_, rfl, fun _ => ⟨count, longest, ?_, ?_⟩⟩
        · rw [kept, length_take, Nat.min_eq_left longest.le]
        · rw [kept]

/-- **A prefix that is long enough is as good as the text.** It is the text itself, or is longer than
the limit of bytes and one more, or holds as many newlines as the limit of lines. What is kept of a
text that is too long is the longest run of its leading lines within both limits. -/
theorem truncateHeadOf_prefix (t prefixText : Text) (options : TruncationOptions)
    (isPrefix : prefixText <+: t) (positive : 1 ≤ options.lines)
    (enough : prefixText = t ∨ options.bytes + 1 < utf8ByteLength prefixText ∨
      options.lines ≤ prefixText.count 0x0A) :
    ∃ result, truncateHead t options = some result ∧
      truncateHeadOf prefixText (totals t) options = some result ∧
      (result.truncated = true →
        ∃ count, Longest options (splitLinesForCounting t) count ∧ result.outputLines = count ∧
          result.content = [0x0A].intercalate ((splitLinesForCounting t).take count)) := by
  obtain ⟨result, whole, longest⟩ := truncateHead_longest t options
  refine ⟨result, whole, ?_, longest⟩
  rw [← whole]
  rcases enough with rfl | enough
  · rfl
  obtain ⟨more, rfl⟩ := isPrefix
  by_cases nothing : more = []
  · rw [nothing, append_nil, truncateHead]
  obtain ⟨complete, rest, rfl, ends, last, newlines⟩ := exists_ended prefixText
  rw [newlines] at enough
  have above : ¬((totals (ended complete ++ rest ++ more)).lines ≤ options.lines ∧
      (totals (ended complete ++ rest ++ more)).bytes ≤ options.bytes) := by
    rintro ⟨lines, bytes⟩
    rcases enough with long | many
    · have size := utf8ByteLength_le_append (ended complete ++ rest) more
      exact absurd (Nat.le_trans size bytes) (by omega)
    · have some : splitLinesForCounting (rest ++ more) ≠ [] := fun none =>
        nothing (List.append_eq_nil_iff.mp (splitLines_eq_nil.mp none)).2
      have length : (complete ++ splitLinesForCounting (rest ++ more)).length ≤ options.lines := by
        rw [← splitLines_ended ends, ← append_assoc]
        exact lines
      rw [length_append] at length
      have := length_pos_of_ne_nil some
      omega
  unfold truncateHead truncateHeadOf
  dsimp only
  rw [if_neg above, if_neg above, collect_prefix enough ends last nothing]
  cases complete with
  | cons line lines =>
    rw [append_assoc, splitLines_ended ends, splitLines_ended ends]
    rfl
  | nil =>
    have long : options.bytes + 1 < utf8ByteLength rest := by
      refine enough.resolve_right fun many => ?_
      rw [length_nil] at many
      omega
    have nonempty : rest ≠ [] := by
      rintro rfl
      exact absurd long (by simp [utf8ByteLength])
    obtain ⟨tail, lines, shape⟩ := splitLines_more last nonempty more
    have size := utf8ByteLength_le_append rest tail
    rw [show ended [] ++ rest = rest from rfl, splitLines_rest last, if_neg nonempty, shape]
    dsimp only [List.head?_cons]
    rw [if_pos (by omega), if_pos (by omega)]

/-- The read tool's prefix: two lines of three, and the newline after the second. -/
theorem truncateHeadOf_prefix_two :
    ∃ result, truncateHead (text "ab\ncd\nef") ⟨some 2, some 100⟩ = some result ∧
      truncateHeadOf (text "ab\ncd\n") (totals (text "ab\ncd\nef")) ⟨some 2, some 100⟩ =
        some result ∧
      (result.truncated = true →
        ∃ count, Longest ⟨some 2, some 100⟩ (splitLinesForCounting (text "ab\ncd\nef")) count ∧
          result.outputLines = count ∧ result.content =
            [0x0A].intercalate ((splitLinesForCounting (text "ab\ncd\nef")).take count)) :=
  truncateHeadOf_prefix (text "ab\ncd\nef") (text "ab\ncd\n") ⟨some 2, some 100⟩ (by decide)
    (by decide) (by decide)

end TianGong.Gibraltar

/-
**What a window depends on.**

The tail window of a byte sequence depends only on a suffix that is longer than the window by a
byte or a line, and the head window only on a prefix that fills it. These are the facts that let
the buffer forget the rest of a stream.

* `headEnd_whole`: a full prefix is its own window exactly when it is `maxLines` terminated lines
  of at most `maxBytes` bytes.
-/

import TianGong.Output.Buffer

namespace TianGong.Output

open Utf8 (encode decode isContinuation Splits)
open List Option

/-- More than a window, by a byte or a line. -/
def Exceeds (limits : OutputLimits) (bytes newlines : Nat) : Prop :=
  limits.maxBytes < bytes ∨ limits.maxLines < newlines

/-- The bytes of a sequence are more than a window. -/
def ExceedsBytes (limits : OutputLimits) (bytes : List UInt8) : Prop :=
  Exceeds limits bytes.length (bytes.count NEWLINE)

/-! ### The tail window -/

variable {p s : List UInt8} {i lines maxLines : Nat} {limits : OutputLimits} (bytes : List UInt8)

theorem tailLines_le (maxLines lines i : Nat) : tailLines bytes maxLines lines i ≤ i := by
  induction i generalizing lines with
  | zero => exact Nat.le_refl 0
  | succ i ih =>
    rw [tailLines]
    split_ifs
    · exact Nat.le_refl _
    · exact (ih _).trans (Nat.le_succ i)
    · exact (ih _).trans (Nat.le_succ i)

theorem tailLines_left (inside : i ≤ p.length) :
    tailLines (p ++ s) maxLines lines i = tailLines p maxLines lines i := by
  induction i generalizing lines with
  | zero => rfl
  | succ i ih =>
    rw [tailLines, tailLines, List.getElem?_append_left inside, ih (Nat.le_of_succ_le inside),
      ih (Nat.le_of_succ_le inside)]

theorem count_take_succ (s : List UInt8) (i : Nat) :
    (s.take (i + 1)).count NEWLINE =
      (s.take i).count NEWLINE + if s[i]? = some NEWLINE then 1 else 0 := by
  rw [take_add_one, count_append]
  congr 1
  cases s[i]? with
  | none => rfl
  | some b => simp [count_singleton]

/-- The walk over a suffix finds its line start, or goes on into what is before. -/
theorem tailLines_append {p s : List UInt8} {maxLines lines i : Nat} (few : lines ≤ maxLines)
    (inside : i ≤ s.length) :
    tailLines (p ++ s) maxLines lines (p.length + i) =
      if maxLines < lines + (s.take i).count NEWLINE then p.length + tailLines s maxLines lines i
      else tailLines p maxLines (lines + (s.take i).count NEWLINE) p.length := by
  induction i generalizing lines with
  | zero =>
    rw [take_zero, count_nil, Nat.add_zero, Nat.add_zero, if_neg (Nat.not_lt.mpr few),
      tailLines_left (Nat.le_refl _)]
  | succ i ih =>
    have byte : (p ++ s)[p.length + i]? = s[i]? := by
      rw [List.getElem?_append_right (Nat.le_add_right _ _), Nat.add_sub_cancel_left]
    rw [← Nat.add_assoc, tailLines, byte, tailLines, count_take_succ]
    by_cases newline : s[i]? = some NEWLINE
    · simp only [if_pos newline]
      by_cases last : lines = maxLines
      · rw [if_pos last, if_pos last, if_pos (by omega), Nat.add_assoc]
      · rw [if_neg last, if_neg last, ih (by omega) (Nat.le_of_succ_le inside),
          Nat.add_right_comm lines 1, Nat.add_assoc lines]
    · simp only [if_neg newline, Nat.add_zero]
      exact ih few (Nat.le_of_succ_le inside)

/-- Without enough newlines the walk reaches the start. -/
theorem tailLines_eq_zero (few : lines + (s.take i).count NEWLINE ≤ maxLines) :
    tailLines s maxLines lines i = 0 := by
  induction i generalizing lines with
  | zero => rfl
  | succ i ih =>
    rw [count_take_succ] at few
    rw [tailLines]
    split_ifs with newline last
    · rw [if_pos newline] at few
      omega
    · rw [if_pos newline] at few
      exact ih (by omega)
    · rw [if_neg newline] at few
      exact ih few

theorem tailLines_pos (start : lines ≤ maxLines)
    (enough : maxLines < lines + (s.take i).count NEWLINE) : 0 < tailLines s maxLines lines i := by
  induction i generalizing lines with
  | zero =>
    rw [take_zero, count_nil] at enough
    omega
  | succ i ih =>
    rw [count_take_succ] at enough
    rw [tailLines]
    split_ifs with newline last
    · exact Nat.succ_pos i
    · rw [if_pos newline] at enough
      exact ih (by omega) (by omega)
    · rw [if_neg newline] at enough
      exact ih start enough

/-- Where the walk over `s` starts: below a trailing newline. -/
def tailBelow (s : List UInt8) : Nat :=
  if s.getLast? = some NEWLINE then s.length - 1 else s.length

theorem tailBelow_le (s : List UInt8) : tailBelow s ≤ s.length := by
  unfold tailBelow
  split_ifs
  · exact Nat.sub_le _ _
  · exact Nat.le_refl _

/-- Only a trailing newline is not walked over. -/
theorem count_le_tailBelow (s : List UInt8) :
    s.count NEWLINE ≤ (s.take (tailBelow s)).count NEWLINE + 1 := by
  unfold tailBelow
  split_ifs with newline
  · rcases eq_nil_or_concat s with rfl | ⟨front, last, rfl⟩
    · exact Nat.zero_le _
    · rw [concat_eq_append, length_append, length_singleton, Nat.add_sub_cancel,
        take_left, count_append, count_singleton]
      split_ifs <;> omega
  · rw [take_length]
    exact Nat.le_succ _

theorem tailBelow_append (nonempty : s ≠ []) : tailBelow (p ++ s) = p.length + tailBelow s := by
  have long := length_pos_of_ne_nil nonempty
  unfold tailBelow
  rw [List.getLast?_append_of_ne_nil _ nonempty, length_append]
  split_ifs
  · exact Nat.add_sub_assoc long _
  · rfl

theorem ExceedsBytes.ne_nil (exceeds : ExceedsBytes limits s) : s ≠ [] := by
  rintro rfl
  rcases exceeds with bytes | lines
  · exact absurd bytes (Nat.not_lt_zero _)
  · exact absurd lines (Nat.not_lt_zero _)

/-- A suffix longer than the window has its line start, or is cut by bytes. -/
theorem ExceedsBytes.lines_or_bytes (exceeds : ExceedsBytes limits s) :
    limits.maxLines < 1 + (s.take (tailBelow s)).count NEWLINE ∨ limits.maxBytes < s.length := by
  rcases exceeds with bytes | lines
  · exact .inr bytes
  · have := count_le_tailBelow s
    exact .inl (by omega)

/-- Where the window starts when it is cut by bytes. -/
def byteCut (bytes : List UInt8) (maxBytes : Nat) : Nat :=
  match indexOf bytes (bytes.length - maxBytes - 1) with
  | none => characterStart bytes (bytes.length - maxBytes)
  | some newline =>
    if newline + 1 < bytes.length then newline + 1
    else characterStart bytes (bytes.length - maxBytes)

/-- Where the window starts. -/
def tailStart (bytes : List UInt8) (limits : OutputLimits) : Nat :=
  if limits.maxLines = 0 ∨ limits.maxBytes = 0 then bytes.length
  else
    let start := tailLines bytes limits.maxLines 1 (tailBelow bytes)
    if limits.maxBytes < bytes.length - start then byteCut bytes limits.maxBytes else start

theorem tailRange_eq (limits : OutputLimits) :
    tailRange bytes limits = (tailStart bytes limits, bytes.length) := by
  unfold tailRange tailStart byteCut tailBelow
  dsimp only
  by_cases none : limits.maxLines = 0 ∨ limits.maxBytes = 0
  · rw [if_pos none, if_pos none]
  · rw [if_neg none, if_neg none]
    split_ifs
    all_goals
      first
      | rfl
      | (cases indexOf bytes (bytes.length - limits.maxBytes - 1) with
          | none => rfl
          | some newline => dsimp only; split_ifs <;> rfl)

theorem indexOf_append (p s : List UInt8) (i : Nat) :
    indexOf (p ++ s) (p.length + i) = (indexOf s i).map (p.length + ·) := by
  rw [indexOf, indexOf, List.drop_append, drop_of_length_le (Nat.le_add_right _ _),
    nil_append, Nat.add_sub_cancel_left, Option.map_map]
  refine congrArg (Option.map · _) (funext fun j => ?_)
  exact Nat.add_assoc _ _ _

theorem characterStart_append (p s : List UInt8) (i : Nat) :
    characterStart (p ++ s) (p.length + i) = p.length + characterStart s i := by
  rw [characterStart, characterStart, List.drop_append,
    drop_of_length_le (Nat.le_add_right _ _), nil_append, Nat.add_sub_cancel_left,
    Nat.add_assoc]

theorem byteCut_append {maxBytes : Nat} (long : maxBytes < s.length) :
    byteCut (p ++ s) maxBytes = p.length + byteCut s maxBytes := by
  have from_ : (p ++ s).length - maxBytes = p.length + (s.length - maxBytes) := by
    rw [length_append]
    omega
  have before : p.length + (s.length - maxBytes) - 1 = p.length + (s.length - maxBytes - 1) := by
    omega
  rw [byteCut, byteCut, from_, before, indexOf_append, characterStart_append, length_append]
  cases indexOf s (s.length - maxBytes - 1) with
  | none => rfl
  | some newline =>
    simp only [map_some, Nat.add_assoc, Nat.add_lt_add_iff_left]
    split_ifs <;> rfl

/-- **The tail window of the whole is the tail window of a suffix longer than it.** -/
theorem tailStart_append (exceeds : ExceedsBytes limits s) :
    tailStart (p ++ s) limits = p.length + tailStart s limits := by
  unfold tailStart
  by_cases none : limits.maxLines = 0 ∨ limits.maxBytes = 0
  · rw [if_pos none, if_pos none, length_append]
  rw [if_neg none, if_neg none]
  have walk := @tailLines_append p s limits.maxLines 1 (tailBelow s)
    (Nat.one_le_iff_ne_zero.mpr fun zero => none (.inl zero)) (tailBelow_le s)
  rw [← tailBelow_append exceeds.ne_nil] at walk
  by_cases found : limits.maxLines < 1 + (s.take (tailBelow s)).count NEWLINE
  · rw [if_pos found] at walk
    have below := (tailLines_le s limits.maxLines 1 (tailBelow s)).trans (tailBelow_le s)
    have rest : (p ++ s).length - (p.length + tailLines s limits.maxLines 1 (tailBelow s)) =
        s.length - tailLines s limits.maxLines 1 (tailBelow s) := by
      rw [length_append]
      omega
    dsimp only
    rw [walk, rest]
    split_ifs with over_
    · exact byteCut_append (Nat.lt_of_lt_of_le over_ (Nat.sub_le _ _))
    · rfl
  · -- The walk leaves the suffix, so the suffix is longer than the window by bytes.
    rw [if_neg found] at walk
    have long := exceeds.lines_or_bytes.resolve_left found
    have low := tailLines_le p limits.maxLines (1 + (s.take (tailBelow s)).count NEWLINE) p.length
    dsimp only
    rw [walk, tailLines_eq_zero (Nat.le_of_not_lt found), if_pos (by rw [length_append]; omega),
      if_pos (by omega)]
    exact byteCut_append long

theorem byteCut_pos {maxBytes : Nat} (long : maxBytes < s.length) : 0 < byteCut s maxBytes := by
  have start : 0 < characterStart s (s.length - maxBytes) :=
    Nat.lt_of_lt_of_le (Nat.sub_pos_of_lt long) (Nat.le_add_right _ _)
  unfold byteCut
  split
  · exact start
  · split_ifs
    · exact Nat.succ_pos _
    · exact start

/-- A sequence longer than the window is cut. -/
theorem tailStart_pos (exceeds : ExceedsBytes limits s) : 0 < tailStart s limits := by
  unfold tailStart
  by_cases none : limits.maxLines = 0 ∨ limits.maxBytes = 0
  · rw [if_pos none]
    exact length_pos_of_ne_nil exceeds.ne_nil
  rw [if_neg none]
  dsimp only
  split_ifs with over_
  · exact byteCut_pos (Nat.lt_of_lt_of_le over_ (Nat.sub_le _ _))
  · rcases exceeds.lines_or_bytes with found | long
    · exact tailLines_pos (Nat.one_le_iff_ne_zero.mpr fun zero => none (.inl zero)) found
    · omega

theorem characterStart_le {bytes : List UInt8} (inside : i ≤ bytes.length) :
    characterStart bytes i ≤ bytes.length := by
  have := (takeWhile_sublist isContinuation (l := bytes.drop i)).length_le
  rw [length_drop] at this
  unfold characterStart
  omega

theorem tailStart_le (s : List UInt8) (limits : OutputLimits) : tailStart s limits ≤ s.length := by
  unfold tailStart byteCut
  dsimp only
  have walk := (tailLines_le s limits.maxLines 1 (tailBelow s)).trans (tailBelow_le s)
  split_ifs
  · exact Nat.le_refl _
  · split
    · exact characterStart_le (Nat.sub_le _ _)
    · split_ifs
      · omega
      · exact characterStart_le (Nat.sub_le _ _)
  · exact walk

/-! ### The head window -/

/-- The prefix fills the head window. -/
def Fills (limits : OutputLimits) (bytes newlines : Nat) : Prop :=
  limits.maxBytes < bytes ∨ limits.maxLines ≤ newlines

theorem headLines_none {index : Nat} (few : lines < maxLines)
    (none : headLines maxLines lines index s = none) : lines + s.count NEWLINE < maxLines := by
  induction s generalizing lines index with
  | nil => exact few
  | cons b rest ih =>
    rw [headLines] at none
    rw [count_cons]
    split_ifs at none with newline last
    · have := ih (by omega) none
      rw [if_pos (by rw [newline]; rfl)]
      omega
    · rw [if_neg (by rw [beq_iff_eq]; exact newline)]
      exact ih few none

/-- The end the loop finds is right after the `maxLines`-th newline. -/
theorem headLines_some {index e : Nat} (found : headLines maxLines lines index s = some e) :
    ∃ a b, s = a ++ NEWLINE :: b ∧ lines + a.count NEWLINE + 1 = maxLines ∧
      e = index + a.length + 1 := by
  induction s generalizing lines index with
  | nil => cases found
  | cons c rest ih =>
    rw [headLines] at found
    split_ifs at found with newline last
    · cases found
      exact ⟨[], rest, by rw [newline]; rfl, last, rfl⟩
    · obtain ⟨a, b, rfl, count, rfl⟩ := ih found
      refine ⟨c :: a, b, rfl, ?_, by rw [length_cons]; omega⟩
      rw [count_cons, if_pos (by rw [newline]; rfl)]
      omega
    · obtain ⟨a, b, rfl, count, rfl⟩ := ih found
      refine ⟨c :: a, b, rfl, ?_, by rw [length_cons]; omega⟩
      rw [count_cons, if_neg (by rw [beq_iff_eq]; exact newline)]
      exact count

theorem headLines_at {index : Nat} {a b : List UInt8}
    (count : lines + a.count NEWLINE + 1 = maxLines) :
    headLines maxLines lines index (a ++ NEWLINE :: b) = some (index + a.length + 1) := by
  induction a generalizing lines index with
  | nil =>
    rw [nil_append, headLines, if_pos rfl, if_pos (by simpa using count)]
    rfl
  | cons c a ih =>
    rw [cons_append, headLines, length_cons]
    rw [count_cons] at count
    by_cases newline : c = NEWLINE
    · rw [if_pos (by rw [newline]; rfl)] at count
      rw [if_pos newline, if_neg (by omega), ih (by omega)]
      congr 1
      omega
    · rw [if_neg (by rw [beq_iff_eq]; exact newline)] at count
      rw [if_neg newline, ih count]
      congr 1
      omega

/-- Where the window ends when it is limited by lines only. -/
def lineEnd (bytes : List UInt8) (maxLines : Nat) : Nat :=
  (headLines maxLines 0 0 bytes).getD bytes.length

/-- Where the window ends. -/
def headEnd (bytes : List UInt8) (limits : OutputLimits) : Nat :=
  if limits.maxLines = 0 ∨ limits.maxBytes = 0 then 0
  else if limits.maxBytes < lineEnd bytes limits.maxLines then
    match lastIndexOf bytes (limits.maxBytes - 1) with
    | none => characterEnd bytes limits.maxBytes
    | some newline => newline + 1
  else lineEnd bytes limits.maxLines

theorem headRange_eq (limits : OutputLimits) :
    headRange bytes limits = (0, headEnd bytes limits) := by
  unfold headRange headEnd lineEnd
  dsimp only
  by_cases none : limits.maxLines = 0 ∨ limits.maxBytes = 0
  · rw [if_pos none, if_pos none]
  · rw [if_neg none, if_neg none]
    split_ifs
    · cases lastIndexOf bytes (limits.maxBytes - 1) <;> rfl
    · rfl

theorem characterEnd_le (i : Nat) : characterEnd bytes i ≤ i := by
  induction i with
  | zero => exact Nat.le_refl 0
  | succ i ih =>
    rw [characterEnd]
    split_ifs
    · exact ih.trans (Nat.le_succ i)
    · exact Nat.le_refl _

theorem lastIndexOf_le {bytes : List UInt8} {j : Nat} (found : lastIndexOf bytes i = some j) :
    j ≤ i := by
  induction i with
  | zero =>
    rw [lastIndexOf] at found
    split_ifs at found
    cases found
    exact Nat.le_refl 0
  | succ i ih =>
    rw [lastIndexOf] at found
    split_ifs at found
    · cases found
      exact Nat.le_refl _
    · exact (ih found).trans (Nat.le_succ i)

theorem lastIndexOf_append {r : List UInt8} (inside : i < s.length) :
    lastIndexOf (s ++ r) i = lastIndexOf s i := by
  induction i with
  | zero => rw [lastIndexOf, lastIndexOf, List.getElem?_append_left inside]
  | succ i ih =>
    rw [lastIndexOf, lastIndexOf, List.getElem?_append_left inside, ih (Nat.lt_of_succ_lt inside)]

theorem characterEnd_append {r : List UInt8} (inside : i < s.length) :
    characterEnd (s ++ r) i = characterEnd s i := by
  induction i with
  | zero => rfl
  | succ i ih =>
    rw [characterEnd, characterEnd, getD_eq_getElem?_getD, List.getElem?_append_left inside,
      ← getD_eq_getElem?_getD, ih (Nat.lt_of_succ_lt inside)]

/-- The line limit is the same in a prefix that reaches it, and past the byte limit in both where
the prefix does not. -/
theorem lineEnd_append {s r : List UInt8} {limits : OutputLimits} (lines : 0 < limits.maxLines)
    (fills : Fills limits s.length (s.count NEWLINE)) :
    lineEnd (s ++ r) limits.maxLines = lineEnd s limits.maxLines ∧
        lineEnd s limits.maxLines ≤ s.length ∨
      limits.maxBytes < lineEnd (s ++ r) limits.maxLines ∧
        limits.maxBytes < lineEnd s limits.maxLines ∧ limits.maxBytes < s.length := by
  cases found : headLines limits.maxLines 0 0 s with
  | some e =>
    obtain ⟨a, b, rfl, count, rfl⟩ := headLines_some found
    refine .inl ⟨?_, ?_⟩
    · rw [lineEnd, lineEnd, found, append_assoc, cons_append, headLines_at count]
      rfl
    · rw [lineEnd, found, getD_some, length_append, length_cons]
      omega
  | none =>
    have few := headLines_none lines found
    have long : limits.maxBytes < s.length := fills.resolve_right (by omega)
    refine .inr ⟨?_, by rw [lineEnd, found]; exact long, long⟩
    rw [lineEnd]
    cases later : headLines limits.maxLines 0 0 (s ++ r) with
    | none =>
      rw [getD_none, length_append]
      omega
    | some e =>
      -- The newline found is past the prefix, which has too few.
      obtain ⟨a, b, whole, count, rfl⟩ := headLines_some later
      have past : s.length ≤ a.length := by
        by_contra short
        have shape : s = a ++ NEWLINE :: (s.drop (a.length + 1)) := by
          have front := congrArg (List.take (a.length + 1)) whole
          rw [take_append_of_le_length (by omega), take_append,
            take_of_length_le (Nat.le_succ _), Nat.add_sub_cancel_left, take_succ_cons,
            take_zero] at front
          calc s = s.take (a.length + 1) ++ s.drop (a.length + 1) := (take_append_drop _ s).symm
            _ = a ++ NEWLINE :: (s.drop (a.length + 1)) := by
              rw [front, append_assoc, singleton_append]
        rw [shape, count_append, count_cons_self] at few
        omega
      rw [getD_some]
      omega

theorem lineEnd_le (s : List UInt8) (maxLines : Nat) : lineEnd s maxLines ≤ s.length := by
  cases found : headLines maxLines 0 0 s with
  | none => rw [lineEnd, found]; exact Nat.le_refl _
  | some e =>
    obtain ⟨a, b, rfl, _, rfl⟩ := headLines_some found
    rw [lineEnd, found, getD_some, length_append, length_cons]
    omega

/-- **The head window of the whole is the head window of a prefix that fills it.** -/
theorem headEnd_append {r : List UInt8} (fills : Fills limits s.length (s.count NEWLINE)) :
    headEnd (s ++ r) limits = headEnd s limits := by
  unfold headEnd
  by_cases none : limits.maxLines = 0 ∨ limits.maxBytes = 0
  · rw [if_pos none, if_pos none]
  rw [if_neg none, if_neg none]
  have lines : 0 < limits.maxLines := Nat.pos_of_ne_zero fun zero => none (.inl zero)
  have bytes : 0 < limits.maxBytes := Nat.pos_of_ne_zero fun zero => none (.inr zero)
  have cut : limits.maxBytes < s.length →
      (match lastIndexOf (s ++ r) (limits.maxBytes - 1) with
        | Option.none => characterEnd (s ++ r) limits.maxBytes
        | some newline => newline + 1) =
      match lastIndexOf s (limits.maxBytes - 1) with
        | Option.none => characterEnd s limits.maxBytes
        | some newline => newline + 1 := by
    intro long
    rw [lastIndexOf_append (by omega), characterEnd_append long]
  rcases @lineEnd_append s r limits lines fills with ⟨same, inside⟩ | ⟨past, past', long⟩
  · rw [same]
    split_ifs with over_
    · exact cut (Nat.lt_of_lt_of_le over_ inside)
    · rfl
  · rw [if_pos past, if_pos past']
    exact cut long

theorem headEnd_le (s : List UInt8) (limits : OutputLimits) :
    headEnd s limits ≤ limits.maxBytes ∧ headEnd s limits ≤ lineEnd s limits.maxLines := by
  unfold headEnd
  split_ifs with none past
  · exact ⟨Nat.zero_le _, Nat.zero_le _⟩
  · have bytes : 0 < limits.maxBytes := Nat.pos_of_ne_zero fun zero => none (.inr zero)
    have below : (match lastIndexOf s (limits.maxBytes - 1) with
        | Option.none => characterEnd s limits.maxBytes
        | some newline => newline + 1) ≤ limits.maxBytes := by
      cases found : lastIndexOf s (limits.maxBytes - 1) with
      | none => exact characterEnd_le s _
      | some newline =>
        have inside := lastIndexOf_le found
        exact by
          show newline + 1 ≤ limits.maxBytes
          omega
    exact ⟨below, below.trans (Nat.le_of_lt past)⟩
  · exact ⟨Nat.le_of_not_lt past, Nat.le_refl _⟩

/-- **A prefix that fills the window is its own window** exactly when it is `maxLines` terminated
lines that fit in `maxBytes` bytes. -/
theorem headEnd_whole (nonempty : s ≠ []) (fills : Fills limits s.length (s.count NEWLINE)) :
    headEnd s limits = s.length ↔
      s.length ≤ limits.maxBytes ∧ s.count NEWLINE = limits.maxLines ∧
        s.getLast? = some NEWLINE := by
  have long := length_pos_of_ne_nil nonempty
  constructor
  · intro whole
    have fits := (headEnd_le s limits).1
    rw [whole] at fits
    have lines : 0 < limits.maxLines := by
      rw [Nat.pos_iff_ne_zero]
      intro zero
      rw [headEnd, if_pos (.inl zero)] at whole
      omega
    cases found : headLines limits.maxLines 0 0 s with
    | none =>
      have few := headLines_none lines found
      rcases fills with bytes | enough <;> omega
    | some e =>
      have ends := (headEnd_le s limits).2
      rw [whole, lineEnd, found, getD_some] at ends
      obtain ⟨a, b, rfl, count, rfl⟩ := headLines_some found
      rw [length_append, length_cons] at ends
      have last : b = [] := List.length_eq_zero_iff.mp (by omega)
      subst last
      refine ⟨fits, ?_, by simp⟩
      rw [count_append, count_singleton]
      simp only [beq_self_eq_true, if_true]
      omega
  · rintro ⟨fits, count, last⟩
    obtain ⟨a, rfl⟩ : ∃ a, s = a ++ [NEWLINE] := List.getLast?_eq_some_iff.mp last
    rw [count_append, count_singleton] at count
    simp only [beq_self_eq_true, if_true] at count
    rw [length_append, length_singleton] at fits ⊢
    have ends : lineEnd (a ++ [NEWLINE]) limits.maxLines = a.length + 1 := by
      rw [lineEnd, headLines_at (by omega), getD_some, Nat.zero_add]
    rw [headEnd, if_neg (by omega), ends, if_neg (Nat.not_lt.mpr fits)]

/-! ### What a snapshot keeps -/

/-- The boundary found is the start, or a first byte. -/
theorem characterEnd_first {bytes : List UInt8} (later : characterEnd bytes i ≠ 0) :
    Utf8.IsStart bytes (characterEnd bytes i) := by
  induction i with
  | zero => exact absurd rfl later
  | succ i ih =>
    rw [characterEnd] at later ⊢
    split_ifs at later ⊢ with inside
    · exact ih later
    · intro b found
      rw [getD_eq_getElem?_getD, found] at inside
      exact Bool.eq_false_iff.mpr inside

/-- The newline found has more than `maxLines` newlines from it on. -/
theorem marginLines_spec {bytes : List UInt8} {newlines : Nat}
    (later : marginLines bytes maxLines newlines i ≠ 0) :
    bytes[marginLines bytes maxLines newlines i]? = some NEWLINE ∧
      maxLines < newlines +
        ((bytes.take i).drop (marginLines bytes maxLines newlines i)).count NEWLINE := by
  induction i generalizing newlines with
  | zero => exact absurd rfl later
  | succ i ih =>
    rw [marginLines] at later ⊢
    have more : ∀ {j}, j ≤ i → bytes[i]? = some NEWLINE →
        ((bytes.take (i + 1)).drop j).count NEWLINE = ((bytes.take i).drop j).count NEWLINE + 1 := by
      intro j inside newline
      have short : i < bytes.length := (List.getElem?_eq_some_iff.mp newline).1
      rw [take_add_one, newline, drop_append_of_le_length
        (by rw [length_take]; omega), count_append]
      rfl
    have low : ∀ n, marginLines bytes maxLines n i ≤ i := by
      intro n
      clear ih later more
      induction i generalizing n with
      | zero => exact Nat.le_refl 0
      | succ i ih =>
        rw [marginLines]
        split_ifs
        · exact Nat.le_succ i
        · exact (ih _).trans (Nat.le_succ i)
        · exact (ih _).trans (Nat.le_succ i)
    split_ifs at later ⊢ with newline last
    · refine ⟨newline, ?_⟩
      rw [more (Nat.le_refl i) newline]
      omega
    · obtain ⟨here, enough⟩ := ih later
      refine ⟨here, ?_⟩
      rw [more (low _) newline]
      omega
    · obtain ⟨here, enough⟩ := ih later
      refine ⟨here, Nat.lt_of_lt_of_le enough (Nat.add_le_add_left ?_ _)⟩
      refine List.Sublist.count_le _ (List.Sublist.drop ?_ _)
      rw [take_add_one]
      exact sublist_append_left _ _

/-- Where the suffix longer than the window by a byte starts. -/
def byteStart (bytes : List UInt8) (limits : OutputLimits) : Nat :=
  if limits.maxBytes < bytes.length then characterEnd bytes (bytes.length - limits.maxBytes - 1)
  else 0

theorem tailMargin_eq (t : Text) (limits : OutputLimits) :
    tailMargin t limits =
      if max (byteStart (encode t) limits)
          (marginLines (encode t) limits.maxLines 0 (encode t).length) = 0 then t
      else decode ((encode t).drop (max (byteStart (encode t) limits)
        (marginLines (encode t) limits.maxLines 0 (encode t).length))) := rfl

/-- **What a snapshot keeps of a tail**: all of it, or a suffix of its bytes that is longer than the
window. -/
theorem tailMargin_cases (t : Text) (limits : OutputLimits) :
    tailMargin t limits = t ∨
      ∃ cs front, tailMargin t limits = Utf8.units cs ∧ encode t = front ++ Utf8.encodeChars cs ∧
        ExceedsBytes limits (Utf8.encodeChars cs) := by
  have byBytes : ∀ i, i ≠ 0 → i = byteStart (encode t) limits →
      Utf8.IsStart (encode t) i ∧ ExceedsBytes limits ((encode t).drop i) := by
    rintro i later rfl
    unfold byteStart at later ⊢
    split_ifs at later ⊢ with long
    · have low := characterEnd_le (encode t) ((encode t).length - limits.maxBytes - 1)
      refine ⟨characterEnd_first later, .inl ?_⟩
      rw [length_drop]
      omega
    · exact absurd rfl later
  have byLines : ∀ i, i ≠ 0 → i = marginLines (encode t) limits.maxLines 0 (encode t).length →
      Utf8.IsStart (encode t) i ∧ ExceedsBytes limits ((encode t).drop i) := by
    rintro i later rfl
    obtain ⟨newline, enough⟩ := marginLines_spec later
    rw [take_length, Nat.zero_add] at enough
    refine ⟨fun b found => ?_, .inr enough⟩
    rw [newline] at found
    cases found
    decide
  rw [tailMargin_eq]
  split_ifs with start
  · exact .inl rfl
  · refine .inr ?_
    obtain ⟨first, exceeds⟩ := (Nat.le_total (byteStart (encode t) limits)
      (marginLines (encode t) limits.maxLines 0 (encode t).length)).elim
      (fun order => byLines _ start (Nat.max_eq_right order))
      (fun order => byBytes _ start (Nat.max_eq_left order))
    obtain ⟨_, cs, _, rest⟩ := Utf8.drop_encodeChars first
    rw [← encode] at rest
    rw [rest] at exceeds
    exact ⟨cs, _, by rw [rest, Utf8.decode_encodeChars],
      by rw [← rest]; exact (take_append_drop _ _).symm, exceeds⟩

end TianGong.Output

/-
**A stream that is cut inside a surrogate pair is never bounded right.**

Each half of a cut pair is counted as three bytes, so the totals are more than the output's. Then a
right number of dropped bytes needs a window longer than the output's own, and a right text leaves
room for control characters only. But a window never stops short of a control character it has room
for: it stops at a newline or at the byte limit.

* `window_tail_le`, `window_head_le`: what a window with the right text can hold.
* `final_eq_iff`: the bounded output is given exactly when no pair is cut and no head window with a
  lone surrogate ends at a cut.
-/

import TianGong.Output.Bound
import TianGong.Output.Worn

namespace TianGong.Output

open Utf8 (encode decode encodeChars isContinuation IsStart EndsLead StartsTrail Splits
  encode_append isStart_zero)
open List

/-! ### Windows are made of characters -/

theorem tailLines_start {bytes : List UInt8} {maxLines lines i : Nat} :
    tailLines bytes maxLines lines i = 0 ∨
      ∃ j, tailLines bytes maxLines lines i = j + 1 ∧ bytes[j]? = some NEWLINE := by
  induction i generalizing lines with
  | zero => exact .inl rfl
  | succ i ih =>
    rw [tailLines]
    split_ifs with newline last
    · exact .inr ⟨i, rfl, newline⟩
    · exact ih
    · exact ih

variable {bytes : List UInt8}

theorem indexOf_some {start j : Nat} (found : indexOf bytes start = some j) :
    bytes[j]? = some NEWLINE ∧ start ≤ j := by
  obtain ⟨k, inside, rfl⟩ := Option.map_eq_some_iff.mp found
  obtain ⟨short, newline, _⟩ := List.findIdx?_eq_some_iff_getElem.mp inside
  refine ⟨?_, Nat.le_add_right _ _⟩
  rw [← List.getElem?_drop, List.getElem?_eq_getElem short]
  exact congrArg some (beq_iff_eq.mp newline)

theorem lastIndexOf_some {i j : Nat} (found : lastIndexOf bytes i = some j) :
    bytes[j]? = some NEWLINE := by
  induction i with
  | zero =>
    rw [lastIndexOf] at found
    split_ifs at found with newline
    cases found
    exact newline
  | succ i ih =>
    rw [lastIndexOf] at found
    split_ifs at found with newline
    · cases found
      exact newline
    · exact ih found

theorem characterStart_start (bytes : List UInt8) (i : Nat) : IsStart bytes (characterStart bytes i) := by
  intro b found
  rw [characterStart, ← List.getElem?_drop] at found
  have rest : (bytes.drop i).takeWhile isContinuation ++ (bytes.drop i).dropWhile isContinuation =
      bytes.drop i := takeWhile_append_dropWhile
  rw [← rest, List.getElem?_append_right (by rw [rest]), rest, Nat.sub_self,
    ← List.head?_eq_getElem?] at found
  exact Bool.eq_false_iff.mpr (List.head?_dropWhile_not isContinuation _ |> fun not => by
    rw [found] at not
    simpa using not)

/-- How a tail window starts: with everything, after a newline, or at the byte limit. -/
theorem tailStart_cases (bytes : List UInt8) (limits : OutputLimits) :
    (limits.maxLines = 0 ∨ limits.maxBytes = 0) ∧ tailStart bytes limits = bytes.length ∨
      tailStart bytes limits = 0 ∨
      (∃ j, tailStart bytes limits = j + 1 ∧ bytes[j]? = some NEWLINE) ∨
      tailStart bytes limits = characterStart bytes (bytes.length - limits.maxBytes) := by
  unfold tailStart
  split_ifs with none
  · exact .inl ⟨none, rfl⟩
  dsimp only
  split_ifs with long
  · unfold byteCut
    split
    · exact .inr (.inr (.inr rfl))
    · rename_i j found
      split_ifs
      · exact .inr (.inr (.inl ⟨j, rfl, (indexOf_some found).1⟩))
      · exact .inr (.inr (.inr rfl))
  · rcases @tailLines_start bytes limits.maxLines 1 (tailBelow bytes) with zero | newline
    · exact .inr (.inl zero)
    · exact .inr (.inr (.inl newline))

theorem isStart_tailStart (cs : List Char) (limits : OutputLimits) :
    IsStart (encodeChars cs) (tailStart (encodeChars cs) limits) := by
  rcases tailStart_cases (encodeChars cs) limits with ⟨_, all⟩ | zero | ⟨j, after, newline⟩ | cut
  · intro b found
    rw [all, List.getElem?_eq_none (Nat.le_refl _)] at found
    cases found
  · rw [zero]
    exact isStart_zero cs
  · rw [after]
    exact Utf8.isStart_after_newline newline
  · rw [cut]
    exact characterStart_start _ _

/-- How a head window ends: with everything, after a newline, or at the byte limit. -/
theorem headEnd_cases (bytes : List UInt8) (limits : OutputLimits) :
    (limits.maxLines = 0 ∨ limits.maxBytes = 0) ∧ headEnd bytes limits = 0 ∨
      headEnd bytes limits = bytes.length ∨
      (∃ j, headEnd bytes limits = j + 1 ∧ bytes[j]? = some NEWLINE) ∨
      headEnd bytes limits = characterEnd bytes limits.maxBytes := by
  unfold headEnd
  split_ifs with none long
  · exact .inl ⟨none, rfl⟩
  · cases found : lastIndexOf bytes (limits.maxBytes - 1) with
    | none => exact .inr (.inr (.inr rfl))
    | some j => exact .inr (.inr (.inl ⟨j, rfl, lastIndexOf_some found⟩))
  · unfold lineEnd
    cases found : headLines limits.maxLines 0 0 bytes with
    | none => exact .inr (.inl rfl)
    | some e =>
      obtain ⟨a, b, rfl, _, rfl⟩ := headLines_some found
      refine .inr (.inr (.inl ⟨a.length, by rw [Option.getD_some, Nat.zero_add], ?_⟩))
      rw [List.getElem?_append_right (Nat.le_refl _), Nat.sub_self]
      rfl

theorem isStart_headEnd (cs : List Char) (limits : OutputLimits) :
    IsStart (encodeChars cs) (headEnd (encodeChars cs) limits) := by
  rcases headEnd_cases (encodeChars cs) limits with ⟨_, zero⟩ | all | ⟨j, after, newline⟩ | cut
  · rw [zero]
    exact isStart_zero cs
  · intro b found
    rw [all, List.getElem?_eq_none (Nat.le_refl _)] at found
    cases found
  · rw [after]
    exact Utf8.isStart_after_newline newline
  · rw [cut]
    by_cases zero : characterEnd (encodeChars cs) limits.maxBytes = 0
    · rw [zero]
      exact isStart_zero cs
    · exact characterEnd_first zero

/-! ### A window has no room left -/

variable {limits : OutputLimits}

theorem tailStart_length_le : bytes.length - tailStart bytes limits ≤ limits.maxBytes := by
  unfold tailStart
  split_ifs with none
  · rw [Nat.sub_self]
    exact Nat.zero_le _
  dsimp only
  split_ifs with long
  · have cut : bytes.length - limits.maxBytes ≤ byteCut bytes limits.maxBytes := by
      have start : bytes.length - limits.maxBytes ≤
          characterStart bytes (bytes.length - limits.maxBytes) := Nat.le_add_right _ _
      unfold byteCut
      split
      · exact start
      · rename_i j found
        have := (indexOf_some found).2
        split_ifs
        · omega
        · exact start
    omega
  · exact Nat.le_of_not_lt long

theorem characterStart_le_start {bytes : List UInt8} {i j : Nat} (order : i ≤ j)
    (inside : j < bytes.length) (start : IsStart bytes j) : characterStart bytes i ≤ j := by
  by_contra past
  rw [characterStart, Nat.not_le] at past
  have within : j - i < ((bytes.drop i).takeWhile isContinuation).length := by omega
  have member := getElem_mem within
  have cont := mem_takeWhile_imp member
  have same : ((bytes.drop i).takeWhile isContinuation)[j - i] = bytes[j] := by
    have front := (List.takeWhile_prefix isContinuation (l := bytes.drop i)).getElem within
    rw [front, getElem_drop]
    congr 1
    omega
  rw [same, start _ (List.getElem?_eq_getElem inside)] at cont
  cases cont

theorem start_le_characterEnd {i j : Nat} (order : j ≤ i) (start : IsStart bytes j) :
    j ≤ characterEnd bytes i := by
  induction i with
  | zero => exact order
  | succ i ih =>
    rw [characterEnd]
    split_ifs with inside
    · refine ih (Nat.le_of_lt_succ (Nat.lt_of_le_of_ne order ?_))
      rintro rfl
      rw [getD_eq_getElem?_getD] at inside
      cases found : bytes[i + 1]? with
      | none =>
        rw [found] at inside
        exact absurd inside (by decide)
      | some b =>
        rw [found, Option.getD_some, start b found] at inside
        cases inside
    · exact order

/-- **A tail window does not start right after a character it has room for**, unless that is a
newline. -/
theorem tailStart_room {front m W : List UInt8} (lines : limits.maxLines ≠ 0) (nonempty : m ≠ [])
    (start : IsStart (front ++ m ++ W) front.length) (plain : NEWLINE ∉ m)
    (room : m.length + W.length ≤ limits.maxBytes) :
    tailStart (front ++ m ++ W) limits ≠ front.length + m.length := by
  have long := length_pos_of_ne_nil nonempty
  have total : (front ++ m ++ W).length = front.length + m.length + W.length := by
    rw [length_append, length_append]
  intro here
  rcases tailStart_cases (front ++ m ++ W) limits with ⟨none, _⟩ | zero | ⟨j, after, newline⟩ | cut
  · rcases none with none | none <;> omega
  · omega
  · have last : j = front.length + (m.length - 1) := by omega
    rw [last, append_assoc, List.getElem?_append_right (Nat.le_add_right _ _),
      Nat.add_sub_cancel_left, List.getElem?_append_left (by omega)] at newline
    exact plain (mem_of_getElem? newline)
  · have below := @characterStart_le_start (front ++ m ++ W)
      ((front ++ m ++ W).length - limits.maxBytes) front.length (by omega) (by omega) start
    omega

/-- **A head window does not end right before a character it has room for**, unless it ends with a
newline. -/
theorem headEnd_room {W m rest : List UInt8} (lines : limits.maxLines ≠ 0) (nonempty : m ≠ [])
    (start : IsStart (W ++ m ++ rest) (W.length + m.length))
    (room : W.length + m.length ≤ limits.maxBytes)
    (here : headEnd (W ++ m ++ rest) limits = W.length) : W.getLast? = some NEWLINE := by
  have long := length_pos_of_ne_nil nonempty
  have total : (W ++ m ++ rest).length = W.length + m.length + rest.length := by
    rw [length_append, length_append]
  rcases headEnd_cases (W ++ m ++ rest) limits with ⟨none, _⟩ | all | ⟨j, after, newline⟩ | cut
  · rcases none with none | none <;> omega
  · omega
  · have last : j = W.length - 1 := by omega
    have inside : W.length - 1 < W.length := by omega
    rw [last, append_assoc, List.getElem?_append_left inside] at newline
    rw [List.getLast?_eq_getElem?]
    exact newline
  · have above := start_le_characterEnd room start
    omega

/-! ### The text of a window -/

variable {t : Text}

theorem tail_text (retain : limits.retain = .tail) :
    ∃ q r, t = q ++ r ∧ Worn (boundOutput t limits).text r ∧
      encode (boundOutput t limits).text = window t limits ∧
      (q = [] ∨ ∃ a, Utf8.wellFormed t = a ++ (boundOutput t limits).text) := by
  have start := isStart_tailStart (Utf8.scalars t) limits
  rw [← encode] at start
  obtain ⟨es, ds, chars, rest⟩ := Utf8.drop_encodeChars start
  rw [← encode] at rest
  have kept : window t limits = encodeChars ds := by rw [window, retain, ← rest]
  rw [boundOutput_eq]
  dsimp only
  by_cases whole : (window t limits).length = (encode t).length
  · rw [if_pos whole]
    refine ⟨[], t, rfl, .refl t, ?_, .inl rfl⟩
    have cut : window t limits = (encode t).drop (tailStart (encode t) limits) := by
      rw [window, retain]
    rw [cut] at whole ⊢
    rw [length_drop] at whole
    have inside := tailStart_le (encode t) limits
    rcases Nat.eq_zero_or_pos (encode t).length with empty | some
    · rw [length_eq_zero_iff] at empty
      rw [empty, drop_nil]
    · rw [show tailStart (encode t) limits = 0 by omega, drop_zero]
  · rw [if_neg whole, kept, Utf8.decode_encodeChars]
    have shown : Utf8.wellFormed t = Utf8.units es ++ Utf8.units ds := by
      rw [Utf8.wellFormed, chars, Utf8.units_append]
    have worn := worn_wellFormed t
    rw [shown] at worn
    obtain ⟨q, r, shape, _, back⟩ := worn.split
    exact ⟨q, r, shape, back, Utf8.encode_units ds, .inr ⟨_, shown⟩⟩

theorem head_text (retain : limits.retain = .head) :
    ∃ q r, t = q ++ r ∧ Worn (boundOutput t limits).text q ∧
      encode (boundOutput t limits).text = window t limits ∧
      (r = [] ∨ ∃ a, Utf8.wellFormed t = (boundOutput t limits).text ++ a) := by
  have start := isStart_headEnd (Utf8.scalars t) limits
  rw [← encode] at start
  obtain ⟨es, ds, chars, rest⟩ := Utf8.take_encodeChars start
  rw [← encode] at rest
  have kept : window t limits = encodeChars es := by rw [window, retain, ← rest]
  rw [boundOutput_eq]
  dsimp only
  by_cases whole : (window t limits).length = (encode t).length
  · rw [if_pos whole]
    refine ⟨t, [], (append_nil t).symm, .refl t, ?_, .inl rfl⟩
    have cut : window t limits = (encode t).take (headEnd (encode t) limits) := by
      rw [window, retain]
    rw [cut] at whole ⊢
    rw [length_take] at whole
    rw [take_of_length_le (by omega)]
  · rw [if_neg whole, kept, Utf8.decode_encodeChars]
    have shown : Utf8.wellFormed t = Utf8.units es ++ Utf8.units ds := by
      rw [Utf8.wellFormed, chars, Utf8.units_append]
    have worn := worn_wellFormed t
    rw [shown] at worn
    obtain ⟨q, r, shape, front, _⟩ := worn.split
    exact ⟨q, r, shape, front, Utf8.encode_units es, .inr ⟨_, shown⟩⟩

/-! ### Control characters -/

theorem invalid_plain {u : UInt16} (invalid : INVALID_OUTPUT u = true) :
    isLead u = false ∧ isTrail u = false ∧ u ≠ 0x0A := by
  simp only [INVALID_OUTPUT, Bool.or_eq_true, Bool.and_eq_true, decide_eq_true_eq,
    UInt16.le_iff_toNat_le, UInt16.reduceToNat] at invalid
  refine ⟨Utf8.not_lead (by omega), Utf8.not_trail (by omega), ?_⟩
  rintro rfl
  simp only [UInt16.reduceToNat] at invalid
  omega

variable {x : Text}

theorem controls_not_endsLead (control : ∀ u ∈ x, INVALID_OUTPUT u = true) : ¬EndsLead x := by
  rintro ⟨u, last, lead⟩
  rw [(invalid_plain (control u (mem_of_getLast? last))).1] at lead
  cases lead

theorem controls_not_startsTrail (control : ∀ u ∈ x, INVALID_OUTPUT u = true) : ¬StartsTrail x := by
  rintro ⟨u, first, trail⟩
  rw [(invalid_plain (control u (mem_of_head? first))).2.1] at trail
  cases trail

theorem controls_count (control : ∀ u ∈ x, INVALID_OUTPUT u = true) : x.count 0x0A = 0 :=
  List.count_eq_zero.mpr fun member => (invalid_plain (control _ member)).2.2 rfl

/-- The bytes of a control character. -/
theorem control_bytes {u : UInt16} (invalid : INVALID_OUTPUT u = true) :
    encode [u] ≠ [] ∧ NEWLINE ∉ encode [u] := by
  refine ⟨mt Utf8.encode_eq_nil.mp (cons_ne_nil u []), fun member => ?_⟩
  have lines := Utf8.count_encode [u]
  rw [controls_count (by simpa using invalid)] at lines
  exact List.count_eq_zero.mp lines member

theorem isStart_append (a b : Text) : IsStart (encode a ++ encode b) (encode a).length := by
  intro d found
  rw [List.getElem?_append_right (Nat.le_refl _), Nat.sub_self] at found
  exact isStart_zero (Utf8.scalars b) d found

/-! ### Windows with the same sanitized text -/

theorem length_window_tail (retain : limits.retain = .tail) :
    (window t limits).length = (encode t).length - tailStart (encode t) limits := by
  rw [window, retain]
  exact length_drop

theorem length_window_head (retain : limits.retain = .head) :
    (window t limits).length = headEnd (encode t) limits := by
  rw [window, retain]
  exact length_take_of_le ((headEnd_le _ _).2.trans (lineEnd_le _ _))

variable {D : Text}

/-- The kept part of a text, where the cut splits no pair. -/
theorem encode_kept_tail {qd rd : Text} (shape : D = qd ++ rd) (whole : ¬Splits qd rd)
    (nonempty : qd ≠ []) (worn : Worn (boundOutput D limits).text rd)
    (size : encode (boundOutput D limits).text = window D limits)
    (shown : qd = [] ∨ ∃ a, Utf8.wellFormed D = a ++ (boundOutput D limits).text) :
    encode rd = window D limits := by
  obtain ⟨a, shown⟩ := shown.resolve_left nonempty
  rw [shape, Utf8.wellFormed_append whole, ← shape] at shown
  have length : (Utf8.wellFormed rd).length = (boundOutput D limits).text.length := by
    rw [Utf8.length_wellFormed]
    exact worn.length_eq.symm
  rw [← size, ← (append_inj' shown length).2, Utf8.encode_wellFormed]

theorem encode_kept_head {qd rd : Text} (shape : D = qd ++ rd) (whole : ¬Splits qd rd)
    (nonempty : rd ≠ []) (worn : Worn (boundOutput D limits).text qd)
    (size : encode (boundOutput D limits).text = window D limits)
    (shown : rd = [] ∨ ∃ a, Utf8.wellFormed D = (boundOutput D limits).text ++ a) :
    encode qd = window D limits := by
  obtain ⟨a, shown⟩ := shown.resolve_left nonempty
  rw [shape, Utf8.wellFormed_append whole, ← shape] at shown
  have length : (Utf8.wellFormed qd).length = (boundOutput D limits).text.length := by
    rw [Utf8.length_wellFormed]
    exact worn.length_eq.symm
  rw [← size, ← (append_inj shown length).1, Utf8.encode_wellFormed]

/-- **A tail with the right text is no longer than the output's window.** -/
theorem window_tail_le {s q r : Text} (retain : limits.retain = .tail) (stream : D = q ++ r)
    (worn : Worn s r)
    (same : sanitizeOutput (boundOutput s limits).text =
      sanitizeOutput (boundOutput D limits).text) :
    (window s limits).length ≤ (window D limits).length := by
  by_contra longer
  rw [Nat.not_le] at longer
  have bytes : (window s limits).length ≤ limits.maxBytes := by
    rw [length_window_tail retain]
    exact tailStart_length_le
  have lines : limits.maxLines ≠ 0 := by
    intro zero
    have empty := length_window_tail (t := s) retain
    rw [tailStart, if_pos (.inl zero), Nat.sub_self] at empty
    omega
  obtain ⟨qs, rs, rfl, wornS, sizeS, _⟩ := tail_text (t := s) retain
  obtain ⟨x, y, rfl, _, back⟩ := worn.split
  obtain ⟨qd, rd, shape, wornD, sizeD, shown⟩ := tail_text (t := D) retain
  have wornS := wornS.trans back
  have two := stream.symm.trans shape
  rw [← append_assoc] at two
  rcases List.append_eq_append_iff.mp two with ⟨a, front, rest⟩ | ⟨c, _, rest⟩
  · subst rest
    obtain ⟨text, control⟩ := aligned_suffix wornS wornD same
    have size := sizeS
    rw [text, encode_append fun splits => controls_not_endsLead control splits.1, sizeD] at size
    rcases eq_nil_or_concat a with rfl | ⟨a', u, rfl⟩
    · rw [Utf8.encode_nil, nil_append] at size
      rw [size] at longer
      exact Nat.lt_irrefl _ longer
    -- The output's window starts right after the control character `u`, for which there is room.
    rw [concat_eq_append] at front control size
    have invalid : INVALID_OUTPUT u = true := control u (by simp)
    have plain := invalid_plain invalid
    have before : ∀ g : Text, ¬Splits g [u] := fun g splits =>
      controls_not_startsTrail (by simpa using invalid) splits.2
    have ends : ¬EndsLead [u] := controls_not_endsLead (by simpa using invalid)
    have front : qd = (q ++ x ++ a') ++ [u] := by rw [front, append_assoc (q ++ x)]
    have whole : ¬Splits qd rd := fun splits => by
      rw [front] at splits
      exact ends ((Utf8.endsLead_append (cons_ne_nil u [])).mp splits.1)
    have kept := encode_kept_tail shape whole (by rw [front]; simp) wornD sizeD shown
    have encoded : encode D = encode (q ++ x ++ a') ++ encode [u] ++ window D limits := by
      have joined : encode D = encode qd ++ encode rd := by rw [shape, encode_append whole]
      rw [joined, front, encode_append (before _), kept]
    have start := isStart_append (q ++ x ++ a') ([u] ++ rd)
    rw [encode_append fun splits => ends splits.1, kept, ← append_assoc, ← encoded] at start
    have room : (encode [u]).length + (window D limits).length ≤ limits.maxBytes := by
      rw [encode_append (before a')] at size
      have := congrArg List.length size
      simp only [length_append] at this
      omega
    have ended := length_window_tail (t := D) retain
    have within := tailStart_le (encode D) limits
    rw [encoded] at start ended within
    refine tailStart_room lines (control_bytes invalid).1 start (control_bytes invalid).2 room ?_
    simp only [length_append] at ended within
    omega
  · subst rest
    obtain ⟨text, control⟩ := aligned_suffix wornD wornS same.symm
    rw [text, encode_append fun splits => controls_not_endsLead control splits.1, sizeS] at sizeD
    rw [← sizeD, length_append] at longer
    omega

/-- More text after a newline is another line. -/
theorem lineCount_more {W m : List UInt8} (ends : W.getLast? = some NEWLINE) (nonempty : m ≠ [])
    (plain : NEWLINE ∉ m) : lineCount (W ++ m) = lineCount W + 1 := by
  have long := length_pos_of_ne_nil nonempty
  have before : ¬W.length = 0 := by
    rw [length_eq_zero_iff]
    rintro rfl
    cases ends
  have joined : ¬(W ++ m).length = 0 := by
    rw [length_append]
    omega
  have last : m.getLast? ≠ some NEWLINE := fun last => plain (mem_of_getLast? last)
  have nothing := List.count_eq_zero.mpr plain
  unfold lineCount
  rw [if_neg before, if_neg joined, List.getLast?_append_of_ne_nil _ nonempty, if_neg last,
    if_pos ends, count_append, nothing]

/-- **A head with the right text is no longer than the output's window**, or has a line more. -/
theorem window_head_le {s z : Text} (retain : limits.retain = .head) (stream : D = s ++ z)
    (same : sanitizeOutput (boundOutput s limits).text =
      sanitizeOutput (boundOutput D limits).text) :
    (window s limits).length ≤ (window D limits).length ∨
      lineCount (window D limits) < lineCount (window s limits) ∧
        lineCount (window s limits) ≤ lineCount (encode D) := by
  rw [or_iff_not_imp_left, Nat.not_le]
  intro longer
  have bytes : (window s limits).length ≤ limits.maxBytes := by
    rw [length_window_head retain]
    exact (headEnd_le _ _).1
  have lines : limits.maxLines ≠ 0 := by
    intro zero
    have empty := length_window_head (t := s) retain
    rw [headEnd, if_pos (.inl zero)] at empty
    omega
  obtain ⟨qs, rs, rfl, wornS, sizeS, _⟩ := head_text (t := s) retain
  obtain ⟨qd, rd, shape, wornD, sizeD, shown⟩ := head_text (t := D) retain
  have two := stream.symm.trans shape
  rw [append_assoc] at two
  rcases List.append_eq_append_iff.mp two with ⟨a, front, rest⟩ | ⟨a, front, rest⟩
  · subst front
    obtain ⟨text, control⟩ := aligned_prefix wornD wornS same.symm
    rw [text, encode_append fun splits => controls_not_startsTrail control splits.2, sizeS]
      at sizeD
    rw [← sizeD, length_append] at longer
    omega
  · subst front
    obtain ⟨text, control⟩ := aligned_prefix wornS wornD same
    have size := sizeS
    rw [text, encode_append fun splits => controls_not_startsTrail control splits.2, sizeD]
      at size
    cases a with
    | nil =>
      rw [Utf8.encode_nil, append_nil] at size
      rw [size] at longer
      exact absurd longer (Nat.lt_irrefl _)
    | cons u a' =>
      -- The output's window ends right before the control character `u`, for which there is room.
      have invalid : INVALID_OUTPUT u = true := control u mem_cons_self
      have later : ∀ g : Text, ¬StartsTrail (u :: g) := by
        rintro g ⟨v, first, trail⟩
        cases first
        rw [(invalid_plain invalid).2.1] at trail
        cases trail
      have after : ∀ g : Text, ¬Splits [u] g := fun g splits =>
        controls_not_endsLead (by simpa using invalid) splits.1
      have cons : ∀ g : Text, encode (u :: g) = encode [u] ++ encode g := fun g =>
        encode_append (after g)
      have rest : rd = u :: (a' ++ (rs ++ z)) := rest
      have whole : ¬Splits qd rd := fun splits => later _ (rest ▸ splits.2)
      have kept := encode_kept_head shape whole (by rw [rest]; simp) wornD sizeD shown
      have encoded : encode D = window D limits ++ encode [u] ++ encode (a' ++ (rs ++ z)) := by
        have joined : encode D = encode qd ++ encode rd := by rw [shape, encode_append whole]
        rw [joined, rest, cons, kept, append_assoc]
      have widths := congrArg List.length size
      rw [cons] at size widths
      simp only [length_append] at widths
      have room : (window D limits).length + (encode [u]).length ≤ limits.maxBytes := by omega
      have start := isStart_append (qd ++ [u]) (a' ++ (rs ++ z))
      rw [encode_append fun splits => later [] splits.2, kept, ← encoded, length_append] at start
      have here : headEnd (encode D) limits = (window D limits).length :=
        (length_window_head retain).symm
      rw [encoded] at start here
      have line := headEnd_room lines (control_bytes invalid).1 start room here
      have plain : NEWLINE ∉ encode [u] ++ encode a' := by
        rw [← cons]
        refine List.count_eq_zero.mp ?_
        rw [show NEWLINE = 0x0A from rfl, Utf8.count_encode, controls_count control]
      have some : encode [u] ++ encode a' ≠ [] := fun nothing =>
        (control_bytes invalid).1 (List.append_eq_nil_iff.mp nothing).1
      refine ⟨?_, ?_⟩
      · rw [← size, lineCount_more line some plain]
        exact Nat.lt_succ_self _
      · have part := lineCount_take_le (encode D) (window D limits ++ encode [u]).length
        rw [encoded, take_left, ← encoded,
          lineCount_more line (control_bytes invalid).1 (control_bytes invalid).2] at part
        rw [← size, lineCount_more line some plain]
        exact part

/-! ### Totals when pairs are cut -/

/-- **The halves of a pair are counted as six bytes**, the pair as four. -/
theorem length_encode_splits {a b : Text} (splits : Splits a b) :
    (encode a).length + (encode b).length = (encode (a ++ b)).length + 2 := by
  obtain ⟨⟨u, last, lead⟩, v, first, trail⟩ := splits
  obtain ⟨a, rfl⟩ := List.getLast?_eq_some_iff.mp last
  obtain ⟨b, rfl⟩ := List.head?_eq_some_iff.mp first
  have notTrail : ∀ g : Text, ¬Splits a (u :: g) := by
    rintro g ⟨_, w, found, trail'⟩
    cases found
    have := Utf8.lead_bounds lead
    have := Utf8.trail_bounds trail'
    omega
  have notLead : ¬Splits [v] b := by
    rintro ⟨⟨w, found, lead'⟩, _⟩
    obtain rfl : v = w := by simpa using found
    have := Utf8.lead_bounds lead'
    have := Utf8.trail_bounds trail
    omega
  have half : ∀ w : UInt16, (isLead w || isTrail w) = true → (encode [w]).length = 3 := by
    intro w lone
    have large : 0xD800 ≤ w.toNat := by
      rcases Bool.or_eq_true_iff.mp lone with lead | trail
      · exact (Utf8.lead_bounds lead).1
      · exact (Nat.le_of_lt (by decide)).trans (Utf8.trail_bounds trail).1
    rw [← utf8ByteLength_eq]
    simp only [utf8ByteLength, UInt16.le_iff_toNat_le, UInt16.reduceToNat]
    rw [if_neg (by omega), if_neg (by omega)]
  have pair : (encode (u :: v :: b)).length = 4 + (encode b).length := by
    have both : (isLead u && isTrail v) = true := by rw [lead, trail]; rfl
    rw [encode, Utf8.scalars, if_pos both, Utf8.encodeChars_cons, length_append,
      length_utf8EncodeChar_pairChar both, ← encode]
  have front : encode (a ++ [u]) = encode a ++ encode [u] := encode_append (notTrail [])
  have back : encode (v :: b) = encode [v] ++ encode b := encode_append notLead
  rw [front, back, append_assoc, singleton_append, encode_append (notTrail (v :: b)),
    length_append, length_append, length_append, pair,
    half u (by rw [lead]; rfl), half v (by rw [trail, Bool.or_true])]
  omega

/-- What is stored of `D`: a worn suffix for tail retention, a prefix for head retention. -/
def Keeps (b : OutputBuffer) (D : Text) : Prop :=
  b.limits.retain = .tail ∧ b.full = false ∧ (∃ q r, D = q ++ r ∧ Worn b.stored r) ∨
    b.limits.retain = .head ∧ b.stored <+: D ∧ (b.full = false → b.stored = D)

/-- What holds of a buffer after any pushes that stand for `D`; `cut` says that some pair was cut.
-/
structure Loose (b : OutputBuffer) (D : Text) (cut : Prop) : Prop where
  bytes : (encode D).length ≤ b.totalBytes
  more : cut → (encode D).length < b.totalBytes
  newlines : b.totalNewlines = D.count 0x0A
  ends : b.endsWithNewline = (D.isEmpty || endsWithNewline D)
  each : ∀ c ∈ b.chunks, c.newlines = c.text.count 0x0A
  stored : b.storedNewlines = b.stored.count 0x0A
  keeps : Keeps b D

/-- Dropping leading chunks leaves the last of them, with their newlines. -/
theorem dropLeading_suffix (limits : OutputLimits) {chunks : List StoredChunk}
    {bytes newlines : Nat} (each : ∀ c ∈ chunks, c.newlines = c.text.count 0x0A)
    (total : newlines = (texts chunks).count 0x0A) :
    (dropLeading limits chunks bytes newlines).2.2 =
        (texts (dropLeading limits chunks bytes newlines).1).count 0x0A ∧
      ∃ gone, chunks = gone ++ (dropLeading limits chunks bytes newlines).1 := by
  fun_induction dropLeading limits chunks bytes newlines with
  | case1 first second rest bytes newlines keep => exact ⟨total, [], rfl⟩
  | case2 first second rest bytes newlines keep ih =>
    have joined : texts (first :: second :: rest) = first.text ++ texts (second :: rest) := rfl
    have here := each first mem_cons_self
    obtain ⟨counted, gone, shape⟩ := ih (fun c member => each c (mem_cons_of_mem _ member)) (by
      rw [total, joined, count_append, here, Nat.add_sub_cancel_left])
    exact ⟨counted, first :: gone, by rw [cons_append, ← shape]⟩
  | case3 chunks bytes newlines _ => exact ⟨total, [], rfl⟩

/-- More bytes are counted than there are, by two for each pair that is cut. -/
theorem bytes_append {D t : Text} {total : Nat} {cut : Prop} (bytes : (encode D).length ≤ total)
    (more : cut → (encode D).length < total) :
    (encode (D ++ t)).length ≤ total + (encode t).length ∧
      (cut ∨ Splits D t → (encode (D ++ t)).length < total + (encode t).length) := by
  by_cases splits : Splits D t
  · have halves := length_encode_splits splits
    exact ⟨by omega, fun _ => by omega⟩
  · rw [encode_append splits, length_append]
    refine ⟨by omega, fun cuts => ?_⟩
    have := more (cuts.resolve_right splits)
    omega

variable {b : OutputBuffer} {cut : Prop}

/-- **A piece of text is added**, also where it cuts a pair. -/
theorem Loose.accept (loose : Loose b D cut) (t : Text) :
    Loose (b.accept t).2 (D ++ t) (cut ∨ Splits D t) := by
  by_cases empty : t = []
  · subst empty
    rw [accept_nil, append_nil]
    refine ⟨loose.bytes, fun cuts => loose.more (cuts.resolve_right fun splits => ?_),
      loose.newlines, loose.ends, loose.each, loose.stored, loose.keeps⟩
    exact Utf8.not_startsTrail_nil splits.2
  obtain ⟨bytes, newlines, ends⟩ := totals_accept b empty
  obtain ⟨least, more⟩ := @bytes_append D t _ _ loose.bytes loose.more
  have joined : texts (b.chunks ++
      [⟨t, utf8ByteLength t, countNewlines t⟩]) = b.stored ++ t := by
    rw [texts_append, stored_eq]
    exact congrArg _ (append_nil t)
  have each : ∀ c ∈ b.chunks ++
      [⟨t, utf8ByteLength t, countNewlines t⟩],
      c.newlines = c.text.count 0x0A := by
    intro c member
    rcases List.mem_append.mp member with old | new
    · exact loose.each c old
    · rw [List.mem_singleton.mp new, countNewlines]
  have total : b.storedNewlines + countNewlines t = (b.stored ++ t).count 0x0A := by
    rw [loose.stored, count_append, countNewlines]
  have totals : (b.accept t).2.totalNewlines = (D ++ t).count 0x0A := by
    rw [newlines, loose.newlines, count_append]
  have ended : (b.accept t).2.endsWithNewline = ((D ++ t).isEmpty || endsWithNewline (D ++ t)) :=
    ends.trans (endsWithNewline_append empty)
  rw [← bytes] at least more
  rcases loose.keeps with ⟨retain, notFull, q, r, rfl, worn⟩ | ⟨retain, first, open_⟩
  · have accepted := accept_tail retain notFull empty
    have dropped := @dropLeading_suffix b.limits _ (b.storedBytes + utf8ByteLength t)
      (b.storedNewlines + countNewlines t) each (by rw [joined]; exact total)
    generalize b.chunks ++ [⟨t, utf8ByteLength t, countNewlines t⟩] =
      chunks at *
    generalize dropLeading b.limits chunks (b.storedBytes + utf8ByteLength t)
      (b.storedNewlines + countNewlines t) = kept at *
    obtain ⟨counted, gone, shape⟩ := dropped
    have stored : (b.accept t).2.stored = texts kept.1 := by rw [accepted]; rfl
    have longer := worn.append (.refl t)
    rw [← joined, shape, texts_append, ← stored] at longer
    obtain ⟨x, y, rest, _, back⟩ := longer.split
    refine ⟨least, more, totals, ended, ?_, by rw [stored, accepted]; exact counted, .inl ⟨?_, ?_, ?_⟩⟩
    · rw [accepted]
      exact fun c member => each c (by rw [shape]; exact mem_append_right gone member)
    · rw [limits_accept]
      exact retain
    · rw [accepted]
      exact notFull
    · exact ⟨q ++ x, y, by rw [append_assoc, rest, append_assoc], back⟩
  · obtain ⟨stays, grows⟩ := accept_head retain empty
    cases full : b.full with
    | true =>
      obtain ⟨chunks, _, counted, still⟩ := stays full
      have stored : (b.accept t).2.stored = b.stored := by rw [stored_eq, chunks, ← stored_eq]
      refine ⟨least, more, totals, ended, by rw [chunks]; exact loose.each,
        by rw [counted, stored]; exact loose.stored, .inr ⟨?_, ?_, fun not => ?_⟩⟩
      · rw [limits_accept]
        exact retain
      · rw [stored]
        exact first.trans (prefix_append D t)
      · rw [still] at not
        cases not
    | false =>
      obtain ⟨chunks, _, counted, _⟩ := grows full
      have stored : (b.accept t).2.stored = D ++ t := by
        rw [stored_eq, chunks, joined, open_ full]
      refine ⟨least, more, totals, ended, by rw [chunks]; exact each, ?_, .inr ⟨?_, ?_, fun _ => stored⟩⟩
      · rw [counted, stored, ← open_ full]
        exact total
      · rw [limits_accept]
        exact retain
      · exact ⟨[], by rw [stored, append_nil]⟩

/-- Omitted text is counted, also where it cuts a pair. -/
theorem Loose.skip {b : OutputBuffer} {D : Text} {cut : Prop} (loose : Loose b D cut)
    (retain : b.limits.retain = .tail) (e : Text) :
    Loose (b.skip (skipOf e)) (D ++ e) (cut ∨ Splits D e) := by
  by_cases empty : e = []
  · subst empty
    rw [skip_nil, append_nil]
    refine ⟨loose.bytes, fun cuts => loose.more (cuts.resolve_right fun splits => ?_),
      loose.newlines, loose.ends, loose.each, loose.stored, loose.keeps⟩
    exact Utf8.not_startsTrail_nil splits.2
  obtain ⟨least, more⟩ := @bytes_append D e _ _ loose.bytes loose.more
  have notFull : b.full = false := by
    rcases loose.keeps with ⟨_, notFull, _⟩ | ⟨head, _⟩
    · exact notFull
    · rw [retain] at head
      cases head
  rw [skip_some b empty]
  refine ⟨least, more, ?_, endsWithNewline_append empty, fun c member => (by cases member), rfl,
    .inl ⟨retain, notFull, D ++ e, [], (append_nil _).symm, .nil⟩⟩
  dsimp only
  rw [loose.newlines, count_append, countNewlines]

/-- **A snapshot forgets leading text only.** -/
theorem Loose.compact (loose : Loose b D cut) : Loose b.compact D cut := by
  obtain ⟨_, _, bytes, newlines, ends⟩ := compact_keeps b
  rcases loose.keeps with ⟨retain, notFull, q, r, rfl, worn⟩ | ⟨retain, first, open_⟩
  · obtain ⟨stored, measures, limits, full⟩ := compact_tail retain
    refine ⟨bytes ▸ loose.bytes, bytes ▸ loose.more, newlines.trans loose.newlines,
      ends.trans loose.ends, fun c member => (measures.each c member).2,
      by rw [measures.newlines, stored_eq], .inl ⟨by rw [limits]; exact retain,
        by rw [full]; exact notFull, ?_⟩⟩
    rw [stored]
    rcases tailMargin_cases b.stored b.limits with all | ⟨cs, front, margin, suffix, _⟩
    · rw [all]
      exact ⟨q, r, rfl, worn⟩
    · have start : IsStart (encode b.stored) front.length := by
        intro d found
        rw [suffix, List.getElem?_append_right (Nat.le_refl _), Nat.sub_self] at found
        exact isStart_zero cs d found
      obtain ⟨es, ds, chars, rest⟩ := Utf8.drop_encodeChars start
      rw [← encode, suffix, drop_left] at rest
      have shown : Utf8.wellFormed b.stored = Utf8.units es ++ Utf8.units cs := by
        have same : Utf8.units cs = Utf8.units ds := by
          rw [← Utf8.decode_encodeChars, rest, Utf8.decode_encodeChars]
        rw [Utf8.wellFormed, chars, Utf8.units_append, same]
      have whole := worn_wellFormed b.stored
      rw [shown] at whole
      obtain ⟨x, y, parts, _, back⟩ := (whole.trans worn).split
      exact ⟨q ++ x, y, by rw [append_assoc, parts], by rw [margin]; exact back⟩
  · obtain ⟨stored, each, counted, limits, full⟩ := compact_head_lines retain loose.each loose.stored
    refine ⟨bytes ▸ loose.bytes, bytes ▸ loose.more, newlines.trans loose.newlines,
      ends.trans loose.ends, each, by rw [counted, stored], .inr ⟨?_, ?_, ?_⟩⟩
    · rw [limits]
      exact retain
    · rw [stored]
      exact first
    · rw [full, stored]
      exact open_

/-! ### Runs that cut pairs -/

theorem incoming_loose (loose : Loose b D cut) (chunk : Chunk) (skipping : Bool) :
    Loose (b.incoming chunk skipping).2.2 D cut := by
  rw [incoming_store]
  exact ⟨loose.bytes, loose.more, loose.newlines, loose.ends, loose.each, loose.stored, loose.keeps⟩

theorem Loose.mono {cut' : Prop} (loose : Loose b D cut) (less : cut' → cut) : Loose b D cut' :=
  ⟨loose.bytes, fun cuts => loose.more (less cuts), loose.newlines, loose.ends, loose.each,
    loose.stored, loose.keeps⟩

/-- A buffer after some pushes, cut pairs or not. -/
structure Follows (b : OutputBuffer) (ps : List Pushed) : Prop where
  tracks : Tracks b (received ps)
  loose : Loose b (received ps).text (SplitsPair ps)

variable {ps : List Pushed}

/-- A cut is made by an earlier push or by the last. -/
theorem SplitsPair.concat {p : Pushed} (splits : SplitsPair (ps ++ [p])) :
    SplitsPair ps ∨ (received ps).Cuts p := by
  obtain ⟨before, p', later, shape, cuts⟩ := splits
  rcases eq_nil_or_concat later with rfl | ⟨later, last, rfl⟩
  · obtain ⟨rfl, same⟩ := append_inj' shape rfl
    cases same
    exact .inr cuts
  · rw [concat_eq_append, ← cons_append, ← append_assoc] at shape
    exact .inl ⟨before, p', later, (append_inj' shape rfl).1, cuts⟩

/-- What ends a run of bytes ends no pair. -/
theorem splits_of_ending {r : Received} (splits : Splits (r.text ++ ending r) t) :
    Splits r.text (ending r ++ t) := by
  rcases splits.1.append with inside | ⟨blank, ends⟩
  · exact absurd inside (Utf8.not_endsLead_units _)
  · rw [blank, nil_append]
    exact ⟨ends, splits.2⟩

theorem Follows.push_none {chunk : Chunk} (follows : Follows b ps) :
    Follows (b.push chunk none).2 (ps ++ [⟨chunk, none⟩]) := by
  refine ⟨follows.tracks.push_none chunk, ?_⟩
  rw [text_push_none follows.tracks, Output.push_none]
  refine ((incoming_loose follows.loose chunk false).accept _).mono fun splits => ?_
  rcases splits.concat with earlier | (omitted | ⟨t, rfl, cuts⟩)
  · exact .inl earlier
  · exact absurd omitted.2 Utf8.not_startsTrail_nil
  · refine .inr ?_
    rw [incoming_string follows.tracks]
    rw [show Option.getD none ([] : Text) = [] from rfl, append_nil] at cuts
    exact splits_of_ending cuts

theorem Follows.push_some {chunk : Chunk} {e : Text} (follows : Follows b ps)
    (retain : b.limits.retain = .tail) :
    Follows (b.push chunk (some (skipOf e))).2 (ps ++ [⟨chunk, some e⟩]) := by
  have loose := incoming_loose follows.loose chunk true
  have keeps : (b.incoming chunk true).2.2.limits.retain = .tail := by
    rw [incoming_store]
    exact retain
  have read : ∀ t, chunk = .string t → (b.incoming chunk true).2.1 = t := by
    rintro t rfl
    rfl
  refine ⟨follows.tracks.push_some retain chunk e, ?_⟩
  rw [text_push_some follows.tracks, Output.push_some retain, incoming_skip follows.tracks chunk]
  refine (((loose.accept _).skip (by rw [limits_accept]; exact keeps) e).accept _).mono ?_
  intro splits
  rcases splits.concat with earlier | (omitted | ⟨t, is, cuts⟩)
  · exact .inl (.inl (.inl earlier))
  · exact .inl (.inr omitted)
  · rw [read t is]
    exact .inr cuts

/-- **Every run of a buffer follows its pushes.** -/
theorem follows_run {events : List OutputEvent} (declared : Declared limits (pushes events)) :
    Follows (bufferAfter limits events) (pushes events) := by
  refine follows_events (Declared limits) (fun ps p => declared_left) (fun _ => ?_)
    (fun b ps follows => ⟨follows.tracks.snapshot, follows.loose.compact⟩)
    (fun b ps p same declared follows => ?_) declared
  · refine ⟨tracks_empty limits,
      ⟨Nat.le_refl 0, ?_, rfl, rfl, fun c member => (by cases member), rfl, ?_⟩⟩
    · rintro ⟨before, p, later, shape, _⟩
      exact absurd (congrArg List.length shape) (by simp)
    · cases retain : limits.retain with
      | tail => exact .inl ⟨retain, rfl, [], [], rfl, .nil⟩
      | head => exact .inr ⟨retain, prefix_refl [], fun _ => rfl⟩
  · obtain ⟨chunk, omitted⟩ := p
    cases omitted with
    | none => exact follows.push_none
    | some e =>
      refine follows.push_some ?_
      rw [same]
      exact (declared ⟨chunk, some e⟩ (by simp) rfl).1

/-- **A buffer that counts too much never gives the bounded output.** -/
theorem Loose.snapshot_ne (loose : Loose b D cut) (cuts : cut) :
    b.snapshot.1 ≠ bounded D b.limits := by
  have extra := loose.more cuts
  rw [snapshot_eq loose.newlines loose.ends loose.stored, bounded]
  intro equal
  have same := congrArg BoundedOutput.text equal
  have dropped := congrArg BoundedOutput.droppedBytes equal
  have lines := congrArg BoundedOutput.droppedLines equal
  dsimp only at same
  simp only [boundOutput_eq] at dropped lines
  have within : (window D b.limits).length ≤ (encode D).length := by
    unfold window
    split
    · exact (take_sublist _ _).length_le
    · exact (drop_sublist _ _).length_le
  have counted := lineCount_window_le D b.limits
  rcases loose.keeps with ⟨retain, _, q, r, stream, worn⟩ | ⟨retain, ⟨z, stream⟩, _⟩
  · have short := window_tail_le retain stream worn same
    omega
  · rcases window_head_le retain stream.symm same with short | ⟨more, few⟩
    · omega
    · omega

/-- **Bounding a stream is bounding its output**, exactly when no push cuts a surrogate pair and no
head window with a lone surrogate ends at a cut before the output does. -/
theorem final_eq_iff {limits : OutputLimits} {events : List OutputEvent}
    (declared : Declared limits (pushes events)) :
    finalSnapshot limits events = bounded (output (pushes events)) limits ↔
      ¬SplitsPair (pushes events) ∧ ¬LoneHead limits (pushes events) := by
  by_cases splits : SplitsPair (pushes events)
  · refine iff_of_false ?_ fun right => right.1 splits
    have follows := follows_run declared
    have decoder := follows.tracks.decoder
    have loose : Loose { bufferAfter limits events with decoder := {} }
        (received (pushes events)).text (SplitsPair (pushes events)) :=
      ⟨follows.loose.bytes, follows.loose.more, follows.loose.newlines, follows.loose.ends,
        follows.loose.each, follows.loose.stored, follows.loose.keeps⟩
    have last := (loose.accept (ending (received (pushes events)))).snapshot_ne (.inl splits)
    rw [limits_accept, limits_bufferAfter, ← output_eq] at last
    unfold finalSnapshot OutputBuffer.end_
    rw [decoder]
    exact last
  · rw [final_eq_of_whole declared splits]
    exact ⟨fun plain => ⟨splits, plain⟩, And.right⟩

/-- An omitted text before a chunk that is longer than the window. -/
theorem final_eq_skipped :
    finalSnapshot ⟨2, 1, .tail⟩
        [.push ⟨.string [97], none⟩, .snapshot, .push ⟨.bytes [98, 99, 100], some [120]⟩] =
      bounded (output [⟨.string [97], none⟩, ⟨.bytes [98, 99, 100], some [120]⟩]) ⟨2, 1, .tail⟩ ↔
      ¬SplitsPair [⟨.string [97], none⟩, ⟨.bytes [98, 99, 100], some [120]⟩] ∧
        ¬LoneHead ⟨2, 1, .tail⟩ [⟨.string [97], none⟩, ⟨.bytes [98, 99, 100], some [120]⟩] := by
  have declared : Declared ⟨2, 1, .tail⟩
      [⟨.string [97], none⟩, ⟨.bytes [98, 99, 100], some [120]⟩] := by
    intro p member skips
    rcases List.mem_cons.mp member with rfl | last
    · cases skips
    · rw [List.mem_singleton.mp last]
      exact ⟨rfl, .inl (by decide)⟩
  exact @final_eq_iff ⟨2, 1, .tail⟩
    [.push ⟨.string [97], none⟩, .snapshot, .push ⟨.bytes [98, 99, 100], some [120]⟩] declared

/-- The halves of a pair in two string chunks: two bytes are reported as dropped, of none. -/
theorem final_ne_halves :
    Declared ⟨10, 10, .tail⟩ [⟨.string [0xD83D], none⟩, ⟨.string [0xDE00], none⟩] ∧
      finalSnapshot ⟨10, 10, .tail⟩
          [.push ⟨.string [0xD83D], none⟩, .push ⟨.string [0xDE00], none⟩] ≠
        bounded (output [⟨.string [0xD83D], none⟩, ⟨.string [0xDE00], none⟩]) ⟨10, 10, .tail⟩ := by
  refine ⟨fun p member skips => ?_, fun equal => ?_⟩
  · rcases List.mem_cons.mp member with rfl | last
    · cases skips
    · rw [List.mem_singleton.mp last] at skips
      cases skips
  · have dropped := congrArg BoundedOutput.droppedBytes equal
    revert dropped
    decide +kernel

end TianGong.Output

/-
**What a buffer keeps of a stream.**

A buffer stands for the text `D` that has arrived so far. Its totals count all of `D` (`Counts`),
and what it stores is a suffix of `D`'s bytes for tail retention (`TailStore`) and a prefix of `D`
for head retention (`HeadStore`). Both hold as long as no piece of text splits a surrogate pair.

* `TailStore.skip`, `TailStore.compact`, `HeadStore.compact`: omitted text, and a snapshot.
-/

import TianGong.Output.Window

namespace TianGong.Output

open Utf8 (encode decode EndsLead StartsTrail Splits count_encode encode_append)
open List Bool

/-! ### Counting -/

theorem length_utf8EncodeChar_unitChar (u : UInt16) :
    (String.utf8EncodeChar (Utf8.unitChar u)).length =
      if u ≤ 0x7F then 1 else if u ≤ 0x7FF then 2 else 3 := by
  have bound := u.toNat_lt
  simp only [UInt16.le_iff_toNat_le, UInt16.reduceToNat]
  by_cases lone : (isLead u || isTrail u) = true
  · have high : 0xD800 ≤ u.toNat := by
      rcases Bool.or_eq_true_iff.mp lone with lead | trail
      · exact (Utf8.lead_bounds lead).1
      · exact (Nat.le_of_lt (by decide)).trans (Utf8.trail_bounds trail).1
    rw [Utf8.unitChar, if_pos lone, if_neg (by omega), if_neg (by omega)]
    rfl
  · have valid : u.toNat < 0xD800 ∨ 0xDFFF < u.toNat ∧ u.toNat < 0x110000 := by
      simp only [isLead, isTrail, or_eq_true, and_eq_true, decide_eq_true_eq,
        UInt16.le_iff_toNat_le, UInt16.reduceToNat] at lone
      omega
    have size := Utf8.Decoder.length_encodeChars_ofNat valid
    rw [Utf8.encodeChars, flatMap_singleton] at size
    rw [Utf8.unitChar, if_neg lone, size]
    split_ifs <;> first | rfl | omega

theorem length_utf8EncodeChar_pairChar {u v : UInt16} (pair : (isLead u && isTrail v) = true) :
    (String.utf8EncodeChar (Utf8.pairChar u v)).length = 4 := by
  have first := Utf8.lead_bounds (Bool.and_eq_true_iff.mp pair).1
  have second := Utf8.trail_bounds (Bool.and_eq_true_iff.mp pair).2
  have size := Utf8.Decoder.length_encodeChars_ofNat (n := 0x10000 + (u.toNat - 0xD800) * 0x400 +
    (v.toNat - 0xDC00)) (.inr (by omega))
  rw [Utf8.encodeChars, flatMap_singleton, ← Utf8.pairChar, if_neg (by omega),
    if_neg (by omega), if_neg (by omega)] at size
  exact size

/-- **The counted length is the encoded length.** -/
theorem utf8ByteLength_eq (t : Text) : utf8ByteLength t = (encode t).length := by
  induction t using Utf8.textInduction with
  | nil => rfl
  | single u =>
    rw [encode, Utf8.scalars, Utf8.encodeChars, flatMap_singleton,
      length_utf8EncodeChar_unitChar]
    rfl
  | pair u v rest pair ih =>
    have high := (Utf8.lead_bounds (Bool.and_eq_true_iff.mp pair).1).1
    have large : ∀ bound : UInt16, bound.toNat ≤ 0x7FF → ¬u ≤ bound := fun bound small le => by
      have := UInt16.le_iff_toNat_le.mp le
      omega
    rw [encode, Utf8.scalars, if_pos pair, Utf8.encodeChars_cons, length_append,
      length_utf8EncodeChar_pairChar pair, ← encode, ← ih, utf8ByteLength,
      if_neg (large _ (by decide)), if_neg (large _ (by decide)), if_pos pair]
  | lone u v rest apart ih =>
    rw [encode, Utf8.scalars, if_neg apart, Utf8.encodeChars_cons, length_append,
      length_utf8EncodeChar_unitChar, ← encode, ← ih, utf8ByteLength, if_neg apart]
    split_ifs <;> rfl

theorem lines_eq (t : Text) :
    lines (t.count 0x0A) (t.isEmpty || endsWithNewline t) = lineCount (encode t) := by
  have last := Utf8.getLast_encode t
  unfold lineCount lines endsWithNewline
  rw [show NEWLINE = 0x0A from rfl, count_encode]
  by_cases empty : t = []
  · subst empty
    rfl
  · rw [if_neg (mt (fun none => Utf8.encode_eq_nil.mp (List.length_eq_zero_iff.mp none)) empty), List.isEmpty_eq_false_iff.mpr empty, Bool.false_or]
    congr 1
    simp only [beq_iff_eq, last]

theorem lineCount_drop_le (bytes : List UInt8) (i : Nat) :
    lineCount (bytes.drop i) ≤ lineCount bytes := by
  unfold lineCount
  by_cases none : (bytes.drop i).length = 0
  · rw [if_pos none]
    exact Nat.zero_le _
  have inside : i < bytes.length := by
    rw [length_drop] at none
    omega
  have some : ¬bytes.length = 0 := by omega
  rw [if_neg none, if_neg some, List.getLast?_drop, if_neg (Nat.not_le.mpr inside)]
  exact Nat.add_le_add_right ((drop_sublist i bytes).count_le _) _

theorem lineCount_take_le (bytes : List UInt8) (i : Nat) :
    lineCount (bytes.take i) ≤ lineCount bytes := by
  rcases eq_nil_or_concat (bytes.drop i) with none | ⟨front, last, rest⟩
  · rw [take_of_length_le (List.drop_eq_nil_iff.mp none)]
  · have whole : bytes = bytes.take i ++ (front ++ [last]) := by
      rw [← concat_eq_append, ← rest, take_append_drop]
    generalize bytes.take i = kept at whole
    subst whole
    unfold lineCount
    rw [← append_assoc, List.getLast?_concat, count_append, count_append, count_singleton]
    simp only [length_append, length_singleton, Nat.succ_ne_zero, if_false,
      Option.some_inj, beq_iff_eq]
    split_ifs <;> omega

/-- The totals of a buffer are those of what has arrived. -/
structure Counts (b : OutputBuffer) (D : Text) : Prop where
  bytes : b.totalBytes = (encode D).length
  newlines : b.totalNewlines = D.count 0x0A
  ends : b.endsWithNewline = (D.isEmpty || endsWithNewline D)

theorem accept_nil (b : OutputBuffer) : b.accept [] = (false, b) := rfl

variable {b : OutputBuffer} {D t : Text}

/-- The totals of a buffer after a piece of text. -/
theorem totals_accept (b : OutputBuffer) (some : t ≠ []) :
    (b.accept t).2.totalBytes = b.totalBytes + (encode t).length ∧
      (b.accept t).2.totalNewlines = b.totalNewlines + t.count 0x0A ∧
      (b.accept t).2.endsWithNewline = endsWithNewline t := by
  unfold OutputBuffer.accept
  rw [if_neg (by rwa [length_eq_zero_iff]), utf8ByteLength_eq]
  dsimp only
  split
  · exact ⟨rfl, rfl, rfl⟩
  · split <;> exact ⟨rfl, rfl, rfl⟩

theorem endsWithNewline_append (some : t ≠ []) :
    endsWithNewline t = ((D ++ t).isEmpty || endsWithNewline (D ++ t)) := by
  rw [List.isEmpty_eq_false_iff.mpr (by simp [some]), Bool.false_or, endsWithNewline,
    endsWithNewline, List.getLast?_append_of_ne_nil _ some]

theorem Counts.accept (counts : Counts b D) (whole : ¬Splits D t) :
    Counts (b.accept t).2 (D ++ t) := by
  by_cases empty : t = []
  · rw [empty, accept_nil, append_nil]
    exact counts
  obtain ⟨bytes, newlines, ends⟩ := totals_accept b empty
  refine ⟨?_, ?_, ends.trans (endsWithNewline_append empty)⟩
  · rw [bytes, counts.bytes, encode_append whole, length_append]
  · rw [newlines, counts.newlines, count_append]

/-! ### Stored chunks -/

/-- The texts of chunks, joined. -/
def texts (chunks : List StoredChunk) : Text := (chunks.map (·.text)).flatten

theorem texts_append (a b : List StoredChunk) : texts (a ++ b) = texts a ++ texts b := by
  rw [texts, map_append, flatten_append, texts, texts]

/-- Chunks that carry their own counts, whose cuts split no pair, with the counts of all. -/
structure Measures (chunks : List StoredChunk) (bytes newlines : Nat) : Prop where
  each : ∀ c ∈ chunks, c.bytes = (encode c.text).length ∧ c.newlines = c.text.count 0x0A
  whole : ∀ front back, chunks = front ++ back → ¬Splits (texts front) (texts back)
  bytes : bytes = (encode (texts chunks)).length
  newlines : newlines = (texts chunks).count 0x0A

theorem Measures.nil : Measures [] 0 0 := by
  refine ⟨fun c member => (by cases member), fun front back shape => ?_, rfl, rfl⟩
  rw [(List.append_eq_nil_iff.mp shape.symm).1]
  exact fun splits => Utf8.not_endsLead_nil splits.1

theorem Measures.single (t : Text) :
    Measures [⟨t, utf8ByteLength t, countNewlines t⟩]
      (utf8ByteLength t) (countNewlines t) := by
  have only : texts [⟨t, utf8ByteLength t, countNewlines t⟩] = t :=
    append_nil t
  refine ⟨fun c member => ?_, fun front back shape => ?_, by rw [only, utf8ByteLength_eq],
    by rw [only, countNewlines]⟩
  · rw [List.mem_singleton.mp member]
    exact ⟨utf8ByteLength_eq t, rfl⟩
  · rcases List.singleton_eq_append_iff.mp shape with ⟨rfl, _⟩ | ⟨_, rfl⟩
    · exact fun splits => Utf8.not_endsLead_nil splits.1
    · exact fun splits => Utf8.not_startsTrail_nil splits.2

variable {bytes newlines : Nat}

/-- Another chunk. -/
theorem Measures.concat {chunks : List StoredChunk} (measures : Measures chunks bytes newlines)
    (whole : ¬Splits (texts chunks) t) :
    Measures (chunks ++ [⟨t, utf8ByteLength t, countNewlines t⟩])
      (bytes + utf8ByteLength t) (newlines + countNewlines t) := by
  have only : texts [⟨t, utf8ByteLength t, countNewlines t⟩] = t :=
    append_nil t
  refine ⟨fun c member => ?_, fun front back shape splits => ?_, ?_, ?_⟩
  · rcases List.mem_append.mp member with old | new
    · exact measures.each c old
    · rw [List.mem_singleton.mp new]
      exact ⟨utf8ByteLength_eq t, rfl⟩
  · rcases eq_nil_or_concat back with rfl | ⟨middle, last, rfl⟩
    · exact Utf8.not_startsTrail_nil splits.2
    · rw [concat_eq_append, ← append_assoc] at shape
      obtain ⟨rfl, same⟩ := append_inj' shape rfl
      cases same
      rw [concat_eq_append, texts_append, only] at splits
      rcases splits.2.append with inside | ⟨none, starts⟩
      · exact measures.whole front middle rfl ⟨splits.1, inside⟩
      · refine whole ⟨?_, starts⟩
        rw [texts_append, none, append_nil]
        exact splits.1
  · rw [texts_append, only, encode_append whole, length_append, measures.bytes, utf8ByteLength_eq]
  · rw [texts_append, only, count_append, measures.newlines, countNewlines]

/-- Without its first chunk. -/
theorem Measures.tail {first : StoredChunk} {rest : List StoredChunk}
    (measures : Measures (first :: rest) bytes newlines) :
    Measures rest (bytes - first.bytes) (newlines - first.newlines) := by
  have cut : ¬Splits first.text (texts rest) := by
    have apart := measures.whole [first] rest rfl
    rwa [show texts [first] = first.text from append_nil _] at apart
  have joined : texts (first :: rest) = first.text ++ texts rest := rfl
  obtain ⟨size, lines⟩ := measures.each first mem_cons_self
  refine ⟨fun c member => measures.each c (mem_cons_of_mem _ member),
    fun front back shape splits => ?_, ?_, ?_⟩
  · have apart := measures.whole (first :: front) back (by rw [shape, cons_append])
    refine apart ⟨?_, splits.2⟩
    by_cases empty : texts front = []
    · exact absurd (empty ▸ splits.1) Utf8.not_endsLead_nil
    · exact (Utf8.endsLead_append empty).mpr splits.1
  · rw [measures.bytes, joined, encode_append cut, length_append, size, Nat.add_sub_cancel_left]
  · rw [measures.newlines, joined, count_append, lines, Nat.add_sub_cancel_left]

/-- **Dropping leading chunks** keeps all of them, or more than a window. -/
theorem dropLeading_spec (limits : OutputLimits) {chunks : List StoredChunk}
    (measures : Measures chunks bytes newlines) :
    Measures (dropLeading limits chunks bytes newlines).1
        (dropLeading limits chunks bytes newlines).2.1
        (dropLeading limits chunks bytes newlines).2.2 ∧
      ∃ gone, chunks = gone ++ (dropLeading limits chunks bytes newlines).1 ∧
        (gone = [] ∨ Exceeds limits (dropLeading limits chunks bytes newlines).2.1
          (dropLeading limits chunks bytes newlines).2.2) := by
  fun_induction dropLeading limits chunks bytes newlines with
  | case1 first second rest bytes newlines keep | case3 chunks bytes newlines _ => exact ⟨measures, [], rfl, .inl rfl⟩
  | case2 first second rest bytes newlines keep ih =>
    obtain ⟨kept, gone, shape, long⟩ := ih measures.tail
    refine ⟨kept, first :: gone, by rw [cons_append, ← shape], .inr ?_⟩
    rcases long with none | long
    · -- Nothing more was dropped, so what is left is what the test saw.
      rw [none, nil_append] at shape
      rw [kept.bytes, kept.newlines, ← shape, ← measures.tail.bytes, ← measures.tail.newlines]
      unfold Exceeds
      omega
    · exact long

/-! ### A stored tail -/

theorem stored_eq (b : OutputBuffer) : b.stored = texts b.chunks := rfl

/-- What is stored of a tail: a suffix of the bytes of `D`. -/
structure TailStore (b : OutputBuffer) (D : Text) : Prop where
  retain : b.limits.retain = .tail
  notFull : b.full = false
  measures : Measures b.chunks b.storedBytes b.storedNewlines
  suffix : ∃ front, encode D = front ++ encode b.stored
  lead : EndsLead b.stored → EndsLead D

/-- What is stored is all of `D`, or more than a window once `pending` more bytes arrive. -/
def Enough (b : OutputBuffer) (D : Text) (pending : Nat) : Prop :=
  b.stored = D ∨ Exceeds b.limits ((encode b.stored).length + pending) (b.stored.count 0x0A)

theorem accept_tail (retain : b.limits.retain = .tail) (notFull : b.full = false) (some : t ≠ []) :
    (b.accept t).2 = { b with
      totalBytes := b.totalBytes + utf8ByteLength t
      totalNewlines := b.totalNewlines + countNewlines t
      endsWithNewline := endsWithNewline t
      chunks := (dropLeading b.limits
        (b.chunks ++ [⟨t, utf8ByteLength t, countNewlines t⟩])
        (b.storedBytes + utf8ByteLength t) (b.storedNewlines + countNewlines t)).1
      storedBytes := (dropLeading b.limits
        (b.chunks ++ [⟨t, utf8ByteLength t, countNewlines t⟩])
        (b.storedBytes + utf8ByteLength t) (b.storedNewlines + countNewlines t)).2.1
      storedNewlines := (dropLeading b.limits
        (b.chunks ++ [⟨t, utf8ByteLength t, countNewlines t⟩])
        (b.storedBytes + utf8ByteLength t) (b.storedNewlines + countNewlines t)).2.2 } := by
  unfold OutputBuffer.accept
  rw [if_neg (by rwa [length_eq_zero_iff])]
  dsimp only
  rw [if_neg (by rw [notFull]; exact Bool.false_ne_true), retain]

theorem limits_accept (b : OutputBuffer) (t : Text) : (b.accept t).2.limits = b.limits := by
  unfold OutputBuffer.accept
  split
  · rfl
  · dsimp only
    split
    · rfl
    · split <;> rfl

/-- **A piece of text is added to a tail**: it is stored behind the rest, or what is stored then is
more than a window. -/
theorem TailStore.accept (store : TailStore b D) (whole : ¬Splits D t) :
    TailStore (b.accept t).2 (D ++ t) ∧
      ((b.accept t).2.stored = b.stored ++ t ∨
        ExceedsBytes b.limits (encode (b.accept t).2.stored)) := by
  by_cases empty : t = []
  · subst empty
    rw [accept_nil, append_nil, append_nil]
    exact ⟨store, .inl rfl⟩
  have apart : ¬Splits b.stored t := fun splits => whole ⟨store.lead splits.1, splits.2⟩
  have measures := store.measures.concat apart
  have dropped := dropLeading_spec b.limits measures
  have accepted := accept_tail store.retain store.notFull empty
  have joined : texts (b.chunks ++
      [⟨t, utf8ByteLength t, countNewlines t⟩]) = b.stored ++ t := by
    rw [texts_append, stored_eq]
    exact congrArg _ (append_nil t)
  generalize b.chunks ++ [⟨t, utf8ByteLength t, countNewlines t⟩] =
    chunks at *
  generalize dropLeading b.limits chunks (b.storedBytes + utf8ByteLength t)
    (b.storedNewlines + countNewlines t) = kept at *
  obtain ⟨left, gone, shape, long⟩ := dropped
  have stored : (b.accept t).2.stored = texts kept.1 := by rw [accepted]; rfl
  have cut : b.stored ++ t = texts gone ++ (b.accept t).2.stored := by
    rw [stored, ← texts_append, ← shape, joined]
  obtain ⟨front, suffix⟩ := store.suffix
  refine ⟨⟨by rw [limits_accept]; exact store.retain, by rw [accepted]; exact store.notFull,
    by rw [accepted]; exact left, ⟨front ++ encode (texts gone), ?_⟩, fun ends => ?_⟩, ?_⟩
  · rw [encode_append whole, suffix, append_assoc, ← encode_append apart, cut,
      encode_append (by rw [stored]; exact measures.whole gone kept.1 shape),
      append_assoc]
  · rw [Utf8.endsLead_append empty, ← @Utf8.endsLead_append b.stored t empty, cut]
    by_cases none : (b.accept t).2.stored = []
    · exact absurd (none ▸ ends) Utf8.not_endsLead_nil
    · exact (Utf8.endsLead_append none).mpr ends
  · rcases long with none | long
    · refine .inl ?_
      rw [cut, none]
      rfl
    · refine .inr ?_
      rw [ExceedsBytes, show NEWLINE = 0x0A from rfl, count_encode, stored, ← left.bytes,
        ← left.newlines]
      exact long

variable {pending : Nat}

/-- The text of a chunk keeps what is stored enough. -/
theorem Enough.accept {pending' : Nat} (store : TailStore b D) (whole : ¬Splits D t)
    (enough : Enough b D pending) (counted : pending ≤ (encode t).length + pending') :
    Enough (b.accept t).2 (D ++ t) pending' := by
  have apart : ¬Splits b.stored t := fun splits => whole ⟨store.lead splits.1, splits.2⟩
  rw [Enough, limits_accept]
  rcases (store.accept whole).2 with stored | long
  · rw [stored]
    rcases enough with all | long
    · exact .inl (by rw [all])
    · refine .inr ?_
      rw [encode_append apart, length_append, count_append]
      unfold Exceeds at long ⊢
      omega
  · rw [ExceedsBytes, show NEWLINE = 0x0A from rfl, count_encode] at long
    refine .inr ?_
    unfold Exceeds at long ⊢
    omega

/-- What a producer declares of the text it omitted. -/
def skipOf (t : Text) : OutputSkip :=
  { bytes := (encode t).length, newlines := countNewlines t, endsWithNewline := endsWithNewline t }

theorem skip_nil (b : OutputBuffer) : b.skip (skipOf []) = b := rfl

theorem skip_some (b : OutputBuffer) {e : Text} (some : e ≠ []) :
    b.skip (skipOf e) = { b with
      totalBytes := b.totalBytes + (encode e).length
      totalNewlines := b.totalNewlines + countNewlines e
      endsWithNewline := endsWithNewline e
      chunks := []
      storedBytes := 0
      storedNewlines := 0 } := by
  unfold OutputBuffer.skip skipOf
  rw [if_neg fun none => some (Utf8.encode_eq_nil.mp (List.length_eq_zero_iff.mp none))]

theorem limits_skip (b : OutputBuffer) (s : OutputSkip) : (b.skip s).limits = b.limits := by
  unfold OutputBuffer.skip
  split <;> rfl

theorem Counts.skip {b : OutputBuffer} {D e : Text} (counts : Counts b D) (whole : ¬Splits D e) :
    Counts (b.skip (skipOf e)) (D ++ e) := by
  by_cases empty : e = []
  · rw [empty, skip_nil, append_nil]
    exact counts
  rw [skip_some b empty]
  refine ⟨?_, ?_, ?_⟩
  · dsimp only
    rw [counts.bytes, encode_append whole, length_append]
  · dsimp only
    rw [counts.newlines, count_append, countNewlines]
  · exact endsWithNewline_append empty

/-- Omitted text leaves nothing stored before it. -/
theorem TailStore.skip {b : OutputBuffer} {D e : Text} (store : TailStore b D) :
    TailStore (b.skip (skipOf e)) (D ++ e) := by
  by_cases empty : e = []
  · rw [empty, skip_nil, append_nil]
    exact store
  rw [skip_some b empty]
  refine ⟨store.retain, store.notFull, .nil, ⟨encode (D ++ e), ?_⟩, fun ends => ?_⟩
  · exact (append_nil _).symm
  · exact absurd ends Utf8.not_endsLead_nil

/-- A chunk longer than the window is enough by itself. -/
theorem Enough.after_skip {e : Text} {pending' : Nat} (store : TailStore b D)
    (whole : ¬Splits (D ++ e) t) (enough : Enough b D pending)
    (counted : pending ≤ (encode t).length + pending')
    (long : Exceeds b.limits ((encode t).length + pending') (t.count 0x0A)) :
    Enough ((b.skip (skipOf e)).accept t).2 (D ++ e ++ t) pending' := by
  by_cases empty : e = []
  · subst empty
    rw [append_nil] at whole ⊢
    rw [skip_nil]
    exact enough.accept store whole counted
  have left := (@TailStore.skip b D e store).accept whole
  rw [Enough, limits_accept, limits_skip]
  rcases left.2 with stored | exceeds
  · have none : (b.skip (skipOf e)).stored = [] := by rw [skip_some b empty]; rfl
    rw [stored, none, nil_append]
    exact .inr long
  · rw [limits_skip, ExceedsBytes, show NEWLINE = 0x0A from rfl, count_encode] at exceeds
    refine .inr ?_
    unfold Exceeds at exceeds ⊢
    omega

theorem compact_tail (retain : b.limits.retain = .tail) :
    b.compact.stored = tailMargin b.stored b.limits ∧
      Measures b.compact.chunks b.compact.storedBytes b.compact.storedNewlines ∧
      b.compact.limits = b.limits ∧ b.compact.full = b.full := by
  unfold OutputBuffer.compact
  rw [retain]
  dsimp only
  by_cases empty : tailMargin b.stored b.limits = []
  · rw [empty]
    exact ⟨rfl, .nil, rfl, rfl⟩
  · have some : (tailMargin b.stored b.limits).isEmpty = false := List.isEmpty_eq_false_iff.mpr empty
    simp only [some, false_eq_true, if_false]
    exact ⟨append_nil _, .single _, trivial, trivial⟩

/-- **A snapshot forgets only what no later window needs.** -/
theorem TailStore.compact (store : TailStore b D) :
    TailStore b.compact D ∧
      (b.compact.stored = b.stored ∨ ExceedsBytes b.limits (encode b.compact.stored)) := by
  obtain ⟨stored, measures, limits, full⟩ := compact_tail store.retain
  rcases tailMargin_cases b.stored b.limits with all | ⟨cs, front, margin, suffix, long⟩
  · rw [all] at stored
    exact ⟨⟨by rw [limits]; exact store.retain, by rw [full]; exact store.notFull, measures,
      by rw [stored]; exact store.suffix, by rw [stored]; exact store.lead⟩, .inl stored⟩
  · rw [margin] at stored
    obtain ⟨before, whole⟩ := store.suffix
    refine ⟨⟨by rw [limits]; exact store.retain, by rw [full]; exact store.notFull, measures,
      ⟨before ++ front, ?_⟩, fun ends => ?_⟩, .inr ?_⟩
    · rw [stored, Utf8.encode_units, whole, suffix, append_assoc]
    · rw [stored] at ends
      exact absurd ends (Utf8.not_endsLead_units cs)
    · rw [stored, Utf8.encode_units]
      exact long

theorem Enough.compact (store : TailStore b D) (enough : Enough b D pending) :
    Enough b.compact D pending := by
  have limits := (compact_tail store.retain).2.2.1
  rw [Enough, limits]
  rcases store.compact.2 with same | long
  · rw [same]
    exact enough
  · rw [ExceedsBytes, show NEWLINE = 0x0A from rfl, count_encode] at long
    refine .inr ?_
    unfold Exceeds at long ⊢
    omega

/-- What a bounded output should be. -/
def bounded (D : Text) (limits : OutputLimits) : BoundedOutput :=
  { text := sanitizeOutput (boundOutput D limits).text
    droppedBytes := (boundOutput D limits).droppedBytes
    droppedLines := (boundOutput D limits).droppedLines }

/-- The bytes `boundOutput` keeps. -/
def window (t : Text) (limits : OutputLimits) : List UInt8 :=
  match limits.retain with
  | .head => (encode t).take (headEnd (encode t) limits)
  | .tail => (encode t).drop (tailStart (encode t) limits)

theorem boundOutput_eq (t : Text) (limits : OutputLimits) :
    boundOutput t limits =
      { text := if (window t limits).length = (encode t).length then t else decode (window t limits)
        bytes := (window t limits).length
        droppedBytes := (encode t).length - (window t limits).length
        droppedLines := lineCount (encode t) - lineCount (window t limits) } := by
  unfold boundOutput window
  cases limits.retain with
  | head => simp only [headRange_eq, drop_zero]
  | tail => simp only [tailRange_eq, take_length]

theorem lineCount_window_le (t : Text) (limits : OutputLimits) :
    lineCount (window t limits) ≤ lineCount (encode t) := by
  unfold window
  split
  · exact lineCount_take_le _ _
  · exact lineCount_drop_le _ _

/-- A snapshot by the window of what is stored, where the lines of `D` are counted. -/
theorem snapshot_eq (total : b.totalNewlines = D.count 0x0A)
    (ends : b.endsWithNewline = (D.isEmpty || endsWithNewline D))
    (newlines : b.storedNewlines = b.stored.count 0x0A) :
    b.snapshot.1 =
      { text := sanitizeOutput (boundOutput b.stored b.limits).text
        droppedBytes := b.totalBytes - (window b.stored b.limits).length
        droppedLines := lineCount (encode D) - lineCount (window b.stored b.limits) } := by
  have kept := lineCount_window_le b.stored b.limits
  unfold OutputBuffer.snapshot
  simp only [boundOutput_eq, newlines, lines_eq, total, ends]
  rw [Nat.sub_sub_self kept]

/-- **What a snapshot of a tail gives.** -/
theorem snapshot_tail (counts : Counts b D) (store : TailStore b D) (enough : Enough b D 0) :
    b.snapshot.1 = bounded D b.limits := by
  have stored : b.storedNewlines = b.stored.count 0x0A := by
    rw [store.measures.newlines, stored_eq]
  rw [snapshot_eq counts.newlines counts.ends stored, counts.bytes, bounded]
  rcases enough with all | long
  · rw [all]
    simp only [boundOutput_eq]
  · obtain ⟨front, suffix⟩ := store.suffix
    have exceeds : ExceedsBytes b.limits (encode b.stored) := by
      rw [ExceedsBytes, show NEWLINE = 0x0A from rfl, count_encode]
      exact long
    have start := tailStart_pos exceeds
    have inside := tailStart_le (encode b.stored) b.limits
    have some := length_pos_of_ne_nil exceeds.ne_nil
    have cut : window b.stored b.limits =
        (encode b.stored).drop (tailStart (encode b.stored) b.limits) := by
      rw [window, store.retain]
    have same : window D b.limits = window b.stored b.limits := by
      rw [cut, window, store.retain]
      dsimp only
      rw [suffix, tailStart_append exceeds, List.drop_append,
        drop_of_length_le (Nat.le_add_right _ _), nil_append, Nat.add_sub_cancel_left]
    have short : (window b.stored b.limits).length < (encode b.stored).length := by
      rw [cut, length_drop]
      omega
    have shorter : (window D b.limits).length < (encode D).length := by
      rw [same, suffix, length_append]
      omega
    simp only [boundOutput_eq]
    rw [if_neg (Nat.ne_of_lt short), if_neg (Nat.ne_of_lt shorter), same]

/-! ### A stored head -/

/-- The text is exactly the lines of a head window, and a lone surrogate is among its units. -/
def LoneLines (limits : OutputLimits) (a : Text) : Prop :=
  (encode a).length ≤ limits.maxBytes ∧ a.count 0x0A = limits.maxLines ∧
    a.getLast? = some 0x0A ∧ Utf8.wellFormed a ≠ a

/-- The text fills a head window. -/
def FillsText (limits : OutputLimits) (a : Text) : Prop :=
  Fills limits (encode a).length (a.count 0x0A)

/-- What is stored of a head, when `P` are the texts the stream stood for at its cuts: all of `D`,
or the first of them that fills the window. -/
structure HeadStore (b : OutputBuffer) (D : Text) (P : Text → Prop) : Prop where
  retain : b.limits.retain = .head
  measures : Measures b.chunks b.storedBytes b.storedNewlines
  prefixes : ∀ a, P a → a <+: D
  early : ∀ a, P a → a ≠ [] → a.length < b.stored.length → ¬FillsText b.limits a
  open_ : b.full = false → b.stored = D ∧ (D = [] ∨ ¬FillsText b.limits D)
  closed : b.full = true → P b.stored ∧ b.stored ≠ [] ∧ FillsText b.limits b.stored ∧
    ∃ rest, D = b.stored ++ rest ∧ ¬Splits b.stored rest

theorem accept_head {b : OutputBuffer} {t : Text} (retain : b.limits.retain = .head)
    (some : t ≠ []) :
    (b.full = true → (b.accept t).2.chunks = b.chunks ∧
      (b.accept t).2.storedBytes = b.storedBytes ∧
      (b.accept t).2.storedNewlines = b.storedNewlines ∧ (b.accept t).2.full = true) ∧
    (b.full = false →
      (b.accept t).2.chunks = b.chunks ++
        [⟨t, utf8ByteLength t, countNewlines t⟩] ∧
      (b.accept t).2.storedBytes = b.storedBytes + utf8ByteLength t ∧
      (b.accept t).2.storedNewlines = b.storedNewlines + countNewlines t ∧
      ((b.accept t).2.full = true ↔ Fills b.limits (b.storedBytes + utf8ByteLength t)
        (b.storedNewlines + countNewlines t))) := by
  unfold OutputBuffer.accept
  rw [if_neg (by rwa [length_eq_zero_iff])]
  dsimp only
  constructor
  · intro full
    rw [if_pos full]
    exact ⟨rfl, rfl, rfl, full⟩
  · intro notFull
    rw [if_neg (by rw [notFull]; exact Bool.false_ne_true), retain]
    refine ⟨rfl, rfl, rfl, ?_⟩
    dsimp only
    rw [or_eq_true, decide_eq_true_eq, decide_eq_true_eq, Fills]

variable {P : Text → Prop}

/-- **A piece of text is added to a head.** -/
theorem HeadStore.accept (store : HeadStore b D P) (whole : ¬Splits D t) :
    HeadStore (b.accept t).2 (D ++ t) fun a => P a ∨ a = D ++ t := by
  have prefixes : ∀ a, P a ∨ a = D ++ t → a <+: D ++ t := by
    rintro a (old | rfl)
    · exact (store.prefixes a old).trans (prefix_append D t)
    · exact prefix_refl _
  by_cases empty : t = []
  · subst empty
    rw [accept_nil]
    simp only [append_nil] at prefixes ⊢
    refine ⟨store.retain, store.measures, prefixes, ?_, store.open_, fun full => ?_⟩
    · rintro a (old | rfl) some short
      · exact store.early a old some short
      · have within : b.stored.length ≤ a.length := by
          cases full : b.full with
          | true =>
            obtain ⟨_, _, _, rest, shape, _⟩ := store.closed full
            rw [shape, length_append]
            exact Nat.le_add_right _ _
          | false => rw [(store.open_ full).1]
        exact absurd short (Nat.not_lt.mpr within)
    · obtain ⟨known, rest⟩ := store.closed full
      exact ⟨.inl known, rest⟩
  have behavior := @accept_head b t store.retain empty
  have longer : (D ++ t).length = D.length + t.length := length_append
  have some := length_pos_of_ne_nil empty
  cases full : b.full with
  | true =>
    obtain ⟨chunks, bytes, newlines, still⟩ := behavior.1 full
    have stored : (b.accept t).2.stored = b.stored := by rw [stored_eq, chunks, ← stored_eq]
    obtain ⟨known, nonempty, fills, rest, shape, apart⟩ := store.closed full
    refine ⟨by rw [limits_accept]; exact store.retain,
      by rw [chunks, bytes, newlines]; exact store.measures, prefixes, ?_,
      fun not => absurd (still.symm.trans not) (by simp), fun _ => ?_⟩
    · rw [stored, limits_accept]
      rintro a (old | rfl) some short
      · exact store.early a old some short
      · rw [longer, shape, length_append] at short
        omega
    · rw [stored, limits_accept]
      refine ⟨.inl known, nonempty, fills, rest ++ t, by rw [shape, append_assoc], fun splits => ?_⟩
      rcases splits.2.append with inside | ⟨none, starts⟩
      · exact apart ⟨splits.1, inside⟩
      · rw [shape, none, append_nil] at whole
        exact whole ⟨splits.1, starts⟩
  | false =>
    obtain ⟨chunks, bytes, newlines, fills⟩ := behavior.2 full
    obtain ⟨all, before⟩ := store.open_ full
    have stored : (b.accept t).2.stored = D ++ t := by
      rw [stored_eq, chunks, texts_append, ← stored_eq, all]
      exact congrArg _ (append_nil t)
    have measures := store.measures.concat (t := t) (by rw [← stored_eq, all]; exact whole)
    have filled : (b.accept t).2.full = true ↔ FillsText b.limits (D ++ t) := by
      rw [fills, measures.bytes, measures.newlines, texts_append, ← stored_eq, all,
        show texts [⟨t, utf8ByteLength t, countNewlines t⟩] = t from
          append_nil t]
      rfl
    refine ⟨by rw [limits_accept]; exact store.retain,
      by rw [chunks, bytes, newlines]; exact measures, prefixes, ?_, fun not => ?_, fun is => ?_⟩
    · rw [stored, limits_accept]
      rintro a (old | rfl) some short
      · rcases Nat.lt_or_ge a.length b.stored.length with shorter | same
        · exact store.early a old some shorter
        · -- The cut before this piece: the buffer was not full there.
          rw [all] at same
          have equal := (store.prefixes a old).eq_of_length_le same
          rw [equal] at some ⊢
          exact before.resolve_left some
      · exact absurd short (Nat.lt_irrefl _)
    · rw [stored, limits_accept]
      exact ⟨rfl, .inr fun fills => absurd (filled.mpr fills) (by rw [not]; simp)⟩
    · rw [stored, limits_accept]
      exact ⟨.inr rfl, by simp [empty], filled.mp is, [], (append_nil _).symm,
        fun splits => Utf8.not_startsTrail_nil splits.2⟩

theorem compact_head (retain : b.limits.retain = .head)
    (measures : Measures b.chunks b.storedBytes b.storedNewlines) :
    b.compact.stored = b.stored ∧
      Measures b.compact.chunks b.compact.storedBytes b.compact.storedNewlines ∧
      b.compact.limits = b.limits ∧ b.compact.full = b.full := by
  unfold OutputBuffer.compact
  rw [retain]
  dsimp only
  by_cases several : 1 < b.chunks.length
  · rw [if_pos several]
    by_cases empty : b.stored = []
    · have bytes := measures.bytes
      rw [← stored_eq, empty] at bytes
      rw [empty]
      simp only [isEmpty_nil, if_true, bytes]
      exact ⟨rfl, .nil, trivial, trivial⟩
    · have one := Measures.single b.stored
      have bytes := measures.bytes
      rw [← stored_eq, ← utf8ByteLength_eq] at bytes
      have some : b.stored.isEmpty = false := List.isEmpty_eq_false_iff.mpr empty
      simp only [some, false_eq_true, if_false, bytes]
      exact ⟨append_nil _, one, trivial, trivial⟩
  · rw [if_neg several]
    exact ⟨rfl, measures, rfl, rfl⟩

/-- A snapshot of a head stores the same text, with its newlines. -/
theorem compact_head_lines (retain : b.limits.retain = .head)
    (each : ∀ c ∈ b.chunks, c.newlines = c.text.count 0x0A)
    (counted : b.storedNewlines = b.stored.count 0x0A) :
    b.compact.stored = b.stored ∧ (∀ c ∈ b.compact.chunks, c.newlines = c.text.count 0x0A) ∧
      b.compact.storedNewlines = b.stored.count 0x0A ∧ b.compact.limits = b.limits ∧
      b.compact.full = b.full := by
  unfold OutputBuffer.compact
  rw [retain]
  dsimp only
  by_cases several : 1 < b.chunks.length
  · rw [if_pos several]
    by_cases empty : b.stored = []
    · rw [empty]
      exact ⟨rfl, fun c member => (by cases member), rfl, rfl, rfl⟩
    · rw [if_neg (by simpa using empty), if_neg (by simpa using empty)]
      refine ⟨append_nil _, fun c member => ?_, rfl, rfl, rfl⟩
      rw [List.mem_singleton.mp member, countNewlines]
  · rw [if_neg several]
    exact ⟨rfl, each, counted, rfl, rfl⟩

theorem HeadStore.compact (store : HeadStore b D P) : HeadStore b.compact D P := by
  obtain ⟨stored, measures, limits, full⟩ := compact_head store.retain store.measures
  refine ⟨by rw [limits]; exact store.retain, measures, store.prefixes, ?_, ?_, ?_⟩
  · rw [stored, limits]
    exact store.early
  · rw [stored, limits, full]
    exact store.open_
  · rw [stored, limits, full]
    exact store.closed

theorem sanitize_cons_keep {u : UInt16} (keep : INVALID_OUTPUT u = false) (t : Text) :
    sanitizeOutput (u :: t) = u :: sanitizeOutput t :=
  filter_cons_of_pos (by rw [keep]; rfl)

theorem sanitize_cons (u : UInt16) (t : Text) :
    sanitizeOutput (u :: t) = sanitizeOutput [u] ++ sanitizeOutput t :=
  filter_append [u] t

/-- **Sanitizing tells a lone surrogate from U+FFFD.** -/
theorem wellFormed_of_sanitize (same : sanitizeOutput (Utf8.wellFormed t) = sanitizeOutput t) :
    Utf8.wellFormed t = t := by
  have mark : ∀ {u : UInt16} {a b : Text},
      sanitizeOutput (Utf8.markUnit u :: a) = sanitizeOutput (u :: b) →
        Utf8.markUnit u = u ∧ sanitizeOutput a = sanitizeOutput b := by
    intro u a b equal
    by_cases lone : (isLead u || isTrail u) = true
    · exfalso
      have high : 0xD800 ≤ u.toNat ∧ u.toNat ≤ 0xDFFF := by
        rcases Bool.or_eq_true_iff.mp lone with lead | trail
        · have := Utf8.lead_bounds lead
          omega
        · have := Utf8.trail_bounds trail
          omega
      have keep : INVALID_OUTPUT u = false := by
        simp only [INVALID_OUTPUT, or_eq_false_iff, and_eq_false_iff,
          decide_eq_false_iff_not, UInt16.le_iff_toNat_le, UInt16.reduceToNat]
        omega
      rw [Utf8.markUnit, if_pos lone, sanitize_cons_keep (by decide), sanitize_cons_keep keep] at equal
      have head := (List.cons.inj equal).1
      rw [← head] at high
      exact absurd high.2 (by decide)
    · have plain : Utf8.markUnit u = u := if_neg lone
      rw [plain, sanitize_cons, sanitize_cons u b] at equal
      exact ⟨plain, append_cancel_left equal⟩
  induction t using Utf8.textInduction with
  | nil => rfl
  | single u =>
    rw [Utf8.wellFormed_single] at same ⊢
    rw [(mark same).1]
  | pair u v rest pair ih =>
    rw [Utf8.wellFormed_pair pair] at same ⊢
    rw [sanitize_cons, sanitize_cons v, sanitize_cons u (v :: rest), sanitize_cons v rest] at same
    rw [ih (append_cancel_left (append_cancel_left same))]
  | lone u v rest apart ih =>
    rw [Utf8.wellFormed_lone apart] at same ⊢
    obtain ⟨plain, rest'⟩ := mark same
    rw [plain, ih rest']

/-- A cut that is the lines of a head window is what is stored. -/
theorem HeadStore.stored_of_loneLines {a : Text} (store : HeadStore b D P) (known : P a)
    (other : a ≠ D) (lone : LoneLines b.limits a) : b.full = true ∧ b.stored = a := by
  obtain ⟨fits, count, last, _⟩ := lone
  have nonempty : a ≠ [] := by
    rintro rfl
    cases last
  have fills : FillsText b.limits a := .inr (Nat.le_of_eq count.symm)
  have within := store.prefixes a known
  have late : b.stored.length ≤ a.length :=
    Nat.le_of_not_lt fun short => store.early a known nonempty short fills
  cases full : b.full with
  | false =>
    rw [(store.open_ full).1] at late
    exact absurd (within.eq_of_length_le late) other
  | true =>
    obtain ⟨_, _, filled, rest, shape, apart⟩ := store.closed full
    have first : b.stored <+: D := ⟨rest, shape.symm⟩
    obtain ⟨x, rfl⟩ := prefix_of_prefix_length_le first within late
    -- Nothing follows the stored lines in `a`, which ends with the last of them.
    have cut : ¬Splits b.stored x := by
      rintro ⟨ends, starts⟩
      have more : x <+: rest := by
        rw [shape] at within
        exact (prefix_append_right_inj _).mp within
      obtain ⟨y, rfl⟩ := more
      refine apart ⟨ends, ?_⟩
      by_cases empty : x = []
      · exact absurd (empty ▸ starts) Utf8.not_startsTrail_nil
      · exact (Utf8.startsTrail_append empty).mpr starts
    rw [encode_append cut, length_append] at fits
    rw [count_append] at count
    have none : x.count 0x0A = 0 := by
      rcases filled with bytes | lines <;> omega
    refine ⟨rfl, ?_⟩
    by_cases empty : x = []
    · rw [empty, append_nil]
    · rw [List.getLast?_append_of_ne_nil _ empty] at last
      exact absurd (mem_of_getLast? last) (List.count_eq_zero.mp none)

/-- **What a snapshot of a head gives**: the bounded output, unless the stored lines are a head
window with a lone surrogate and more has arrived. -/
theorem snapshot_head (counts : Counts b D) (store : HeadStore b D P) :
    b.snapshot.1 = bounded D b.limits ↔ ¬∃ a, P a ∧ a ≠ D ∧ LoneLines b.limits a := by
  have stored : b.storedNewlines = b.stored.count 0x0A := by
    rw [store.measures.newlines, stored_eq]
  rw [snapshot_eq counts.newlines counts.ends stored, counts.bytes, bounded]
  cases full : b.full with
  | false =>
    have all := (store.open_ full).1
    refine iff_of_true ?_ ?_
    · rw [all]
      simp only [boundOutput_eq]
    · rintro ⟨a, known, other, lone⟩
      rw [(store.stored_of_loneLines known other lone).1] at full
      cases full
  | true =>
    obtain ⟨known, nonempty, fills, rest, shape, apart⟩ := store.closed full
    have filled : Fills b.limits (encode b.stored).length ((encode b.stored).count NEWLINE) := by
      rw [show NEWLINE = 0x0A from rfl, count_encode]
      exact fills
    have some : encode b.stored ≠ [] := mt Utf8.encode_eq_nil.mp nonempty
    have bytes : encode D = encode b.stored ++ encode rest := by
      rw [shape, encode_append apart]
    have cut : window b.stored b.limits =
        (encode b.stored).take (headEnd (encode b.stored) b.limits) := by
      rw [window, store.retain]
    have ends : headEnd (encode b.stored) b.limits ≤ (encode b.stored).length :=
      (headEnd_le _ _).2.trans (lineEnd_le _ _)
    have same : window D b.limits = window b.stored b.limits := by
      rw [cut, window, store.retain]
      dsimp only
      rw [bytes, headEnd_append filled, take_append_of_le_length ends]
    have length : (window b.stored b.limits).length = headEnd (encode b.stored) b.limits := by
      rw [cut, length_take, Nat.min_eq_left ends]
    have total : (encode D).length = (encode b.stored).length + (encode rest).length := by
      rw [bytes, length_append]
    have whole := headEnd_whole some filled
    rw [show NEWLINE = 0x0A from rfl, count_encode, Utf8.getLast_encode] at whole
    have only : ∀ a, P a → a ≠ D → LoneLines b.limits a → b.stored = a := fun a known other lone =>
      (store.stored_of_loneLines known other lone).2
    simp only [boundOutput_eq, same, length]
    by_cases kept : headEnd (encode b.stored) b.limits = (encode b.stored).length
    · obtain ⟨fits, count, last⟩ := whole.mp kept
      by_cases over_ : rest = []
      · rw [over_, append_nil] at shape
        rw [shape]
        refine iff_of_true rfl ?_
        rintro ⟨a, known', other, lone⟩
        exact other ((only a known' (by rw [shape]; exact other) lone).symm)
      · have more : ¬(encode b.stored).length = (encode D).length := by
          have := length_pos_of_ne_nil (mt Utf8.encode_eq_nil.mp over_)
          omega
        have all : window b.stored b.limits = encode b.stored := by
          rw [cut, kept, take_length]
        have other : b.stored ≠ D := by
          intro equal
          exact more (by rw [← equal])
        rw [kept, if_pos rfl, if_neg more, all, Utf8.decode_encode]
        constructor
        · rintro equal ⟨a, known', other', lone⟩
          have is := only a known' other' lone
          subst is
          exact lone.2.2.2 (wellFormed_of_sanitize (congrArg BoundedOutput.text equal).symm)
        · intro nothing
          have plain : Utf8.wellFormed b.stored = b.stored := by
            by_contra lone
            exact nothing ⟨b.stored, known, other, fits, count, last, lone⟩
          rw [plain]
    · rw [if_neg kept, if_neg (by omega)]
      refine iff_of_true rfl ?_
      rintro ⟨a, known', other, lone⟩
      have is := only a known' other lone
      subst is
      exact kept (whole.mpr ⟨lone.1, lone.2.1, lone.2.2.1⟩)

end TianGong.Output

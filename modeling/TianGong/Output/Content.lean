/-
**The output a stream stands for.**

What a buffer must bound is the concatenation of the string chunks, the omitted texts and the
decoded runs of bytes, where a run is what byte chunks that follow each other hold together. A
run that ends inside a character ends with U+FFFD, and a byte-order mark that leads the whole
output is dropped when it comes from bytes.

* `content`: that text, from its `Segment`s; `output`: the text of a sequence of pushes.
* `Started`, `received_append`: once something has arrived, what follows is appended as it is.
-/

import TianGong.Output.Buffer

namespace TianGong.Output

open List
open Utf8 (encode decode Splits)

/-- A push, with the text that was omitted right before the chunk. -/
structure Pushed where
  chunk : Chunk
  omitted : Option Text

/-- Where a part of the output comes from. -/
inductive Source
  | string
  | bytes
  | omitted
deriving DecidableEq

/-- A part of the output. -/
structure Segment where
  source : Source
  text : Text

/-- The segment a run of bytes stands for. -/
def Segment.run (bs : List UInt8) : Segment := ⟨.bytes, decode bs⟩

/-- The texts of segments, joined. -/
def flat (segments : List Segment) : Text := (segments.map (·.text)).flatten

/-- A text without a leading byte-order mark. -/
def dropMark (t : Text) : Text := if t.head? = some 0xFEFF then t.tail else t

/-- The segment is more than nothing: it has text, or stands for omitted text. -/
def Segment.Begins (s : Segment) : Prop := s.text ≠ [] ∨ s.source = .omitted

instance (s : Segment) : Decidable s.Begins :=
  inferInstanceAs (Decidable (s.text ≠ [] ∨ s.source = .omitted))

/-- The output: the segments joined, without the byte-order mark of bytes that lead it. -/
def content : List Segment → Text
  | [] => []
  | s :: rest =>
    if s.Begins then (if s.source = .bytes then dropMark s.text else s.text) ++ flat rest
    else content rest

/-- The pushes so far: the segments that are closed, and the run of bytes that is open. -/
structure Received where
  closed : List Segment := []
  run : List UInt8 := []

namespace Received

/-- One more push. -/
def push (r : Received) (p : Pushed) : Received :=
  match p.chunk, p.omitted with
  | .bytes bs, none => { r with run := r.run ++ bs }
  | .bytes bs, some e => { closed := r.closed ++ [.run r.run, ⟨.omitted, e⟩], run := bs }
  | .string t, none => { closed := r.closed ++ [.run r.run, ⟨.string, t⟩] }
  | .string t, some e => { closed := r.closed ++ [.run r.run, ⟨.omitted, e⟩, ⟨.string, t⟩] }

/-- All segments, when the stream ends here. -/
def segments (r : Received) : List Segment := r.closed ++ [.run r.run]

/-- The complete characters of the open run. -/
def complete (r : Received) : Text := Utf8.units (Utf8.Decoder.feed {} r.run).2

/-- The decoder after the open run. -/
def decoder (r : Received) : Utf8.Decoder := (Utf8.Decoder.feed {} r.run).1

/-- What has arrived, without the character the stream is in the middle of. -/
def text (r : Received) : Text := content (r.closed ++ [⟨.bytes, r.complete⟩])

/-- Something has arrived. -/
def Started (r : Received) : Prop := (∃ s ∈ r.closed, s.Begins) ∨ r.complete ≠ []

end Received

/-- What has been received after some pushes. -/
def received (ps : List Pushed) : Received := ps.foldl Received.push {}

/-- The output a sequence of pushes stands for, when the stream ends after them. -/
def output (ps : List Pushed) : Text := content (received ps).segments

@[simp]
theorem received_append (ps : List Pushed) (p : Pushed) :
    received (ps ++ [p]) = (received ps).push p := by
  rw [received, foldl_append]
  rfl

theorem flat_append (a b : List Segment) : flat (a ++ b) = flat a ++ flat b := by
  rw [flat, map_append, flatten_append, flat, flat]

@[simp]
theorem flat_cons (s : Segment) (rest : List Segment) : flat (s :: rest) = s.text ++ flat rest :=
  rfl

@[simp]
theorem flat_nil : flat [] = [] := rfl

variable {more : List Segment}

/-- **What follows something is appended as it is.** -/
theorem content_append_of_begun {segments : List Segment} (begun : ∃ s ∈ segments, s.Begins) :
    content (segments ++ more) = content segments ++ flat more := by
  induction segments with
  | nil =>
    obtain ⟨s, member, _⟩ := begun
    cases member
  | cons s rest ih =>
    rw [cons_append, content, content]
    by_cases here : s.Begins
    · rw [if_pos here, if_pos here, flat_append, append_assoc]
    · rw [if_neg here, if_neg here]
      obtain ⟨t, member, begins⟩ := begun
      rcases List.mem_cons.mp member with rfl | later
      · exact absurd begins here
      · exact ih ⟨t, later, begins⟩

/-- What follows nothing leads the output. -/
theorem content_append_of_not_begun {segments : List Segment}
    (nothing : ∀ s ∈ segments, ¬s.Begins) : content (segments ++ more) = content more := by
  induction segments with
  | nil => rfl
  | cons s rest ih =>
    rw [cons_append, content, if_neg (nothing s mem_cons_self),
      ih fun t member => nothing t (mem_cons_of_mem _ member)]

theorem content_bytes (t : Text) (rest : List Segment) :
    content (⟨.bytes, t⟩ :: rest) = if t = [] then content rest else dropMark t ++ flat rest := by
  by_cases empty : t = []
  · rw [content, if_neg (by rintro (some | omitted) <;> simp_all), if_pos empty]
  · rw [content, if_pos (.inl empty), if_pos rfl, if_neg empty]

theorem dropMark_append {a b : Text} (some : a ≠ []) : dropMark (a ++ b) = dropMark a ++ b := by
  cases a with
  | nil => exact absurd rfl some
  | cons u a =>
    unfold dropMark
    rw [cons_append, List.head?_cons, List.head?_cons]
    split_ifs <;> rfl

/-! ### One push -/

/-- U+FFFD for the character the decoder is in, if any. -/
def ending (r : Received) : Text := Utf8.units r.decoder.flush

theorem decode_run (r : Received) : decode r.run = r.complete ++ ending r :=
  Utf8.units_append _ _

theorem ending_cases (r : Received) : ending r = [] ∨ ending r = [0xFFFD] := by
  unfold ending Utf8.Decoder.flush
  split_ifs
  · exact .inl rfl
  · exact .inr rfl

variable {r : Received}

theorem text_of_begun (begun : ∃ s ∈ r.closed, s.Begins) :
    r.text = content r.closed ++ r.complete := by
  rw [Received.text, content_append_of_begun begun, flat_cons, flat_nil, append_nil]

theorem text_of_not_begun (nothing : ∀ s ∈ r.closed, ¬s.Begins) : r.text = dropMark r.complete := by
  rw [Received.text, content_append_of_not_begun nothing, content_bytes]
  split_ifs with empty
  · rw [empty]
    rfl
  · rw [flat_nil, append_nil]

theorem text_of_not_started (idle : ¬r.Started) : r.text = [] := by
  obtain ⟨nothing, empty⟩ := not_or.mp idle
  rw [text_of_not_begun fun s member begins => nothing ⟨s, member, begins⟩, not_not.mp empty]
  rfl

/-- **A run that is closed ends its character**, and what follows it is appended. -/
theorem content_closing (r : Received) (plain : content more = flat more) :
    content (r.closed ++ .run r.run :: more) = r.text ++ (ending r ++ flat more) := by
  have run : Segment.run r.run = ⟨.bytes, r.complete ++ ending r⟩ := by rw [← decode_run]; rfl
  by_cases begun : ∃ s ∈ r.closed, s.Begins
  · rw [content_append_of_begun begun, flat_cons, text_of_begun begun, run]
    simp only [append_assoc]
  have nothing : ∀ s ∈ r.closed, ¬s.Begins := fun s member begins => begun ⟨s, member, begins⟩
  rw [content_append_of_not_begun nothing, run, content_bytes, text_of_not_begun nothing]
  by_cases empty : r.complete = []
  · rw [empty, nil_append]
    rcases ending_cases r with none | some
    · rw [none, if_pos rfl, plain]
      rfl
    · rw [some, if_neg (by simp)]
      rfl
  · rw [if_neg (by simp [empty]), dropMark_append empty, append_assoc]

/-- The buffer's decoder has read what was received. -/
structure Tracks (b : OutputBuffer) (r : Received) : Prop where
  decoder : b.decoder = r.decoder
  started : b.started = true ↔ r.Started

/-- What a push adds to the output: `pending`, what was omitted, and `t`. -/
structure Adds (b : OutputBuffer) (r : Received) (p : Pushed) : Prop where
  text : (r.push p).text = r.text ++ ((b.incoming p.chunk p.omitted.isSome).1 ++
    (p.omitted.getD [] ++ (b.incoming p.chunk p.omitted.isSome).2.1))
  tracks : Tracks (b.incoming p.chunk p.omitted.isSome).2.2 (r.push p)

/-- A push that closes the run: the flags of the buffer and of what was received agree. -/
theorem started_closing {run : List UInt8} :
    Received.Started { closed := r.closed ++ .run r.run :: more, run := run } ↔
      r.Started ∨ ending r ≠ [] ∨ (∃ s ∈ more, s.Begins) ∨
        Utf8.units (Utf8.Decoder.feed {} run).2 ≠ [] := by
  have open_ : (Segment.run r.run).Begins ↔ r.complete ≠ [] ∨ ending r ≠ [] := by
    show decode r.run ≠ [] ∨ Source.bytes = .omitted ↔ _
    rw [decode_run]
    simp only [reduceCtorEq, or_false, ne_eq, append_eq_nil_iff, not_and_or]
  unfold Received.Started
  simp only [mem_append, mem_cons, or_and_right, exists_or, exists_eq_left, open_,
    Received.complete, or_assoc]

theorem not_isEmpty {t : Text} : (!t.isEmpty) = true ↔ t ≠ [] := by
  rw [Bool.not_eq_true', isEmpty_eq_false_iff]

/-- Bytes after bytes: the run goes on. -/
theorem adds_bytes {b : OutputBuffer} (tracks : Tracks b r) (bs : List UInt8) :
    Adds b r { chunk := .bytes bs, omitted := none } := by
  have read := Utf8.Decoder.feed_append {} r.run bs
  have decoder := tracks.decoder
  have started := tracks.started
  have longer : (r.push { chunk := .bytes bs, omitted := none }).complete =
      r.complete ++ Utf8.units (r.decoder.feed bs).2 := by
    show Utf8.units (Utf8.Decoder.feed {} (r.run ++ bs)).2 = _
    rw [read, Utf8.units_append]
    rfl
  refine ⟨?_, ?_, ?_⟩
  · by_cases begun : ∃ s ∈ r.closed, s.Begins
    · have running : b.started = true := started.mpr (.inl begun)
      have lead : (r.push { chunk := .bytes bs, omitted := none }).text =
          content r.closed ++ (r.push { chunk := .bytes bs, omitted := none }).complete :=
        text_of_begun begun
      rw [lead, longer, text_of_begun begun]
      simp [OutputBuffer.incoming, running, decoder]
    have nothing : ∀ s ∈ r.closed, ¬s.Begins := fun s member begins => begun ⟨s, member, begins⟩
    have lead : (r.push { chunk := .bytes bs, omitted := none }).text =
        dropMark (r.push { chunk := .bytes bs, omitted := none }).complete :=
      text_of_not_begun nothing
    rw [lead, longer, text_of_not_begun nothing]
    by_cases empty : r.complete = []
    · have idle : b.started = false :=
        Bool.eq_false_iff.mpr fun running => (started.mp running).elim begun (absurd empty)
      simp [OutputBuffer.incoming, idle, decoder, empty, dropMark]
    · have running : b.started = true := started.mpr (.inr empty)
      rw [dropMark_append empty]
      simp [OutputBuffer.incoming, running, decoder]
  · show (Utf8.Decoder.feed b.decoder bs).1 = (Utf8.Decoder.feed {} (r.run ++ bs)).1
    rw [read, decoder]
    rfl
  · have flag : (b.started || false || !(Utf8.units (b.decoder.feed bs).2).isEmpty || false) = true ↔
        r.Started ∨ Utf8.units (r.decoder.feed bs).2 ≠ [] := by
      rw [Bool.or_false, Bool.or_false, Bool.or_eq_true, not_isEmpty, started, decoder]
    refine flag.trans ?_
    show _ ↔ (∃ s ∈ r.closed, s.Begins) ∨
      (r.push { chunk := .bytes bs, omitted := none }).complete ≠ []
    rw [longer, Received.Started, ne_eq, ne_eq, ne_eq, append_eq_nil_iff, not_and_or, or_assoc]

/-- **A push adds its texts to the output**, and the buffer keeps track. -/
theorem adds {b : OutputBuffer} (tracks : Tracks b r) (p : Pushed) : Adds b r p := by
  have closes : Utf8.units b.decoder.flush = ending r := by rw [tracks.decoder]; rfl
  have started := tracks.started
  obtain ⟨chunk, omitted⟩ := p
  cases chunk with
  | bytes bs =>
    cases omitted with
    | none => exact adds_bytes tracks bs
    | some e =>
      refine ⟨?_, rfl, ?_⟩
      · show content ((r.closed ++ [.run r.run, ⟨.omitted, e⟩]) ++
          [⟨.bytes, Utf8.units (Utf8.Decoder.feed {} bs).2⟩]) = _
        rw [append_assoc]
        refine (content_closing r ?_).trans ?_
        · simp [content, Segment.Begins]
        · simp [OutputBuffer.incoming, closes]
      · refine Iff.trans ?_ started_closing.symm
        simp [OutputBuffer.incoming, closes, Segment.Begins]
  | string t =>
    have blank : Utf8.units (Utf8.Decoder.feed {} []).2 = [] := rfl
    cases omitted with
    | none =>
      refine ⟨?_, rfl, ?_⟩
      · show content ((r.closed ++ [.run r.run, ⟨.string, t⟩]) ++ [⟨.bytes, []⟩]) = _
        rw [append_assoc]
        refine (content_closing r ?_).trans ?_
        · by_cases empty : t = [] <;> simp [content, Segment.Begins, empty]
        · simp [OutputBuffer.incoming, closes]
      · refine Iff.trans ?_ started_closing.symm
        simp [OutputBuffer.incoming, closes, started, Segment.Begins, blank, or_assoc]
    | some e =>
      refine ⟨?_, rfl, ?_⟩
      · show content ((r.closed ++ [.run r.run, ⟨.omitted, e⟩, ⟨.string, t⟩]) ++ [⟨.bytes, []⟩]) = _
        rw [append_assoc]
        refine (content_closing r ?_).trans ?_
        · simp [content, Segment.Begins]
        · simp [OutputBuffer.incoming, closes]
      · refine Iff.trans ?_ started_closing.symm
        simp [OutputBuffer.incoming, closes, Segment.Begins]

/-- At the end of the stream the open run ends its character. -/
theorem output_eq (ps : List Pushed) : output ps = (received ps).text ++ ending (received ps) := by
  have whole := content_closing (received ps) (show content [] = flat [] from rfl)
  rwa [flat_nil, append_nil] at whole

end TianGong.Output

/-
**A stream is bounded like its whole output.**

A buffer is pushed chunks and asked for snapshots in any order, and ended. What its last snapshot
gives is compared with `boundOutput` of everything that arrived (`output`).

* `SplitsPair`, `LoneHead`: the two ways the comparison can fail.
-/

import TianGong.Output.Store
import TianGong.Output.Content
import Mathlib.Data.List.Induction

namespace TianGong.Output

open List
open Utf8 (encode decode EndsLead StartsTrail Splits)

/-- What is done with a buffer. -/
inductive OutputEvent
  | push (p : Pushed)
  | snapshot

/-- The buffer after an event; omitted text is declared by its measure. -/
def OutputBuffer.after (b : OutputBuffer) : OutputEvent → OutputBuffer
  | .push p => (b.push p.chunk (p.omitted.map skipOf)).2
  | .snapshot => b.snapshot.2

/-- The pushes of a run. -/
def pushes (events : List OutputEvent) : List Pushed :=
  events.filterMap fun
    | .push p => some p
    | .snapshot => none

/-- The buffer after a run. -/
def bufferAfter (limits : OutputLimits) (events : List OutputEvent) : OutputBuffer :=
  events.foldl OutputBuffer.after { limits := limits }

/-- What the last snapshot gives, after the end of the stream. -/
def finalSnapshot (limits : OutputLimits) (events : List OutputEvent) : BoundedOutput :=
  (bufferAfter limits events).end_.snapshot.1

/-- The chunk is longer than the window, by a byte or a line. -/
def LongerThanWindow (limits : OutputLimits) : Chunk → Prop
  | .string t => Exceeds limits (encode t).length (t.count 0x0A)
  | .bytes bs => Exceeds limits bs.length (bs.count NEWLINE)

/-- Text is omitted only before a chunk longer than the window, and only for tail retention. -/
def Declared (limits : OutputLimits) (ps : List Pushed) : Prop :=
  ∀ p ∈ ps, p.omitted.isSome → limits.retain = .tail ∧ LongerThanWindow limits p.chunk

/-- The omitted text or the string chunk of a push starts with the second half of a surrogate pair
whose first half ends what comes before it. -/
def Received.Cuts (r : Received) (p : Pushed) : Prop :=
  Splits (r.text ++ ending r) (p.omitted.getD []) ∨
    ∃ t, p.chunk = .string t ∧ Splits (r.text ++ ending r ++ p.omitted.getD []) t

/-- Some push cuts a surrogate pair. -/
def SplitsPair (ps : List Pushed) : Prop :=
  ∃ before p later, ps = before ++ p :: later ∧ (received before).Cuts p

/-- For head retention: before the output is complete, what has arrived after some push is exactly
a head window, with a lone surrogate in it. -/
def LoneHead (limits : OutputLimits) (ps : List Pushed) : Prop :=
  limits.retain = .head ∧ ∃ before, before <+: ps ∧
    (received before).text ≠ output ps ∧ LoneLines limits (received before).text

/-! ### Cuts -/

variable {b : OutputBuffer} {ps : List Pushed} {r : Received} {e : Text}

theorem SplitsPair.append (splits : SplitsPair ps) (more : List Pushed) :
    SplitsPair (ps ++ more) := by
  obtain ⟨before, p, later, rfl, cuts⟩ := splits
  exact ⟨before, p, later ++ more, by simp, cuts⟩

theorem not_startsTrail_ending (r : Received) : ¬StartsTrail (ending r) :=
  Utf8.not_startsTrail_units _

/-- The text of bytes does not start inside a pair, unless nothing has arrived before it. -/
theorem bytes_whole (tracks : Tracks b r) (bs : List UInt8) (skipping : Bool) :
    ¬StartsTrail (b.incoming (.bytes bs) skipping).2.1 ∨ skipping = false ∧ r.text = [] := by
  by_cases fresh : b.started = true ∨ skipping = true
  · have later : (!b.started && (b.incoming (.bytes bs) skipping).1.isEmpty && !skipping) = false := by
      rcases fresh with started | skips
      · rw [started]
        rfl
      · rw [skips, Bool.not_true, Bool.and_false]
    refine .inl ?_
    unfold OutputBuffer.incoming at later ⊢
    dsimp only at later ⊢
    rw [later, Bool.false_and, if_neg Bool.false_ne_true]
    exact Utf8.not_startsTrail_units _
  · rw [not_or, Bool.not_eq_true, Bool.not_eq_true] at fresh
    refine .inr ⟨fresh.2, text_of_not_started fun started => ?_⟩
    rw [tracks.started.mpr started] at fresh
    exact absurd fresh.1 (by decide)

/-- The decoder of a buffer that keeps track is the one of what was received. -/
theorem incoming_string (tracks : Tracks b r) (t : Text) (skipping : Bool) :
    (b.incoming (.string t) skipping).1 = ending r := by
  show Utf8.units b.decoder.flush = _
  rw [tracks.decoder]
  rfl

theorem incoming_skip (tracks : Tracks b r) (chunk : Chunk) :
    (b.incoming chunk true).1 = ending r := by
  cases chunk with
  | bytes bs =>
    show Utf8.units b.decoder.flush = _
    rw [tracks.decoder]
    rfl
  | string t => exact incoming_string tracks t true

variable {chunk : Chunk}

/-- **A push that omits nothing splits no pair** when it cuts none. -/
theorem push_whole (tracks : Tracks b r) (whole : ¬r.Cuts ⟨chunk, none⟩) :
    ¬Splits r.text ((b.incoming chunk false).1 ++ (b.incoming chunk false).2.1) := by
  rintro ⟨ends, starts⟩
  cases chunk with
  | bytes bs =>
    rcases bytes_whole tracks bs false with plain | ⟨_, nothing⟩
    · exact plain starts
    · rw [nothing] at ends
      exact Utf8.not_endsLead_nil ends
  | string t =>
    rw [incoming_string tracks] at starts
    rcases starts.append with inside | ⟨blank, here⟩
    · exact not_startsTrail_ending _ inside
    · refine whole (.inr ⟨t, rfl, ?_, here⟩)
      rw [blank, append_nil]
      exact (append_nil r.text).symm ▸ ends

/-- **A push after omitted text splits no pair** in any of its pieces when it cuts none. -/
theorem push_skip_whole (tracks : Tracks b r) (whole : ¬r.Cuts ⟨chunk, some e⟩) :
    ¬Splits (r.text ++ ending r) e ∧
      ¬Splits (r.text ++ ending r ++ e) (b.incoming chunk true).2.1 := by
  refine ⟨fun splits => whole (.inl splits), ?_⟩
  cases chunk with
  | bytes bs =>
    rintro ⟨_, starts⟩
    rcases bytes_whole tracks bs true with plain | ⟨never, _⟩
    · exact plain starts
    · cases never
  | string t => exact fun splits => whole (.inr ⟨t, rfl, splits⟩)

/-! ### The parts of a buffer an operation leaves alone -/

theorem decoder_accept (b : OutputBuffer) (t : Text) :
    (b.accept t).2.decoder = b.decoder ∧ (b.accept t).2.started = b.started := by
  unfold OutputBuffer.accept
  split
  · exact ⟨rfl, rfl⟩
  · dsimp only
    split
    · exact ⟨rfl, rfl⟩
    · split <;> exact ⟨rfl, rfl⟩

theorem decoder_skip (b : OutputBuffer) (s : OutputSkip) :
    (b.skip s).decoder = b.decoder ∧ (b.skip s).started = b.started := by
  unfold OutputBuffer.skip
  split <;> exact ⟨rfl, rfl⟩

theorem incoming_store (b : OutputBuffer) (chunk : Chunk) (skipping : Bool) :
    (b.incoming chunk skipping).2.2 = { b with
      decoder := (b.incoming chunk skipping).2.2.decoder
      started := (b.incoming chunk skipping).2.2.started } := by
  cases chunk <;> rfl

theorem compact_keeps (b : OutputBuffer) :
    b.compact.decoder = b.decoder ∧ b.compact.started = b.started ∧
      b.compact.totalBytes = b.totalBytes ∧ b.compact.totalNewlines = b.totalNewlines ∧
      b.compact.endsWithNewline = b.endsWithNewline := by
  unfold OutputBuffer.compact
  split
  · exact ⟨rfl, rfl, rfl, rfl, rfl⟩
  · split <;> exact ⟨rfl, rfl, rfl, rfl, rfl⟩

theorem Tracks.of_same {b' : OutputBuffer} (tracks : Tracks b r)
    (decoder : b'.decoder = b.decoder) (started : b'.started = b.started) : Tracks b' r :=
  ⟨decoder.trans tracks.decoder, by rw [started]; exact tracks.started⟩

variable {D : Text}

theorem Counts.compact (counts : Counts b D) : Counts b.compact D := by
  obtain ⟨_, _, bytes, newlines, ends⟩ := compact_keeps b
  exact ⟨bytes.trans counts.bytes, newlines.trans counts.newlines, ends.trans counts.ends⟩

theorem push_none (b : OutputBuffer) (chunk : Chunk) :
    (b.push chunk none).2 = ((b.incoming chunk false).2.2.accept
      ((b.incoming chunk false).1 ++ (b.incoming chunk false).2.1)).2 := rfl

theorem push_some (retain : b.limits.retain = .tail) (chunk : Chunk) (e : Text) :
    (b.push chunk (some (skipOf e))).2 =
      ((((b.incoming chunk true).2.2.accept (b.incoming chunk true).1).2.skip (skipOf e)).accept
        (b.incoming chunk true).2.1).2 := by
  have same : (b.incoming chunk true).2.2.limits = b.limits := by rw [incoming_store]
  unfold OutputBuffer.push
  simp only [Option.isSome_some, same, retain]

theorem text_push_none (tracks : Tracks b (received ps)) (chunk : Chunk) :
    (received (ps ++ [⟨chunk, none⟩])).text = (received ps).text ++
      ((b.incoming chunk false).1 ++ (b.incoming chunk false).2.1) := by
  rw [received_append]
  exact (adds tracks ⟨chunk, none⟩).text

theorem text_push_some (tracks : Tracks b (received ps)) (chunk : Chunk) (e : Text) :
    (received (ps ++ [⟨chunk, some e⟩])).text =
      (received ps).text ++ ending (received ps) ++ e ++ (b.incoming chunk true).2.1 := by
  rw [received_append]
  refine (adds tracks ⟨chunk, some e⟩).text.trans ?_
  show _ ++ ((b.incoming chunk true).1 ++ (e ++ (b.incoming chunk true).2.1)) = _
  rw [incoming_skip tracks chunk]
  simp only [append_assoc]

theorem Tracks.push_none (tracks : Tracks b (received ps)) (chunk : Chunk) :
    Tracks (b.push chunk none).2 (received (ps ++ [⟨chunk, none⟩])) := by
  have same := decoder_accept (b.incoming chunk false).2.2
    ((b.incoming chunk false).1 ++ (b.incoming chunk false).2.1)
  rw [received_append]
  exact (adds tracks ⟨chunk, none⟩).tracks.of_same same.1 same.2

theorem Tracks.push_some (tracks : Tracks b (received ps)) (retain : b.limits.retain = .tail)
    (chunk : Chunk) (e : Text) :
    Tracks (b.push chunk (some (skipOf e))).2 (received (ps ++ [⟨chunk, some e⟩])) := by
  have opens : Tracks (b.incoming chunk true).2.2 ((received ps).push ⟨chunk, some e⟩) :=
    (adds tracks ⟨chunk, some e⟩).tracks
  rw [Output.push_some retain, received_append]
  have accepted := decoder_accept
    (((b.incoming chunk true).2.2.accept (b.incoming chunk true).1).2.skip (skipOf e))
    (b.incoming chunk true).2.1
  have skipped := decoder_skip ((b.incoming chunk true).2.2.accept (b.incoming chunk true).1).2
    (skipOf e)
  have ended := decoder_accept (b.incoming chunk true).2.2 (b.incoming chunk true).1
  exact ((opens.of_same ended.1 ended.2).of_same skipped.1 skipped.2).of_same accepted.1 accepted.2

theorem Tracks.snapshot (tracks : Tracks b r) : Tracks b.snapshot.2 r :=
  tracks.of_same (compact_keeps b).1 (compact_keeps b).2.1

theorem tracks_empty (limits : OutputLimits) : Tracks { limits := limits } (received []) :=
  ⟨rfl, iff_of_false Bool.false_ne_true
    (not_or.mpr ⟨fun ⟨s, member, _⟩ => (by cases member), fun some => some rfl⟩)⟩

/-! ### Bytes a decoder holds back -/

theorem valid_decoder (r : Received) : Utf8.Decoder.Valid r.decoder :=
  Utf8.Decoder.valid_feed (.between rfl) r.run

/-- The text of bytes, with what the decoder holds back, is as long as the bytes. -/
theorem length_fed {d : Utf8.Decoder} (valid : Utf8.Decoder.Valid d) (bs : List UInt8) :
    d.pending + bs.length ≤ (encode (Utf8.units (d.feed bs).2)).length + (d.feed bs).1.pending := by
  rw [Utf8.encode_units]
  exact Utf8.Decoder.length_feed_le valid bs

theorem count_fed {d : Utf8.Decoder} (valid : Utf8.Decoder.Valid d) (bs : List UInt8) :
    bs.count NEWLINE ≤ (Utf8.units (d.feed bs).2).count 0x0A := by
  rw [← Utf8.count_encodeChars]
  exact Utf8.Decoder.count_feed_le valid bs

theorem pending_le_ending (r : Received) : r.decoder.pending ≤ (encode (ending r)).length := by
  rw [ending, Utf8.encode_units]
  exact Utf8.Decoder.pending_le_flush (valid_decoder r)

/-! ### Tail retention -/

/-- A buffer that keeps a tail, after some pushes. -/
structure FollowsTail (b : OutputBuffer) (ps : List Pushed) : Prop where
  tracks : Tracks b (received ps)
  counts : Counts b (received ps).text
  store : TailStore b (received ps).text
  enough : Enough b (received ps).text (received ps).decoder.pending

theorem incoming_counts (counts : Counts b D) (chunk : Chunk) (skipping : Bool) :
    Counts (b.incoming chunk skipping).2.2 D := by
  rw [incoming_store]
  exact ⟨counts.bytes, counts.newlines, counts.ends⟩

theorem incoming_tail (store : TailStore b D) (chunk : Chunk) (skipping : Bool) :
    TailStore (b.incoming chunk skipping).2.2 D := by
  rw [incoming_store]
  exact ⟨store.retain, store.notFull, store.measures, store.suffix, store.lead⟩

theorem incoming_enough {pending : Nat} (enough : Enough b D pending) (chunk : Chunk)
    (skipping : Bool) : Enough (b.incoming chunk skipping).2.2 D pending := by
  rw [incoming_store]
  exact enough

/-- What is held back of a character arrives with the next chunk, or stays held back. -/
theorem enough_pending (follows : FollowsTail b ps) (chunk : Chunk) :
    ∃ pending, Enough b (received ps).text pending ∧ pending ≤
      (encode ((b.incoming chunk false).1 ++ (b.incoming chunk false).2.1)).length +
        (received (ps ++ [⟨chunk, none⟩])).decoder.pending := by
  cases chunk with
  | string t =>
    have cut : ¬Splits (ending (received ps)) t := fun splits =>
      Utf8.not_endsLead_units _ splits.1
    have held := pending_le_ending (received ps)
    refine ⟨_, follows.enough, ?_⟩
    rw [incoming_string follows.tracks, show (b.incoming (.string t) false).2.1 = t from rfl,
      Utf8.encode_append cut, length_append]
    omega
  | bytes bs =>
    by_cases first : b.started = true
    · have whole : (b.incoming (.bytes bs) false).2.1 =
          Utf8.units ((received ps).decoder.feed bs).2 := by
        rw [← follows.tracks.decoder]
        simp [OutputBuffer.incoming, first]
      have fed := length_fed (valid_decoder (received ps)) bs
      have after : (received (ps ++ [⟨.bytes bs, none⟩])).decoder =
          ((received ps).decoder.feed bs).1 := by
        rw [received_append]
        show (Utf8.Decoder.feed {} ((received ps).run ++ bs)).1 = _
        rw [Utf8.Decoder.feed_append]
        rfl
      refine ⟨_, follows.enough, ?_⟩
      rw [whole, after, show (b.incoming (.bytes bs) false).1 = [] from rfl, nil_append]
      omega
    · -- Nothing has arrived, so nothing was forgotten.
      have nothing : (received ps).text = [] :=
        text_of_not_started fun started => first (follows.tracks.started.mpr started)
      obtain ⟨front, suffix⟩ := follows.store.suffix
      rw [nothing, Utf8.encode_nil] at suffix
      have stored : b.stored = [] := Utf8.encode_eq_nil.mp (List.append_eq_nil_iff.mp suffix.symm).2
      exact ⟨0, .inl (by rw [stored, nothing]), Nat.zero_le _⟩

theorem FollowsTail.push_none (follows : FollowsTail b ps)
    (whole : ¬(received ps).Cuts ⟨chunk, none⟩) :
    FollowsTail (b.push chunk none).2 (ps ++ [⟨chunk, none⟩]) := by
  have cut := push_whole follows.tracks whole
  obtain ⟨pending, enough, counted⟩ := enough_pending follows chunk
  have store := incoming_tail follows.store chunk false
  refine ⟨follows.tracks.push_none chunk, ?_, ?_, ?_⟩
  all_goals rw [text_push_none follows.tracks, Output.push_none]
  · exact (incoming_counts follows.counts chunk false).accept cut
  · exact (store.accept cut).1
  · exact (incoming_enough enough chunk false).accept store cut counted

variable {limits : OutputLimits} {events : List OutputEvent}

/-- The chunk after omitted text is more than the window, with what the decoder holds back. -/
theorem longer_after_skip (long : LongerThanWindow limits chunk) :
    Exceeds limits ((encode (b.incoming chunk true).2.1).length +
      (r.push ⟨chunk, some e⟩).decoder.pending) ((b.incoming chunk true).2.1.count 0x0A) := by
  cases chunk with
  | string t =>
    unfold LongerThanWindow Exceeds at long
    show limits.maxBytes < (encode t).length + _ ∨ limits.maxLines < t.count 0x0A
    omega
  | bytes bs =>
    have whole : (b.incoming (.bytes bs) true).2.1 =
        Utf8.units (Utf8.Decoder.feed {} bs).2 := by simp [OutputBuffer.incoming]
    have fed := @length_fed {} (.between rfl) bs
    have lines := @count_fed {} (.between rfl) bs
    rw [whole]
    unfold LongerThanWindow Exceeds at long
    show limits.maxBytes < _ + (Utf8.Decoder.feed {} bs).1.pending ∨ limits.maxLines < _
    omega

theorem FollowsTail.push_some (follows : FollowsTail b ps)
    (whole : ¬(received ps).Cuts ⟨chunk, some e⟩) (long : LongerThanWindow b.limits chunk) :
    FollowsTail (b.push chunk (some (skipOf e))).2 (ps ++ [⟨chunk, some e⟩]) := by
  obtain ⟨cutOmitted, cutChunk⟩ := push_skip_whole follows.tracks whole
  have closes := incoming_skip follows.tracks chunk
  have cutEnding : ¬Splits (received ps).text (ending (received ps)) := fun splits =>
    not_startsTrail_ending _ splits.2
  have store := incoming_tail follows.store chunk true
  have enough := incoming_enough follows.enough chunk true
  have counts := incoming_counts follows.counts chunk true
  have limits : (b.incoming chunk true).2.2.limits = b.limits := by rw [incoming_store]
  have first := (store.accept cutEnding).1
  have enoughFirst : Enough _ _ 0 := enough.accept store cutEnding (pending_le_ending (received ps))
  refine ⟨follows.tracks.push_some follows.store.retain chunk e, ?_, ?_, ?_⟩
  all_goals rw [text_push_some follows.tracks, Output.push_some follows.store.retain, closes]
  · exact ((counts.accept cutEnding).skip cutOmitted).accept cutChunk
  · exact ((@TailStore.skip _ _ e first).accept cutChunk).1
  · refine enoughFirst.after_skip first cutChunk (Nat.zero_le _) ?_
    rw [limits_accept, limits, received_append]
    exact longer_after_skip long

theorem FollowsTail.snapshot (follows : FollowsTail b ps) : FollowsTail b.snapshot.2 ps :=
  ⟨follows.tracks.snapshot, follows.counts.compact, follows.store.compact.1,
    follows.enough.compact follows.store⟩

/-- Nothing changes the limits. -/
theorem limits_after (b : OutputBuffer) (event : OutputEvent) : (b.after event).limits = b.limits := by
  cases event with
  | push p =>
    have same : ∀ skipping, (b.incoming p.chunk skipping).2.2.limits = b.limits := fun skipping => by
      rw [incoming_store]
    show (b.push p.chunk (p.omitted.map skipOf)).2.limits = _
    unfold OutputBuffer.push
    cases p.omitted with
    | none =>
      show ((b.incoming p.chunk false).2.2.accept _).2.limits = _
      rw [limits_accept, same]
    | some e =>
      dsimp only [Option.map_some]
      split
      · exact same _
      · rw [limits_accept, limits_skip, limits_accept, same]
  | snapshot =>
    show b.compact.limits = _
    unfold OutputBuffer.compact
    split
    · rfl
    · split <;> rfl

theorem limits_bufferAfter (limits : OutputLimits) (events : List OutputEvent) :
    (bufferAfter limits events).limits = limits := by
  induction events using List.reverseRecOn with
  | nil => rfl
  | append_singleton events event ih =>
    rw [bufferAfter, foldl_append]
    exact (limits_after _ event).trans ih

theorem pushes_append (events more : List OutputEvent) :
    pushes (events ++ more) = pushes events ++ pushes more :=
  filterMap_append

theorem declared_left {qs : List Pushed} (declared : Declared limits (ps ++ qs)) :
    Declared limits ps :=
  fun p member => declared p (mem_append_left qs member)

/-- What the empty buffer has, and pushes and snapshots keep, every run keeps. -/
theorem follows_events {F : OutputBuffer → List Pushed → Prop} (Allowed : List Pushed → Prop)
    (left : ∀ ps p, Allowed (ps ++ [p]) → Allowed ps)
    (empty : Allowed [] → F { limits := limits } [])
    (snapshot : ∀ b ps, F b ps → F b.snapshot.2 ps)
    (push : ∀ b ps p, b.limits = limits → Allowed (ps ++ [p]) → F b ps →
      F (b.push p.chunk (p.omitted.map skipOf)).2 (ps ++ [p]))
    (allowed : Allowed (pushes events)) : F (bufferAfter limits events) (pushes events) := by
  induction events using List.reverseRecOn with
  | nil => exact empty allowed
  | append_singleton events event ih =>
    rw [pushes_append] at allowed ⊢
    have after : bufferAfter limits (events ++ [event]) = (bufferAfter limits events).after event := by
      rw [bufferAfter, foldl_append]
      rfl
    rw [after]
    cases event with
    | snapshot =>
      rw [show pushes [.snapshot] = [] from rfl, append_nil] at *
      exact snapshot _ _ (ih allowed)
    | push p => exact push _ _ p (limits_bufferAfter limits events) allowed (ih (left _ p allowed))

theorem whole_left {p : Pushed} (whole : ¬SplitsPair (ps ++ [p])) :
    ¬SplitsPair ps ∧ ¬(received ps).Cuts p :=
  ⟨fun splits => whole (splits.append _), fun cuts => whole ⟨_, p, [], rfl, cuts⟩⟩

/-- **Every run of a buffer that keeps a tail follows its pushes.** -/
theorem followsTail_run (retain : limits.retain = .tail)
    (declared : Declared limits (pushes events)) (whole : ¬SplitsPair (pushes events)) :
    FollowsTail (bufferAfter limits events) (pushes events) := by
  refine follows_events (fun ps => Declared limits ps ∧ ¬SplitsPair ps)
    (fun ps p allowed => ⟨declared_left allowed.1, (whole_left allowed.2).1⟩) (fun _ => ?_)
    (fun b ps follows => follows.snapshot) (fun b ps p same allowed follows => ?_) ⟨declared, whole⟩
  · exact ⟨tracks_empty limits, ⟨rfl, rfl, rfl⟩, ⟨retain, rfl, .nil, ⟨[], rfl⟩,
      fun ends => absurd ends Utf8.not_endsLead_nil⟩, .inl rfl⟩
  · have cuts := (whole_left allowed.2).2
    obtain ⟨chunk, omitted⟩ := p
    cases omitted with
    | none => exact follows.push_none cuts
    | some e =>
      refine follows.push_some cuts ?_
      rw [same]
      exact (allowed.1 ⟨chunk, some e⟩ (by simp) rfl).2

/-! ### Head retention -/

/-- The text had arrived after some of the pushes. -/
def ArrivedAt (ps : List Pushed) (a : Text) : Prop :=
  ∃ before, before <+: ps ∧ (received before).text = a

theorem arrivedAt_concat (ps : List Pushed) (p : Pushed) :
    ArrivedAt (ps ++ [p]) = fun a => ArrivedAt ps a ∨ a = (received (ps ++ [p])).text := by
  funext a
  refine propext ⟨?_, ?_⟩
  · rintro ⟨before, inside, rfl⟩
    rcases List.prefix_concat_iff.mp inside with rfl | earlier
    · exact .inr rfl
    · exact .inl ⟨before, earlier, rfl⟩
  · rintro (⟨before, inside, rfl⟩ | rfl)
    · exact ⟨before, inside.trans (prefix_append _ _), rfl⟩
    · exact ⟨_, prefix_refl _, rfl⟩

/-- A buffer that keeps a head, after some pushes. -/
structure FollowsHead (b : OutputBuffer) (ps : List Pushed) : Prop where
  tracks : Tracks b (received ps)
  counts : Counts b (received ps).text
  store : HeadStore b (received ps).text (ArrivedAt ps)

theorem incoming_head {P : Text → Prop} (store : HeadStore b D P) (chunk : Chunk)
    (skipping : Bool) : HeadStore (b.incoming chunk skipping).2.2 D P := by
  rw [incoming_store]
  exact ⟨store.retain, store.measures, store.prefixes, store.early, store.open_, store.closed⟩

theorem FollowsHead.push_none (follows : FollowsHead b ps)
    (whole : ¬(received ps).Cuts ⟨chunk, none⟩) :
    FollowsHead (b.push chunk none).2 (ps ++ [⟨chunk, none⟩]) := by
  have cut := push_whole follows.tracks whole
  have text := text_push_none follows.tracks chunk
  refine ⟨follows.tracks.push_none chunk, ?_, ?_⟩
  · rw [text, Output.push_none]
    exact (incoming_counts follows.counts chunk false).accept cut
  · rw [arrivedAt_concat, text, Output.push_none]
    exact (incoming_head follows.store chunk false).accept cut

theorem FollowsHead.snapshot (follows : FollowsHead b ps) : FollowsHead b.snapshot.2 ps :=
  ⟨follows.tracks.snapshot, follows.counts.compact, follows.store.compact⟩

/-- **Every run of a buffer that keeps a head follows its pushes.** -/
theorem followsHead_run (retain : limits.retain = .head)
    (declared : Declared limits (pushes events)) (whole : ¬SplitsPair (pushes events)) :
    FollowsHead (bufferAfter limits events) (pushes events) := by
  refine follows_events (fun ps => Declared limits ps ∧ ¬SplitsPair ps)
    (fun ps p allowed => ⟨declared_left allowed.1, (whole_left allowed.2).1⟩) (fun _ => ?_)
    (fun b ps follows => follows.snapshot) (fun b ps p same allowed follows => ?_) ⟨declared, whole⟩
  · refine ⟨tracks_empty limits, ⟨rfl, rfl, rfl⟩,
      ⟨retain, .nil, ?_, ?_, fun _ => ⟨rfl, .inl rfl⟩, ?_⟩⟩
    · rintro a ⟨before, inside, rfl⟩
      cases List.prefix_nil.mp inside
      exact prefix_refl _
    · intro a _ _ short
      exact absurd short (Nat.not_lt_zero _)
    · intro full
      cases full
  · have cuts := (whole_left allowed.2).2
    obtain ⟨chunk, omitted⟩ := p
    cases omitted with
    | none => exact follows.push_none cuts
    | some e =>
      have other := (allowed.1 ⟨chunk, some e⟩ (by simp) rfl).1
      rw [retain] at other
      cases other

/-! ### The end of the stream -/

/-- **Where no cut splits a pair**, the last snapshot is the bounded output unless a head window
with a lone surrogate ends at a cut. -/
theorem final_eq_of_whole (declared : Declared limits (pushes events))
    (whole : ¬SplitsPair (pushes events)) :
    finalSnapshot limits events = bounded (output (pushes events)) limits ↔
      ¬LoneHead limits (pushes events) := by
  have limits_ := limits_bufferAfter limits events
  have cut : ¬Splits (received (pushes events)).text (ending (received (pushes events))) :=
    fun splits => not_startsTrail_ending _ splits.2
  cases retain : limits.retain with
  | tail =>
    have follows := followsTail_run retain declared whole
    refine iff_of_true ?_ fun lone => absurd (retain.symm.trans lone.1) (by decide)
    have decoder := follows.tracks.decoder
    unfold finalSnapshot OutputBuffer.end_
    rw [decoder, show Utf8.units (received (pushes events)).decoder.flush =
      ending (received (pushes events)) from rfl, output_eq]
    have store : TailStore { bufferAfter limits events with decoder := {} }
        (received (pushes events)).text :=
      ⟨follows.store.retain, follows.store.notFull, follows.store.measures, follows.store.suffix,
        follows.store.lead⟩
    have counts : Counts { bufferAfter limits events with decoder := {} }
        (received (pushes events)).text :=
      ⟨follows.counts.bytes, follows.counts.newlines, follows.counts.ends⟩
    have enough : Enough _ _ 0 := Enough.accept store cut follows.enough (pending_le_ending _)
    have last := snapshot_tail (counts.accept cut) (store.accept cut).1 enough
    rwa [limits_accept, limits_] at last
  | head =>
    have follows := followsHead_run retain declared whole
    have decoder := follows.tracks.decoder
    unfold finalSnapshot OutputBuffer.end_
    rw [decoder, show Utf8.units (received (pushes events)).decoder.flush =
      ending (received (pushes events)) from rfl]
    have store : HeadStore { bufferAfter limits events with decoder := {} }
        (received (pushes events)).text (ArrivedAt (pushes events)) :=
      ⟨follows.store.retain, follows.store.measures, follows.store.prefixes, follows.store.early,
        follows.store.open_, follows.store.closed⟩
    have counts : Counts { bufferAfter limits events with decoder := {} }
        (received (pushes events)).text :=
      ⟨follows.counts.bytes, follows.counts.newlines, follows.counts.ends⟩
    have last := snapshot_head (counts.accept cut) (store.accept cut)
    rw [limits_accept, limits_, ← output_eq] at last
    rw [last]
    refine not_congr ⟨?_, ?_⟩
    · rintro ⟨a, (⟨before, inside, rfl⟩ | rfl), other, lone⟩
      · exact ⟨retain, before, inside, other, lone⟩
      · exact absurd rfl other
    · rintro ⟨_, before, inside, other, lone⟩
      exact ⟨_, .inl ⟨before, inside, rfl⟩, other, lone⟩

end TianGong.Output

/-
**What came with the upgrade.**

A connection reads its head while it is made, before anyone can listen to it: the texts that are
complete there are given to no one. Nothing else depends on how the bytes are split.

* `delivered_iff`: the texts that frames carry are delivered exactly when the head holds none of
  them, and none is too long or starts with a byte-order mark.
-/

import TianGong.SecServer.WebSocketTexts

namespace TianGong.SecServer

open List
open Utf8 (encodeChars decodeChars units)
open Connection (decodeFatal Fit)

/-! ### Listening -/

namespace Connection

/-- The connection, with or without a listener, that has been given some texts. -/
def tuned (c : Connection) (listening : Bool) (delivered : List Text) : Connection :=
  { c with listening := listening, delivered := delivered }

variable (c : Connection) (listening : Bool) (delivered : List Text)

theorem tuned_close (code : Nat) (reason : Text) :
    (c.tuned listening delivered).close code reason =
      (c.close code reason).tuned listening delivered := by
  unfold Connection.close tuned
  dsimp only
  split_ifs <;> rfl

/-- **A step hears**: a listener changes nothing but what it is given. -/
def Hears (step : Connection → Connection) (c : Connection) : Prop :=
  ∃ (after : Connection) (texts : List Text), ∀ listening delivered, step (c.tuned listening delivered) =
    after.tuned listening (if listening then delivered ++ texts else delivered)

variable {c} {step step' : Connection → Connection}

theorem Hears.of_deaf
    (deaf : ∀ listening delivered,
      step (c.tuned listening delivered) = (step c).tuned listening delivered) : Hears step c := by
  refine ⟨step c, [], fun listening delivered => ?_⟩
  rw [append_nil, ite_self]
  exact deaf listening delivered

theorem Hears.of_eq {c' : Connection} (hears : Hears step' c')
    (same : ∀ listening delivered,
      step (c.tuned listening delivered) = step' (c'.tuned listening delivered)) :
    Hears step c := by
  obtain ⟨after, texts, heard⟩ := hears
  exact ⟨after, texts, fun listening delivered => (same _ _).trans (heard _ _)⟩

theorem hears_close (c : Connection) (code : Nat) (reason : Text) : Hears (·.close code reason) c :=
  .of_deaf fun listening delivered => tuned_close c listening delivered code reason

theorem hears_deliver (c : Connection) (fin : Bool) (payload : List UInt8) :
    Hears (·.deliver fin payload) c := by
  cases fin with
  | false => exact .of_deaf fun _ _ => rfl
  | true =>
    cases decoded : decodeFatal payload with
    | none =>
      refine (hears_close c 1007 (text "invalid utf-8")).of_eq fun _ _ => ?_
      unfold deliver
      rw [decoded]
      rfl
    | some text =>
      refine ⟨c, [text], fun listening delivered => ?_⟩
      unfold deliver
      rw [decoded]
      cases listening <;> rfl

/-- What is done with a continuation of a message. -/
theorem hears_continuation (inside : c.fragmenting = true) (fin : Bool) (payload : List UInt8) :
    Hears (·.handleFrame fin OPCODE_CONTINUATION payload) c := by
  have continued (listening : Bool) (delivered : List Text) :=
    handleFrame_continuation (c := c.tuned listening delivered) inside fin payload
  by_cases large : MAX_MESSAGE_BYTES < c.fragmentBytes + payload.length
  · exact (hears_close (c.grown payload) 1009 (text "message too large")).of_eq
      fun _ _ => (continued _ _).trans (if_pos large)
  · cases fin with
    | false =>
      refine .of_deaf fun listening delivered => ?_
      rw [handleFrame_continuation inside, if_neg large]
      exact (continued listening delivered).trans (if_neg large)
    | true =>
      exact (hears_deliver c.cleared true (c.fragments ++ [payload]).flatten).of_eq
        fun _ _ => (continued _ _).trans (if_neg large)

theorem hears_handleFrame (c : Connection) (fin : Bool) (opcode : UInt8) (payload : List UInt8) :
    Hears (·.handleFrame fin opcode payload) c := by
  by_cases isText : opcode = OPCODE_TEXT
  · rw [isText]
    by_cases inside : c.fragmenting = true
    · exact (hears_close c 1002 (text "interleaved data frame")).of_eq fun _ _ => if_pos inside
    · exact (hears_deliver c fin payload).of_eq fun _ _ => if_neg inside
  by_cases isContinuation : opcode = OPCODE_CONTINUATION
  · rw [isContinuation]
    cases inside : c.fragmenting with
    | true => exact hears_continuation inside fin payload
    | false =>
      refine (hears_close c 1002 (text "unexpected continuation")).of_eq fun listening delivered => ?_
      have closed : (c.tuned listening delivered).fragmenting = false := inside
      unfold handleFrame
      rw [if_neg (by decide), if_pos rfl, closed]
      rfl
  refine .of_deaf fun listening delivered => ?_
  unfold handleFrame
  simp only [if_neg isText, if_neg isContinuation]
  split_ifs
  · exact tuned_close ..
  · exact tuned_close ..
  · exact tuned_close ..
  · rfl
  · rfl
  · exact tuned_close ..

end Connection

/-! ### Reading with and without a listener -/

/-- A step on a connection with pending bytes hears. -/
def HearsAll (step : Connection × List UInt8 → Connection × List UInt8) : Prop :=
  ∀ (c : Connection) (pending : List UInt8), ∃ (after : Connection) (texts : List Text)
    (rest : List UInt8), ∀ listening delivered, step (c.tuned listening delivered, pending) =
      (after.tuned listening (if listening then delivered ++ texts else delivered), rest)

theorem hearsAll_id : HearsAll id := by
  refine fun c pending => ⟨c, [], pending, fun listening delivered => ?_⟩
  rw [append_nil, ite_self]
  rfl

theorem HearsAll.comp {step step' : Connection × List UInt8 → Connection × List UInt8}
    (second : HearsAll step') (first : HearsAll step) : HearsAll fun x => step' (step x) := by
  intro c pending
  obtain ⟨between, texts, left, heard⟩ := first c pending
  obtain ⟨after, texts', rest, heard'⟩ := second between left
  refine ⟨after, texts ++ texts', rest, fun listening delivered => ?_⟩
  show step' (step _) = _
  rw [heard, heard']
  cases listening
  · rfl
  · rw [if_pos rfl, if_pos rfl, if_pos rfl, append_assoc]

theorem hearsAll_drain (fuel : Nat) : HearsAll (machine.drain fuel) := by
  induction fuel with
  | zero => exact hearsAll_id
  | succ fuel ih =>
    intro c pending
    cases read : machine.reader.read pending with
    | more =>
      refine ⟨c, [], pending, fun listening delivered => ?_⟩
      rw [Chunks.Machine.drain, read, append_nil, ite_self]
    | stop refusal =>
      obtain ⟨after, texts, heard⟩ := Connection.hears_close c refusal.code refusal.reason
      refine ⟨after, texts, pending, fun listening delivered => ?_⟩
      rw [Chunks.Machine.drain, read]
      exact congrArg (·, pending) (heard listening delivered)
    | item frame rest =>
      obtain ⟨between, texts, heard⟩ :=
        Connection.hears_handleFrame c frame.fin frame.opcode frame.payload
      obtain ⟨after, texts', left, heard'⟩ := ih between rest
      have handled (listening : Bool) (delivered : List Text) :
          machine.handle (c.tuned listening delivered) frame =
            between.tuned listening (if listening then delivered ++ texts else delivered) :=
        heard listening delivered
      by_cases closed : between.isClosed = true
      · refine ⟨between, texts, rest, fun listening delivered => ?_⟩
        rw [Chunks.Machine.drain, read]
        dsimp only
        rw [handled]
        exact if_pos closed
      · refine ⟨after, texts ++ texts', left, fun listening delivered => ?_⟩
        rw [Chunks.Machine.drain, read]
        dsimp only
        rw [handled]
        refine (if_neg closed).trans ((heard' _ _).trans ?_)
        cases listening
        · rfl
        · rw [if_pos rfl, if_pos rfl, if_pos rfl, append_assoc]

theorem hearsAll_feed (chunk : List UInt8) : HearsAll (machine.feed · chunk) := by
  intro c pending
  by_cases closed : c.isClosed = true
  · obtain ⟨after, texts, rest, heard⟩ := hearsAll_id c pending
    exact ⟨after, texts, rest, fun _ _ => (if_pos closed).trans (heard _ _)⟩
  · obtain ⟨after, texts, rest, heard⟩ :=
      hearsAll_drain ((pending ++ chunk).length + 1) c (pending ++ chunk)
    exact ⟨after, texts, rest, fun _ _ => (if_neg closed).trans (heard _ _)⟩

theorem hearsAll_feeds (chunks : List (List UInt8)) :
    HearsAll fun x => chunks.foldl machine.feed x := by
  induction chunks with
  | nil => exact hearsAll_id
  | cons chunk chunks ih => exact ih.comp (hearsAll_feed chunk)

/-! ### The head -/

/-- The texts that a listener would have been given of some bytes. -/
def headTexts (head : List UInt8) : List Text := (machine.feed fresh head).1.delivered

/-- **The head holds a whole text**: frames at its front carry one that fits the size limit. -/
def CompleteIn (head : List UInt8) : Prop :=
  ∃ frames t rest, head = frameBytes frames ++ rest ∧ Conveys frames [t] .between ∧
    (encodeChars t).length ≤ MAX_MESSAGE_BYTES

theorem settled_start (listening : Bool) :
    machine.Settled (({ listening := listening } : Connection), []) :=
  .inr rfl

variable (head : List UInt8)

theorem accepted_eq : accepted head = machine.feed ({}, []) head := by
  unfold accepted
  split_ifs with some
  · rfl
  · rw [List.length_eq_zero_iff.mp (Nat.eq_zero_of_not_pos some),
      Chunks.Machine.Settled.feed_nil (settled_start false)]

/-- **Only the texts of the head differ** from what is received when all comes in one chunk. -/
theorem received_split (chunks : List (List UInt8)) :
    ∃ (after : Connection) (rest : List UInt8) (heard : List Text),
      received head chunks = (after.tuned true heard, rest) ∧
      machine.Alike (after.tuned true (headTexts head ++ heard), rest)
        (machine.feed fresh (head ++ chunks.flatten)) := by
  obtain ⟨c, lost, pending, first⟩ := hearsAll_feed head {} []
  obtain ⟨after, heard, rest, later⟩ := hearsAll_feeds chunks c pending
  have unheard : machine.feed ({}, []) head = (c.tuned false [], pending) := first false []
  have listened : machine.feed fresh head = (c.tuned true lost, pending) := first true []
  refine ⟨after, rest, heard, ?_, ?_⟩
  · unfold received
    rw [accepted_eq, unheard]
    exact later true []
  · have joined := Chunks.Machine.feeds_alike (settled_start true) (head :: chunks)
    rw [foldl_cons, flatten_cons] at joined
    rw [headTexts, listened]
    exact (later true lost).symm ▸ listened ▸ joined

theorem received_once (whole : List UInt8) : received [] [whole] = machine.feed fresh whole := rfl

/-- What a listener is given of any bytes is what frames at their front carry. -/
theorem headTexts_carried (bytes : List UInt8) :
    ∃ frames texts phase rest, bytes = frameBytes frames ++ rest ∧ Conveys frames texts phase ∧
      Fit texts ∧ headTexts bytes = texts.map shown := by
  have start : Connection.Reads { listening := true } [] .between := ⟨rfl, rfl, rfl, rfl⟩
  have empty : Fit [] := fun t member => absurd member not_mem_nil
  obtain ⟨frames, texts, phase, phase', rest, same, carries, fit, reads⟩ :=
    @Connection.Reads.drain _ _ _ _ (bytes.length + 1) bytes start rfl .nil empty
  exact ⟨frames, texts, phase, rest, same, carries, fit, reads.delivered⟩

/-- What has been given to a listener stays. -/
theorem delivered_feed {c : Connection} (listening : c.listening = true)
    (pending chunk : List UInt8) :
    ∃ more, (machine.feed (c, pending) chunk).1.delivered = c.delivered ++ more := by
  obtain ⟨after, texts, rest, heard⟩ := hearsAll_feed chunk c pending
  have fed : machine.feed (c, pending) chunk = _ := heard c.listening c.delivered
  refine ⟨texts, ?_⟩
  rw [fed, listening]
  rfl

/-- **A whole text is in the head** exactly when a listener would have been given something. -/
theorem completeIn_iff : CompleteIn head ↔ headTexts head ≠ [] := by
  constructor
  · rintro ⟨frames, t, rest, rfl, carries, small⟩ none
    have fit : Fit [t] := fun s member => (List.mem_singleton.mp member).symm ▸ small
    have reads := (carries.readAll fit fun _ inside => Phase.noConfusion inside).1
    obtain ⟨more, grows⟩ := delivered_feed reads.listening
      (machine.feed fresh (frameBytes frames)).2 rest
    have joined := (@Chunks.Machine.feed_feed _ _ _ _ machine fresh (frameBytes frames) rest).1
    rw [headTexts, ← joined] at none
    rw [none, reads.delivered] at grows
    cases grows
  · intro some
    obtain ⟨frames, texts, phase, rest, rfl, carries, fit, heard⟩ := headTexts_carried head
    cases texts with
    | nil => exact absurd heard some
    | cons t later =>
      obtain ⟨fs, left, rfl, first⟩ := carries.leads rfl
      refine ⟨fs, t, frameBytes left ++ rest, ?_, first, fit t mem_cons_self⟩
      rw [frameBytes_append, append_assoc]

/-! ### Texts that are shown as they are -/

theorem shown_eq_iff {t : List Char} : shown t = units t ↔ (units t).head? ≠ some 0xFEFF := by
  unfold shown
  cases units t with
  | nil => exact ⟨fun _ marked => absurd marked (Option.some_ne_none _).symm, fun _ => rfl⟩
  | cons u rest =>
    split_ifs with marked
    · refine ⟨fun same => absurd (congrArg List.length same) ?_, fun other => absurd marked other⟩
      rw [tail_cons, length_cons]
      omega
    · exact ⟨fun _ => marked, fun _ => rfl⟩

/-- What is given for a text is not a longer one. -/
theorem length_of_shown {s t : List Char} (same : units s = shown t) :
    (encodeChars s).length ≤ (encodeChars t).length := by
  unfold shown at same
  by_cases marked : (units t).head? = some 0xFEFF
  · rw [if_pos marked] at same
    obtain ⟨rest, split⟩ := List.head?_eq_some_iff.mp marked
    rw [split, tail_cons] at same
    have whole : units t = units (Char.ofNat 0xFEFF :: s) := by
      rw [split, ← same]
      rfl
    have back := congrArg Utf8.scalars whole
    rw [Utf8.scalars_units, Utf8.scalars_units] at back
    rw [back, Utf8.encodeChars_cons, length_append]
    exact Nat.le_add_left ..
  · rw [if_neg marked] at same
    have back := congrArg Utf8.scalars same
    rw [Utf8.scalars_units, Utf8.scalars_units] at back
    rw [back]

/-- The texts that are given are known by what is given for them. -/
theorem fit_of_shown {texts texts' : List (List Char)} (fit : Fit texts')
    (shows : ∀ t ∈ texts, units t ∈ texts'.map shown) : Fit texts := by
  intro t member
  obtain ⟨t', inside, same⟩ := List.mem_map.mp (shows t member)
  exact (length_of_shown same.symm).trans (fit t' inside)

/-! ### Chunks -/

/-- **The split makes no difference**, unless the head holds a whole text. -/
theorem received_alike (chunks : List (List UInt8)) :
    machine.Alike (received head chunks) (received [] [head ++ chunks.flatten]) ↔
      ¬CompleteIn head := by
  obtain ⟨after, rest, heard, split, whole⟩ := received_split head chunks
  rw [completeIn_iff, not_not, split, received_once]
  constructor
  · intro alike
    have same := congrArg Connection.delivered (alike.1.trans whole.1.symm)
    exact List.append_left_eq_self.mp (Eq.symm same)
  · intro none
    rw [none] at whole
    exact whole

/-- **The texts that frames carry are delivered**, unless one of them is in the head, is too long,
or starts with a byte-order mark. -/
theorem delivered_iff {frames : List ClientFrame} {texts : List (List Char)} {phase : Phase}
    (carries : Conveys frames texts phase) (ended : ∀ message, phase ≠ .within message)
    {head : List UInt8} {chunks : List (List UInt8)}
    (stream : head ++ chunks.flatten = frameBytes frames) :
    (received head chunks).1.delivered = texts.map units ↔
      ¬CompleteIn head ∧ Fit texts ∧ ∀ t ∈ texts, (units t).head? ≠ some 0xFEFF := by
  obtain ⟨after, rest, heard, split, whole⟩ := received_split head chunks
  have given : headTexts head ++ heard = headTexts (head ++ chunks.flatten) :=
    congrArg Connection.delivered whole.1
  have unmarked : texts.map shown = texts.map units ↔
      ∀ t ∈ texts, (units t).head? ≠ some 0xFEFF := by
    rw [map_inj_left]
    exact forall₂_congr fun t _ => shown_eq_iff
  have all (fit : Fit texts) : headTexts (head ++ chunks.flatten) = texts.map shown := by
    rw [stream]
    exact (carries.readAll fit fun message inside => absurd inside (ended message)).1.delivered
  rw [completeIn_iff, not_not, split, ← unmarked]
  show heard = _ ↔ _
  constructor
  · rintro rfl
    have fit : Fit texts := by
      obtain ⟨-, texts', -, -, -, -, fit', shows⟩ := headTexts_carried (head ++ chunks.flatten)
      refine fit_of_shown fit' fun t member => ?_
      rw [← shows, ← given]
      exact mem_append_right _ (mem_map_of_mem member)
    have shows := given.trans (all fit)
    have none : headTexts head = [] := by
      have count := congrArg List.length shows
      rw [length_append, length_map, length_map] at count
      exact List.length_eq_zero_iff.mp (by omega)
    rw [none] at shows
    exact ⟨none, fit, shows.symm⟩
  · rintro ⟨none, fit, same⟩
    rw [none] at given
    exact given.trans ((all fit).trans same)

/-- **Chunking makes no difference, and texts arrive as they were sent**, exactly as far as the head
holds no whole text, and the texts fit and are not marked. -/
theorem received_as_sent_iff (head : List UInt8) (chunks : List (List UInt8)) :
    (machine.Alike (received head chunks) (received [] [head ++ chunks.flatten]) ↔
      ¬CompleteIn head) ∧
    ∀ frames texts phase, Conveys frames texts phase → (∀ message, phase ≠ .within message) →
      head ++ chunks.flatten = frameBytes frames →
        ((received head chunks).1.delivered = texts.map units ↔
          ¬CompleteIn head ∧ ∀ t ∈ texts, (encodeChars t).length ≤ MAX_MESSAGE_BYTES ∧
            (units t).head? ≠ some 0xFEFF) := by
  refine ⟨received_alike head chunks, fun frames texts phase carries ended stream => ?_⟩
  rw [delivered_iff carries ended stream]
  refine and_congr_right' ⟨?_, ?_⟩
  · rintro ⟨fit, plain⟩ t member
    exact ⟨fit t member, plain t member⟩
  · intro each
    exact ⟨fun t member => (each t member).1, fun t member => (each t member).2⟩

/-- The two halves of a text, with a ping between, cut within the first header and the last mask. -/
theorem received_as_sent_halves :
    machine.Alike (received [0x01] [[0x81, 1, 2, 3, 4, 0x69, 0x89, 0x80, 0, 0, 0, 0, 0x80, 0x81, 0],
        [0, 0, 0, 0x69]])
      (received [] [[0x01] ++ [[0x81, 1, 2, 3, 4, 0x69, 0x89, 0x80, 0, 0, 0, 0, 0x80, 0x81, 0],
        [0, 0, 0, 0x69]].flatten]) ∧
    (received [0x01] [[0x81, 1, 2, 3, 4, 0x69, 0x89, 0x80, 0, 0, 0, 0, 0x80, 0x81, 0],
      [0, 0, 0, 0x69]]).1.delivered = [units ['h', 'i']] := by
  have none : ¬CompleteIn [0x01] := (completeIn_iff _).not.mpr (not_not.mpr rfl)
  have carries : Conveys [⟨false, OPCODE_TEXT, [1, 2, 3, 4], [0x68], .short, by decide, rfl, by decide⟩,
      ⟨true, OPCODE_PING, [0, 0, 0, 0], [], .short, by decide, rfl, by decide⟩,
      ⟨true, OPCODE_CONTINUATION, [0, 0, 0, 0], [0x69], .short, by decide, rfl, by decide⟩]
      [['h', 'i']] .between :=
    ((Conveys.nil.start _ rfl rfl).control Phase.noConfusion _ (.inl rfl) rfl (by decide)).last _ rfl
      rfl (by decide)
  refine ⟨(received_as_sent_iff _ _).1.mpr none, ?_⟩
  refine ((received_as_sent_iff _ _).2 _ _ _ carries (fun _ => Phase.noConfusion) (by decide)).mpr
    ⟨none, fun t member => ?_⟩
  rw [List.mem_singleton.mp member]
  exact ⟨by decide, by decide⟩

/-- A text that came with the upgrade is given to no one, and one with a mark loses it. -/
theorem head_text_lost :
    ¬machine.Alike (received [0x81, 0x81, 0, 0, 0, 0, 0x61] [])
      (received [] [[0x81, 0x81, 0, 0, 0, 0, 0x61]]) ∧
    (received [0x81, 0x81, 0, 0, 0, 0, 0x61] []).1.delivered = [] ∧
    (received [] [[0x81, 0x81, 0, 0, 0, 0, 0x61]]).1.delivered = [text "a"] ∧
    (received [] [[0x81, 0x84, 0, 0, 0, 0, 0xEF, 0xBB, 0xBF, 0x61]]).1.delivered = [text "a"] := by
  have lost : (received [0x81, 0x81, 0, 0, 0, 0, 0x61] []).1.delivered = [] := by decide +kernel
  have given : (received [] [[0x81, 0x81, 0, 0, 0, 0, 0x61]]).1.delivered = [text "a"] := by
    decide +kernel
  refine ⟨fun alike => ?_, lost, given, by decide +kernel⟩
  have same := congrArg Connection.delivered alike.1
  rw [lost, given] at same
  cases same

end TianGong.SecServer

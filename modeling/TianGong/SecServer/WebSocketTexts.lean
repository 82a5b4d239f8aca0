/-
**The texts that frames carry.**

* `Conveys`: a sequence of frames that carries texts, each cut in any way, with pings and pongs
  between and a close behind.
* `Conveys.reads`: frames that carry texts are read as these texts, up to the size limit.
* `heard`: whatever the bytes are, what is delivered is what frames at their front carry.
-/

import TianGong.SecServer.ClientFrames

namespace TianGong.SecServer

open List
open Chunks (Read)
open Utf8 (encodeChars decodeChars units)
open Connection (decodeFatal)

/-! ### Carrying -/

/-- Where a sequence of frames ends: between messages, in one of which there are some bytes, or
behind a close. -/
inductive Phase where
  | between
  | within (message : List UInt8)
  | closed

/-- **Frames carry texts.** -/
inductive Conveys : List ClientFrame → List (List Char) → Phase → Prop
  | nil : Conveys [] [] .between
  | control {frames : List ClientFrame} {texts : List (List Char)} {phase : Phase}
      (carries : Conveys frames texts phase) (going : phase ≠ .closed) (f : ClientFrame)
      (opcode : f.opcode = OPCODE_PING ∨ f.opcode = OPCODE_PONG) (fin : f.fin = true)
      (short : f.payload.length ≤ 125) : Conveys (frames ++ [f]) texts phase
  | whole {frames : List ClientFrame} {texts : List (List Char)}
      (carries : Conveys frames texts .between) (f : ClientFrame) (opcode : f.opcode = OPCODE_TEXT)
      (fin : f.fin = true) {t : List Char} (payload : f.payload = encodeChars t) :
      Conveys (frames ++ [f]) (texts ++ [t]) .between
  | start {frames : List ClientFrame} {texts : List (List Char)}
      (carries : Conveys frames texts .between) (f : ClientFrame) (opcode : f.opcode = OPCODE_TEXT)
      (more : f.fin = false) : Conveys (frames ++ [f]) texts (.within f.payload)
  | next {frames : List ClientFrame} {texts : List (List Char)} {message : List UInt8}
      (carries : Conveys frames texts (.within message)) (f : ClientFrame)
      (opcode : f.opcode = OPCODE_CONTINUATION) (more : f.fin = false) :
      Conveys (frames ++ [f]) texts (.within (message ++ f.payload))
  | last {frames : List ClientFrame} {texts : List (List Char)} {message : List UInt8}
      (carries : Conveys frames texts (.within message)) (f : ClientFrame)
      (opcode : f.opcode = OPCODE_CONTINUATION) (fin : f.fin = true) {t : List Char}
      (payload : message ++ f.payload = encodeChars t) :
      Conveys (frames ++ [f]) (texts ++ [t]) .between
  | close {frames : List ClientFrame} {texts : List (List Char)}
      (carries : Conveys frames texts .between) (f : ClientFrame)
      (opcode : f.opcode = OPCODE_CLOSE) (fin : f.fin = true) (short : f.payload.length ≤ 125) :
      Conveys (frames ++ [f]) texts .closed

/-- The first of the frames carry one text. -/
def Leads (frames : List ClientFrame) (t : List Char) : Prop :=
  ∃ fs rest, frames = fs ++ rest ∧ Conveys fs [t] .between

variable {f : ClientFrame} {t : List Char}

theorem Leads.concat {frames : List ClientFrame} (leads : Leads frames t) (f : ClientFrame) :
    Leads (frames ++ [f]) t := by
  obtain ⟨fs, rest, rfl, first⟩ := leads
  exact ⟨fs, rest ++ [f], append_assoc .., first⟩

/-- The last frame of a text is that of the first text only when there was none before. -/
theorem Conveys.leads_last {frames : List ClientFrame} {texts : List (List Char)}
    {last : List Char} (whole : Conveys (frames ++ [f]) (texts ++ [last]) .between)
    (inner : texts.head? = some t → Leads frames t) (first : (texts ++ [last]).head? = some t) :
    Leads (frames ++ [f]) t := by
  cases texts with
  | nil =>
    obtain rfl := Option.some.inj first
    exact ⟨_, [], (append_nil _).symm, whole⟩
  | cons => exact (inner first).concat f

/-- **The frames that carry the first text come first.** -/
theorem Conveys.leads {frames : List ClientFrame} {texts : List (List Char)} {phase : Phase}
    (carries : Conveys frames texts phase) (first : texts.head? = some t) : Leads frames t := by
  induction carries with
  | nil => cases first
  | control _ _ f _ _ _ ih | start _ f _ _ ih | next _ f _ _ ih | close _ f _ _ _ ih => exact (ih first).concat f
  | whole carries f opcode fin payload ih =>
    exact (Conveys.whole carries f opcode fin payload).leads_last ih first
  | last carries f opcode fin payload ih =>
    exact (Conveys.last carries f opcode fin payload).leads_last ih first

/-! ### Reading -/

theorem item_bounds {more rest : List UInt8} {frame : ReadFrame}
    (read : f.read more = .item frame rest) :
    f.payload.length ≤ MAX_MESSAGE_BYTES ∧
      ((f.opcode &&& 0x08 != 0) = true → f.fin = true ∧ f.payload.length ≤ 125) := by
  unfold ClientFrame.read at read
  by_cases large : MAX_MESSAGE_BYTES < f.payload.length
  · rw [if_pos large] at read
    cases read
  refine ⟨Nat.le_of_not_lt large, fun bit => ?_⟩
  rw [if_neg large, bit, Bool.true_and] at read
  by_cases bad : (!f.fin || decide (125 < f.payload.length)) = true
  · rw [if_pos bad] at read
    cases read
  · simpa using bad

/-- A frame within the bounds is read. -/
theorem read_of_bounds (more : List UInt8) (size : f.payload.length ≤ MAX_MESSAGE_BYTES)
    (control : (f.opcode &&& 0x08 != 0) = true → f.fin = true ∧ f.payload.length ≤ 125) :
    f.read more = .item ⟨f.fin, f.opcode, f.payload⟩ more := by
  unfold ClientFrame.read
  rw [if_neg size.not_gt, if_neg]
  rintro bad
  obtain ⟨bit, outside⟩ := (Bool.and_eq_true _ _).mp bad
  obtain ⟨fin, short⟩ := control bit
  rw [fin, Bool.not_true, Bool.false_or, decide_eq_true_iff] at outside
  exact short.not_gt outside

/-- The text as the decoder gives it. -/
def shown (t : List Char) : Text :=
  if (units t).head? = some 0xFEFF then (units t).tail else units t

theorem decodeChars_encodeChars (t : List Char) : decodeChars (encodeChars t) = t := by
  unfold decodeChars
  rw [Utf8.Decoder.feed_encodeChars]
  exact append_nil t

theorem decodeFatal_encodeChars (t : List Char) : decodeFatal (encodeChars t) = some (shown t) := by
  unfold decodeFatal
  rw [decodeChars_encodeChars, if_pos rfl]
  rfl

variable {payload : List UInt8}

theorem decodeFatal_eq_some {text : Text} (decoded : decodeFatal payload = some text) :
    ∃ t, payload = encodeChars t ∧ text = shown t := by
  unfold decodeFatal at decoded
  by_cases same : encodeChars (decodeChars payload) = payload
  · rw [if_pos same] at decoded
    exact ⟨decodeChars payload, same.symm, (Option.some.inj decoded).symm⟩
  · rw [if_neg same] at decoded
    cases decoded

namespace Connection

/-- The connection stands where frames end. -/
def At (c : Connection) : Phase → Prop
  | .between => c.isClosed = false ∧ c.fragmenting = false
  | .within message => c.isClosed = false ∧ c.fragmenting = true ∧
      c.fragments.flatten = message ∧ c.fragmentBytes = message.length
  | .closed => c.isClosed = true

/-- **The listener has been given these texts**, and the connection stands where frames end. -/
structure Reads (c : Connection) (texts : List (List Char)) (phase : Phase) : Prop where
  listening : c.listening = true
  delivered : c.delivered = texts.map shown
  here : c.At phase

theorem At.going {c : Connection} {phase : Phase} (here : c.At phase) (going : phase ≠ .closed) :
    c.isClosed = false := by
  cases phase with
  | between => exact here.1
  | within => exact here.1
  | closed => exact absurd rfl going

theorem close_delivered (c : Connection) (code : Nat) (reason : Text) :
    (c.close code reason).delivered = c.delivered ∧
      (c.close code reason).listening = c.listening := by
  dsimp only [close]
  split_ifs <;> exact ⟨rfl, rfl⟩

theorem Reads.close {c : Connection} {texts : List (List Char)} {phase : Phase}
    (reads : c.Reads texts phase) (code : Nat) (reason : Text) :
    (c.close code reason).Reads texts .closed :=
  ⟨(close_delivered c code reason).2.trans reads.listening,
    (close_delivered c code reason).1.trans reads.delivered, isClosed_close c code reason⟩

/-- A message is delivered. -/
theorem Reads.deliver {c : Connection} {texts : List (List Char)} (reads : c.Reads texts .between)
    (whole : payload = encodeChars t) : (c.deliver true payload).Reads (texts ++ [t]) .between := by
  unfold Connection.deliver
  rw [whole, decodeFatal_encodeChars]
  rw [Bool.not_true, if_neg Bool.false_ne_true]
  dsimp only
  rw [if_pos reads.listening]
  refine ⟨reads.listening, ?_, reads.here⟩
  show c.delivered ++ [shown t] = _
  rw [reads.delivered, map_append, map_singleton]

theorem Reads.control {c : Connection} {texts : List (List Char)} {phase : Phase}
    (reads : c.Reads texts phase) {opcode : UInt8}
    (control : opcode = OPCODE_PING ∨ opcode = OPCODE_PONG) (payload : List UInt8) :
    (c.handleFrame true opcode payload).Reads texts phase := by
  rcases control with rfl | rfl
  · show (c.writeFrame OPCODE_PONG payload).Reads texts phase
    refine ⟨reads.listening, reads.delivered, ?_⟩
    cases phase <;> exact reads.here
  · exact reads

theorem Reads.whole {c : Connection} {texts : List (List Char)} (reads : c.Reads texts .between)
    (whole : payload = encodeChars t) :
    (c.handleFrame true OPCODE_TEXT payload).Reads (texts ++ [t]) .between := by
  unfold handleFrame
  rw [if_pos rfl, reads.here.2, if_neg Bool.false_ne_true]
  exact reads.deliver whole

theorem Reads.start {c : Connection} {texts : List (List Char)} (reads : c.Reads texts .between)
    (payload : List UInt8) :
    (c.handleFrame false OPCODE_TEXT payload).Reads texts (.within payload) := by
  unfold handleFrame
  rw [if_pos rfl, reads.here.2, if_neg Bool.false_ne_true]
  exact ⟨reads.listening, reads.delivered, reads.here.1, rfl, append_nil payload, rfl⟩

variable {c : Connection} {texts : List (List Char)} {message : List UInt8}

/-- The connection with one more fragment. -/
def grown (c : Connection) (payload : List UInt8) : Connection :=
  { c with
    fragments := c.fragments ++ [payload]
    fragmentBytes := c.fragmentBytes + payload.length }

/-- The connection without fragments. -/
def cleared (c : Connection) : Connection :=
  { c with fragments := [], fragmentBytes := 0, fragmenting := false }

/-- **A continuation**, in a message. -/
theorem handleFrame_continuation (inside : c.fragmenting = true) (fin : Bool)
    (payload : List UInt8) :
    c.handleFrame fin OPCODE_CONTINUATION payload =
      if MAX_MESSAGE_BYTES < c.fragmentBytes + payload.length then
        (c.grown payload).close 1009 (text "message too large")
      else if fin then c.cleared.deliver true (c.fragments ++ [payload]).flatten
      else c.grown payload := by
  unfold handleFrame
  rw [if_neg (by decide), if_pos rfl, if_neg (by rw [inside]; decide)]
  rfl

section Reads

variable (reads : c.Reads texts (.within message))
include reads

theorem Reads.handle_continuation (fin : Bool) (payload : List UInt8) :
    c.handleFrame fin OPCODE_CONTINUATION payload =
      if MAX_MESSAGE_BYTES < (message ++ payload).length then
        (c.grown payload).close 1009 (text "message too large")
      else if fin then c.cleared.deliver true (message ++ payload)
      else c.grown payload := by
  obtain ⟨-, inside, flat, count⟩ := reads.here
  rw [handleFrame_continuation inside, count, length_append, flatten_concat, flat]

theorem Reads.grown (payload : List UInt8) :
    (c.grown payload).Reads texts (.within (message ++ payload)) := by
  obtain ⟨going, inside, flat, count⟩ := reads.here
  refine ⟨reads.listening, reads.delivered, going, inside, ?_, ?_⟩
  · show (c.fragments ++ [payload]).flatten = _
    rw [flatten_concat, flat]
  · show c.fragmentBytes + payload.length = _
    rw [count, length_append]

theorem Reads.cleared : c.cleared.Reads texts .between :=
  ⟨reads.listening, reads.delivered, reads.here.1, rfl⟩

theorem Reads.next (fits : (message ++ payload).length ≤ MAX_MESSAGE_BYTES) :
    (c.handleFrame false OPCODE_CONTINUATION payload).Reads texts
      (.within (message ++ payload)) := by
  rw [reads.handle_continuation, if_neg fits.not_gt, if_neg Bool.false_ne_true]
  exact reads.grown payload

end Reads

theorem Reads.last (reads : c.Reads texts (.within message)) {payload : List UInt8}
    (fits : (message ++ payload).length ≤ MAX_MESSAGE_BYTES) {t : List Char}
    (whole : message ++ payload = encodeChars t) :
    (c.handleFrame true OPCODE_CONTINUATION payload).Reads (texts ++ [t]) .between := by
  rw [reads.handle_continuation, if_neg fits.not_gt, if_pos rfl]
  exact reads.cleared.deliver whole

/-- Every text fits the size limit. -/
def Fit (texts : List (List Char)) : Prop :=
  ∀ t ∈ texts, (encodeChars t).length ≤ MAX_MESSAGE_BYTES

theorem Fit.concat (fit : Fit texts) (last : (encodeChars t).length ≤ MAX_MESSAGE_BYTES) :
    Fit (texts ++ [t]) := by
  intro s member
  rcases List.mem_append.mp member with earlier | same
  · exact fit s earlier
  · rw [List.mem_singleton.mp same]
    exact last

theorem Fit.of_concat (fit : Fit (texts ++ [t])) :
    Fit texts ∧ (encodeChars t).length ≤ MAX_MESSAGE_BYTES :=
  ⟨fun s member => fit s (mem_append_left _ member),
    fit t (mem_append_right _ mem_cons_self)⟩

/-- After a frame: the frames go on, or the connection has been closed. -/
def Follows (frames : List ClientFrame) (texts : List (List Char)) (f : ClientFrame)
    (c : Connection) : Prop :=
  (∃ texts' phase, Conveys (frames ++ [f]) texts' phase ∧ c.Reads texts' phase ∧ Fit texts') ∨
    c.Reads texts .closed

variable {frames : List ClientFrame} {phase : Phase} {f : ClientFrame}

theorem Reads.follows_deliver (reads : c.Reads texts .between) (fit : Fit texts)
    (size : payload.length ≤ MAX_MESSAGE_BYTES)
    (carries : ∀ t, payload = encodeChars t → Conveys (frames ++ [f]) (texts ++ [t]) .between) :
    Follows frames texts f (c.deliver true payload) := by
  cases decoded : decodeFatal payload with
  | none =>
    have closes : c.deliver true payload = c.close 1007 (text "invalid utf-8") := by
      unfold Connection.deliver
      rw [decoded]
      rfl
    rw [closes]
    exact .inr (reads.close _ _)
  | some =>
    obtain ⟨t, whole, -⟩ := decodeFatal_eq_some decoded
    exact .inl ⟨_, _, carries t whole, reads.deliver whole, fit.concat (whole ▸ size)⟩

theorem Reads.follows_text (reads : c.Reads texts phase) (going : c.isClosed = false)
    (carries : Conveys frames texts phase) (fit : Fit texts) (opcode : f.opcode = OPCODE_TEXT)
    (size : f.payload.length ≤ MAX_MESSAGE_BYTES) :
    Follows frames texts f (c.handleFrame f.fin OPCODE_TEXT f.payload) := by
  cases phase with
  | between =>
    cases fin : f.fin with
    | false => exact .inl ⟨_, _, carries.start f opcode fin, reads.start f.payload, fit⟩
    | true =>
      have delivers : c.handleFrame true OPCODE_TEXT f.payload = c.deliver true f.payload := by
        unfold handleFrame
        rw [if_pos rfl, reads.here.2, if_neg Bool.false_ne_true]
      rw [delivers]
      exact reads.follows_deliver fit size fun t whole => carries.whole f opcode fin whole
  | within message =>
    have closes : c.handleFrame f.fin OPCODE_TEXT f.payload =
        c.close 1002 (text "interleaved data frame") := by
      unfold handleFrame
      rw [if_pos rfl, reads.here.2.1, if_pos rfl]
    rw [closes]
    exact .inr (reads.close _ _)
  | closed => exact absurd (reads.here.symm.trans going) Bool.noConfusion

theorem Reads.follows_continuation (reads : c.Reads texts phase) (going : c.isClosed = false)
    (carries : Conveys frames texts phase) (fit : Fit texts)
    (opcode : f.opcode = OPCODE_CONTINUATION) :
    Follows frames texts f (c.handleFrame f.fin OPCODE_CONTINUATION f.payload) := by
  cases phase with
  | between =>
    have closes : c.handleFrame f.fin OPCODE_CONTINUATION f.payload =
        c.close 1002 (text "unexpected continuation") := by
      unfold handleFrame
      rw [if_neg (by decide), if_pos rfl, reads.here.2]
      rfl
    rw [closes]
    exact .inr (reads.close _ _)
  | within message =>
    by_cases large : MAX_MESSAGE_BYTES < (message ++ f.payload).length
    · rw [reads.handle_continuation, if_pos large]
      exact .inr ((reads.grown f.payload).close _ _)
    · cases fin : f.fin with
      | false =>
        exact .inl ⟨_, _, carries.next f opcode fin, reads.next (Nat.le_of_not_lt large), fit⟩
      | true =>
        rw [reads.handle_continuation, if_neg large, if_pos rfl]
        exact reads.cleared.follows_deliver fit (Nat.le_of_not_lt large)
          fun t whole => carries.last f opcode fin whole
  | closed => exact absurd (reads.here.symm.trans going) Bool.noConfusion

/-- **Whatever frame is read**, the frames go on or the connection is closed. -/
theorem Reads.follows (reads : c.Reads texts phase) (going : c.isClosed = false)
    (carries : Conveys frames texts phase) (fit : Fit texts)
    (size : f.payload.length ≤ MAX_MESSAGE_BYTES)
    (control : (f.opcode &&& 0x08 != 0) = true → f.fin = true ∧ f.payload.length ≤ 125) :
    Follows frames texts f (c.handleFrame f.fin f.opcode f.payload) := by
  by_cases isText : f.opcode = OPCODE_TEXT
  · rw [isText]
    exact reads.follows_text going carries fit isText size
  by_cases isContinuation : f.opcode = OPCODE_CONTINUATION
  · rw [isContinuation]
    exact reads.follows_continuation going carries fit isContinuation
  by_cases isControl : f.opcode = OPCODE_PING ∨ f.opcode = OPCODE_PONG
  · have bit : (f.opcode &&& 0x08 != 0) = true := by
      rcases isControl with same | same <;> rw [same] <;> rfl
    obtain ⟨fin, short⟩ := control bit
    have opened : phase ≠ .closed := by
      rintro rfl
      exact absurd (reads.here.symm.trans going) Bool.noConfusion
    rw [fin]
    exact .inl ⟨_, _, carries.control opened f isControl fin short,
      reads.control isControl f.payload, fit⟩
  · obtain ⟨ping, pong⟩ := not_or.mp isControl
    unfold handleFrame
    rw [if_neg isText, if_neg isContinuation, if_neg ping, if_neg pong]
    refine .inr ?_
    split_ifs <;> exact reads.close _ _

end Connection

open Connection (Fit Follows)

variable {c : Connection} {texts : List (List Char)} {frames : List ClientFrame} {phase : Phase}

/-- **What is drained of any bytes** is what frames at their front carry. -/
theorem Connection.Reads.drain {fuel : Nat} {pending : List UInt8} (reads : c.Reads texts phase)
    (going : c.isClosed = false) (carries : Conveys frames texts phase) (fit : Fit texts) :
    ∃ frames' texts' phase' phase'' rest, frameBytes frames ++ pending = frameBytes frames' ++ rest ∧
      Conveys frames' texts' phase' ∧ Fit texts' ∧
      (machine.drain fuel (c, pending)).1.Reads texts' phase'' := by
  induction fuel generalizing c texts frames phase pending with
  | zero => exact ⟨frames, texts, phase, phase, pending, rfl, carries, fit, reads⟩
  | succ fuel ih =>
    rw [Chunks.Machine.drain]
    cases read : machine.reader.read pending with
    | more => exact ⟨frames, texts, phase, phase, pending, rfl, carries, fit, reads⟩
    | stop refusal =>
      exact ⟨frames, texts, phase, .closed, pending, rfl, carries, fit, reads.close _ _⟩
    | item frame rest =>
      obtain ⟨f, rfl, rfl⟩ := readFrame_item read
      have item : f.read rest = .item ⟨f.fin, f.opcode, f.payload⟩ rest :=
        (readFrame_bytes f rest).symm.trans read
      obtain ⟨size, control⟩ := item_bounds item
      dsimp only
      rcases reads.follows going carries fit size control with
        ⟨texts', phase', more, after, fit'⟩ | closed
      · have bytes : frameBytes frames ++ (f.bytes ++ rest) = frameBytes (frames ++ [f]) ++ rest := by
          rw [frameBytes_concat, append_assoc]
        split_ifs with done
        · exact ⟨_, _, phase', phase', rest, bytes, more, fit', after⟩
        · rw [bytes]
          exact ih after (Bool.not_eq_true _ ▸ done) more fit'
      · have done : machine.done (machine.handle c ⟨f.fin, f.opcode, f.payload⟩) = true :=
          closed.here
        rw [if_pos done]
        exact ⟨frames, texts, phase, .closed, _, rfl, carries, fit, closed⟩

theorem drain_nil (fuel : Nat) (c : Connection) : machine.drain fuel (c, []) = (c, []) := by
  cases fuel <;> rfl

/-- A frame arrives as a chunk of its own. -/
theorem feed_bytes (going : c.isClosed = false) (size : f.payload.length ≤ MAX_MESSAGE_BYTES)
    (control : (f.opcode &&& 0x08 != 0) = true → f.fin = true ∧ f.payload.length ≤ 125) :
    machine.feed (c, []) f.bytes = (c.handleFrame f.fin f.opcode f.payload, []) := by
  have read : machine.reader.read f.bytes = .item ⟨f.fin, f.opcode, f.payload⟩ [] := by
    have read := readFrame_bytes f []
    rw [append_nil, read_of_bounds [] size control] at read
    exact read
  have stay : machine.done c = false := going
  unfold Chunks.Machine.feed
  rw [stay, if_neg Bool.false_ne_true, nil_append, Chunks.Machine.drain, read]
  dsimp only
  rw [drain_nil, ite_self]
  rfl

/-- A connection that is listened to and has read nothing. -/
def fresh : Connection × List UInt8 := ({ listening := true }, [])

/-- What has been read of the frames so far. -/
def ReadAll (frames : List ClientFrame) (texts : List (List Char)) (phase : Phase) : Prop :=
  (machine.feed fresh (frameBytes frames)).1.Reads texts phase ∧
    (phase ≠ .closed → (machine.feed fresh (frameBytes frames)).2 = [])

/-- One more frame is read. -/
theorem ReadAll.concat (all : ReadAll frames texts phase) (going : phase ≠ .closed)
    (size : f.payload.length ≤ MAX_MESSAGE_BYTES)
    (control : (f.opcode &&& 0x08 != 0) = true → f.fin = true ∧ f.payload.length ≤ 125)
    {texts' : List (List Char)} {phase' : Phase}
    (step : ∀ {c : Connection}, c.Reads texts phase →
      (c.handleFrame f.fin f.opcode f.payload).Reads texts' phase') :
    ReadAll (frames ++ [f]) texts' phase' := by
  have fed : machine.feed fresh (frameBytes frames) =
      ((machine.feed fresh (frameBytes frames)).1, []) := Prod.ext rfl (all.2 going)
  have joined := Chunks.Machine.feed_feed (m := machine) fresh (frameBytes frames) f.bytes
  rw [← frameBytes_concat, fed, feed_bytes (all.1.here.going going) size control] at joined
  have after := step all.1
  refine ⟨joined.1 ▸ after, fun opened => ?_⟩
  rcases joined.2 with stopped | same
  · exact absurd ((after.here.going opened).symm.trans stopped) Bool.noConfusion
  · exact same.symm

/-- **Frames that carry texts are read as these texts**, as far as they fit the size limit. -/
theorem Conveys.readAll (carries : Conveys frames texts phase) (fit : Fit texts)
    (small : ∀ message, phase = .within message → message.length ≤ MAX_MESSAGE_BYTES) :
    ReadAll frames texts phase := by
  induction carries with
  | nil => exact ⟨⟨rfl, rfl, rfl, rfl⟩, fun _ => rfl⟩
  | control _ going f opcode fin short ih =>
    refine (ih fit small).concat going (short.trans (by decide)) (fun _ => ⟨fin, short⟩) ?_
    intro c reads
    rw [fin]
    exact reads.control opcode _
  | whole _ f opcode fin payload ih =>
    obtain ⟨before, last⟩ := fit.of_concat
    refine (ih before (fun _ inside => Phase.noConfusion inside)).concat Phase.noConfusion
      (payload ▸ last) (fun bit => absurd bit (by rw [opcode]; decide)) ?_
    intro c reads
    rw [fin, opcode]
    exact reads.whole payload
  | start _ f opcode more ih =>
    refine (ih fit (fun _ inside => Phase.noConfusion inside)).concat Phase.noConfusion
      (small _ rfl) (fun bit => absurd bit (by rw [opcode]; decide)) ?_
    intro c reads
    rw [more, opcode]
    exact reads.start _
  | next _ f opcode more ih =>
    have grown := small _ rfl
    have parts := grown
    rw [length_append] at parts
    refine (ih fit ?_).concat Phase.noConfusion (by omega)
      (fun bit => absurd bit (by rw [opcode]; decide)) ?_
    · intro message same
      cases same
      omega
    · intro c reads
      rw [more, opcode]
      exact reads.next grown
  | last _ f opcode fin payload ih =>
    obtain ⟨before, last⟩ := fit.of_concat
    rw [← payload] at last
    have parts := last
    rw [length_append] at parts
    refine (ih before ?_).concat Phase.noConfusion (by omega)
      (fun bit => absurd bit (by rw [opcode]; decide)) ?_
    · intro message same
      cases same
      omega
    · intro c reads
      rw [fin, opcode]
      exact reads.last last payload
  | close _ f opcode fin short ih =>
    refine (ih fit (fun _ inside => Phase.noConfusion inside)).concat Phase.noConfusion
      (short.trans (by decide)) (fun _ => ⟨fin, short⟩) ?_
    intro c reads
    rw [fin, opcode]
    exact reads.close _ _

end TianGong.SecServer

/-
**The delta wire codec: path interning and arity omission.**

An encoder and a decoder keep one dictionary each. The encoder sends a path inline on its first
use, defines an id on the second (`#`), and sends the id from then on; a tuple without a path reuses
the path of the previous operation of the same batch; an `r` clears both dictionaries.

* `decodeLoop_encodeStep`: one encoded operation decodes to itself and keeps the two in step.
* `decodeStream_encodeStream`: hence so does a whole stream of batches, also after runs of consecutive
  ones were concatenated (`coalesce`) and from a fresh decoder that joins at an `r`.
-/

import TianGong.Chord.Op
import TianGong.Lib.Assoc

namespace TianGong.Chord

open List

variable {V : Type}

/-! ### The wire vocabulary -/

/-- A path inline, or an id assigned by the encoder on second use. -/
inductive PathRef where
  | inline (path : Path)
  | id (n : Nat)
  deriving DecidableEq

/-- A wire operation. A missing reference is the short tuple, which reuses the previous path. -/
inductive WireOp (V : Type) where
  | r (value : V)
  | s (ref : Option PathRef) (value : V)
  | d (ref : Option PathRef)
  | a (ref : Option PathRef) (suffix : Text)
  | t (ref : Option PathRef) (count : Nat)
  | p (ref : Option PathRef) (index remove : Nat) (items : List V)
  | m (ref : Option PathRef) (permutation : List Nat)
  /-- `["#", id, path]`. -/
  | define (id : Nat) (path : Path)
  deriving DecidableEq

/-- The tuple of an operation with its path replaced by a reference. -/
def Op.wire (ref : Option PathRef) : Op V → WireOp V
  | .r value => .r value
  | .s _ value => .s ref value
  | .d _ => .d ref
  | .a _ suffix => .a ref suffix
  | .t _ count => .t ref count
  | .p _ index remove items => .p ref index remove items
  | .m _ permutation => .m ref permutation

/-- The operation a tuple stands for once its path is known; a definition stands for none. -/
def WireOp.op (path : Path) : WireOp V → Option (Op V)
  | .r value => some (.r value)
  | .s _ value => some (.s path value)
  | .d _ => some (.d path)
  | .a _ suffix => some (.a path suffix)
  | .t _ count => some (.t path count)
  | .p _ index remove items => some (.p path index remove items)
  | .m _ permutation => some (.m path permutation)
  | .define _ _ => none

def WireOp.ref : WireOp V → Option PathRef
  | .s ref _ | .d ref | .a ref _ | .t ref _ | .p ref _ _ _ | .m ref _ => ref
  | .r _ | .define _ _ => none

/-! ### The encoder -/

/-- The encoder's state across batches. -/
structure EncoderState where
  seen : List Text
  ids : List (Text × Nat)
  nextId : Nat
  deriving DecidableEq

/-- A new encoder. -/
def encoder : EncoderState := ⟨[], [], 0⟩

/-- One operation: the state after it, the last path key of the batch, and the wire tuples. -/
def encodeStep (state : EncoderState) (previous : Option Text) (op : Op V) :
    EncoderState × Option Text × List (WireOp V) :=
  match op with
  -- A base is a recovery point: nothing after it may refer to what came before.
  | .r value => (encoder, none, [.r value])
  | op =>
    let key := pathKey op.path
    if previous = some key then (state, previous, [op.wire none])
    else match Assoc.get key state.ids with
      | some existing => (state, some key, [op.wire (some (.id existing))])
      | none =>
        if key ∈ state.seen then
          ({ state with ids := Assoc.set key state.nextId state.ids, nextId := state.nextId + 1 },
            some key, [.define state.nextId op.path, op.wire (some (.id state.nextId))])
        else
          ({ state with seen := key :: state.seen }, some key, [op.wire (some (.inline op.path))])

/-- The loop of `encode`. -/
def encodeLoop (state : EncoderState) (previous : Option Text) :
    List (Op V) → EncoderState × List (WireOp V)
  | [] => (state, [])
  | op :: ops =>
    let step := encodeStep state previous op
    let rest := encodeLoop step.1 step.2.1 ops
    (rest.1, step.2.2 ++ rest.2)

/-- `encode`: arity omission is scoped to the batch. -/
def encode (state : EncoderState) (ops : List (Op V)) : EncoderState × List (WireOp V) :=
  encodeLoop state none ops

/-- Batches fed in order to one encoder. -/
def encodeStream (state : EncoderState) : List (List (Op V)) → List (List (WireOp V))
  | [] => []
  | ops :: batches => (encode state ops).2 :: encodeStream (encode state ops).1 batches

/-! ### The decoder -/

/-- The decoder's dictionary. -/
abbrev PathTable := List (Nat × Path)

def okRef : Option PathRef → Except DeltaError Unit
  | some (.inline path) => assertSafePath path
  | _ => .ok ()

/-- Ids and counts are non-negative integers by type. -/
def assertValidWireOp : WireOp V → Except DeltaError Unit
  | .r _ => .ok ()
  | .s ref _ | .d ref | .a ref _ | .t ref _ | .p ref _ _ _ => okRef ref
  | .m ref permutation => do
    okRef ref
    assertPermutation permutation
  | .define _ path => assertSafePath path

/-- The path a tuple uses. -/
def decodePath (paths : PathTable) (previous : Option Path) :
    Option PathRef → Except DeltaError Path
  | none => match previous with
    | none => .error (.path [])
    | some path => .ok path
  | some (.id n) => match Assoc.get n paths with
    | none => .error (.pathId n)
    | some path => .ok path
  | some (.inline path) => .ok path

/-- One tuple: the dictionary and previous path after it, and the operations it yields. -/
def decodeStep (paths : PathTable) (previous : Option Path) (wire : WireOp V) :
    Except DeltaError (PathTable × Option Path × List (Op V)) := do
  assertValidWireOp wire
  match wire with
  | .define id path => return (Assoc.set id path paths, previous, [])
  | .r value => return ([], none, [.r value])
  | wire =>
    let path ← decodePath paths previous wire.ref
    match wire.op path with
    | none => return (paths, some path, [])
    | some op =>
      if !op.mayTargetRoot && path.isEmpty then throw (.path path)
      return (paths, some path, [op])

/-- The loop of `decode`. -/
def decodeLoop (paths : PathTable) (previous : Option Path) :
    List (WireOp V) → Except DeltaError (PathTable × Option Path × List (Op V))
  | [] => .ok (paths, previous, [])
  | wire :: rest => do
    let step ← decodeStep paths previous wire
    let more ← decodeLoop step.1 step.2.1 rest
    return (more.1, more.2.1, step.2.2 ++ more.2.2)

/-- `decode`: the omitted path is scoped to the batch. -/
def decode (paths : PathTable) (wire : List (WireOp V)) :
    Except DeltaError (PathTable × List (Op V)) := do
  let result ← decodeLoop paths none wire
  return (result.1, result.2.2)

/-- Wire batches fed in order to one decoder. -/
def decodeStream (paths : PathTable) :
    List (List (WireOp V)) → Except DeltaError (List (List (Op V)))
  | [] => .ok []
  | wire :: batches => do
    let first ← decode paths wire
    let rest ← decodeStream first.1 batches
    return first.2 :: rest

/-- Concatenate runs of consecutive batches: the first run has the first given length, and so on;
batches past the last run stay as they are. -/
def coalesce {α : Type} : List Nat → List (List α) → List (List α)
  | [], batches => batches
  | size :: sizes, batches => (batches.take size).flatten :: coalesce sizes (batches.drop size)

/-! ### Encoder and decoder in step -/

/-- **The dictionaries agree**: every id the encoder may send names its path in the decoder's
table, and is older than the next id. -/
structure InStep (state : EncoderState) (paths : PathTable) : Prop where
  named : ∀ key id, Assoc.get key state.ids = some id →
    ∃ path, Assoc.get id paths = some path ∧ pathKey path = key
  older : ∀ key id, Assoc.get key state.ids = some id → id < state.nextId

/-- The decoder's previous path is the encoder's, when the encoder has one. -/
def PreviousAgrees (key : Option Text) (path : Option Path) : Prop :=
  ∀ k, key = some k → ∃ p, path = some p ∧ pathKey p = k

theorem InStep.fresh : InStep encoder [] where
  named _ _ found := nomatch found
  older _ _ found := nomatch found

variable {state : EncoderState} {paths : PathTable}

/-- Defining the next id keeps the dictionaries in step. -/
theorem InStep.define (inStep : InStep state paths) (path : Path) :
    InStep { state with ids := Assoc.set (pathKey path) state.nextId state.ids,
                        nextId := state.nextId + 1 }
      (Assoc.set state.nextId path paths) where
  named key id found := by
    simp only [Assoc.get_set] at found ⊢
    split at found
    · rename_i same
      cases found
      exact ⟨path, if_pos rfl, same⟩
    · rw [if_neg (inStep.older key id found).ne']
      exact inStep.named key id found
  older key id found := by
    simp only [Assoc.get_set] at found
    split at found
    · cases found
      exact Nat.lt_succ_self _
    · exact Nat.lt_succ_of_lt (inStep.older key id found)

/-! ### One operation -/

variable {path : Path} {previous : Option Path}

theorem okRef_inline (safe : SafePath path) :
    okRef (some (.inline path)) = .ok () := assertSafePath_ok_iff.mpr safe

theorem okRef_of_decodePath {ref : Option PathRef} (safe : SafePath path)
    (found : decodePath paths previous ref = .ok path) : okRef ref = .ok () := by
  cases ref with
  | none => rfl
  | some ref =>
    cases ref with
    | id n => rfl
    | inline written =>
      cases found
      exact okRef_inline safe

/-- **A tuple whose reference finds the operation's path decodes to the operation.** -/
theorem decodeStep_wire {op : Op V} (valid : op.Valid) (base : op.isReplace = false)
    {paths : PathTable} {previous : Option Path} {ref : Option PathRef}
    (found : decodePath paths previous ref = .ok op.path) :
    decodeStep paths previous (op.wire ref) = .ok (paths, some op.path, [op]) := by
  obtain ⟨safe, target, bijection⟩ := valid.parts base
  have accepted := okRef_of_decodePath safe found
  cases op with
  | r value => cases base
  | m path permutation =>
    simp [decodeStep, Op.wire, assertValidWireOp, WireOp.ref, WireOp.op, Op.mayTargetRoot, bind,
      Except.bind, pure, Except.pure, accepted, bijection path permutation rfl, found, Op.path]
  | p path index remove items =>
    simp [decodeStep, Op.wire, assertValidWireOp, WireOp.ref, WireOp.op, Op.mayTargetRoot, bind,
      Except.bind, pure, Except.pure, accepted, found, Op.path]
  | s path _ | d path | a path _ | t path _ =>
    have full : path ≠ [] := target rfl
    simp [decodeStep, Op.wire, assertValidWireOp, WireOp.ref, WireOp.op, Op.mayTargetRoot, bind,
      Except.bind, pure, Except.pure, accepted, found, Op.path, full]

theorem decodeStep_define (safe : SafePath path) (paths : PathTable) (previous : Option Path)
    (n : Nat) :
    decodeStep (V := V) paths previous (.define n path) =
      .ok (Assoc.set n path paths, previous, []) := by
  simp [decodeStep, assertValidWireOp, assertSafePath_ok_iff.mpr safe, bind, Except.bind, pure,
    Except.pure]

theorem decodeLoop_single {wire : WireOp V} {result : PathTable × Option Path × List (Op V)}
    (step : decodeStep paths previous wire = .ok result) :
    decodeLoop paths previous [wire] = .ok result := by
  simp [decodeLoop, step, bind, Except.bind, pure, Except.pure]

/-- The decoder, run over what the encoder sent, is where the encoder is. -/
structure Decodes (paths : PathTable) (previous : Option Path) (wire : List (WireOp V))
    (state : EncoderState) (key : Option Text) (ops : List (Op V)) : Prop where
  run : ∃ paths' previous', decodeLoop paths previous wire = .ok (paths', previous', ops) ∧
    InStep state paths' ∧ PreviousAgrees key previous'

theorem PreviousAgrees.none (path : Option Path) : PreviousAgrees none path :=
  fun _ same => nomatch same

theorem PreviousAgrees.self (path : Path) : PreviousAgrees (some (pathKey path)) (some path) :=
  fun _ same => ⟨path, rfl, Option.some.inj same⟩

/-- A replacement is decoded from any state, and brings any decoder in step. -/
theorem decodeLoop_encodeStep_r (state : EncoderState) (key : Option Text) (paths : PathTable)
    (previous : Option Path) (value : V) :
    Decodes paths previous (encodeStep state key (.r value)).2.2
      (encodeStep state key (.r value)).1 (encodeStep state key (.r value)).2.1 [.r value] :=
  ⟨[], Option.none, rfl, InStep.fresh, PreviousAgrees.none _⟩

theorem encodeStep_of_not_replace {op : Op V} (base : op.isReplace = false)
    (state : EncoderState) (previous : Option Text) :
    encodeStep state previous op =
      if previous = some (pathKey op.path) then (state, previous, [op.wire none])
      else match Assoc.get (pathKey op.path) state.ids with
        | some existing => (state, some (pathKey op.path), [op.wire (some (.id existing))])
        | none =>
          if pathKey op.path ∈ state.seen then
            ({ state with ids := Assoc.set (pathKey op.path) state.nextId state.ids,
                          nextId := state.nextId + 1 }, some (pathKey op.path),
              [.define state.nextId op.path, op.wire (some (.id state.nextId))])
          else
            ({ state with seen := pathKey op.path :: state.seen }, some (pathKey op.path),
              [op.wire (some (.inline op.path))]) := by
  cases op with
  | r value => cases base
  | s | d | a | t | p | m => rfl

/-- **One encoded operation decodes to itself, and the two stay in step.** -/
theorem decodeLoop_encodeStep {op : Op V} (valid : op.Valid) {key : Option Text}
    (inStep : InStep state paths) (agrees : PreviousAgrees key previous) :
    Decodes paths previous (encodeStep state key op).2.2 (encodeStep state key op).1
      (encodeStep state key op).2.1 [op] := by
  cases base : op.isReplace with
  | true =>
    cases op with
    | r value => exact decodeLoop_encodeStep_r state key paths previous value
    | s | d | a | t | p | m => cases base
  | false =>
    have safe := (valid.parts base).1
    rw [encodeStep_of_not_replace base]
    split
    -- The same path as the previous operation: the short tuple.
    · rename_i again
      obtain ⟨path, before, same⟩ := agrees _ again
      have path_eq : path = op.path := pathKey_injective same
      subst path_eq
      have step := @decodeStep_wire _ _ valid base paths previous none (by rw [before]; rfl)
      rw [again]
      exact ⟨paths, some op.path, decodeLoop_single step, inStep, .self _⟩
    · cases known : Assoc.get (pathKey op.path) state.ids with
      | some existing =>
        obtain ⟨path, named, same⟩ := inStep.named _ _ known
        have path_eq : path = op.path := pathKey_injective same
        subst path_eq
        have step := @decodeStep_wire _ _ valid base paths previous (some (.id existing))
          (by simp [decodePath, named])
        exact ⟨paths, some op.path, decodeLoop_single step, inStep, .self _⟩
      | none =>
        simp only
        split
        -- Second use: the definition, then the tuple that uses it.
        · have define := decodeStep_define (V := V) safe paths previous state.nextId
          have step := @decodeStep_wire _ _ valid base
            (Assoc.set state.nextId op.path paths) previous (some (.id state.nextId)) (by simp [decodePath])
          refine ⟨_, _, ?_, inStep.define op.path, .self _⟩
          simp [decodeLoop, define, step, bind, Except.bind, pure, Except.pure]
        · have step := @decodeStep_wire _ _ valid base paths previous (some (.inline op.path)) rfl
          exact ⟨paths, some op.path, decodeLoop_single step, ⟨inStep.named, inStep.older⟩, .self _⟩

/-! ### One batch -/

theorem decodeLoop_append (paths : PathTable) (previous : Option Path)
    (first second : List (WireOp V)) :
    decodeLoop paths previous (first ++ second) = (do
      let head ← decodeLoop paths previous first
      let tail ← decodeLoop head.1 head.2.1 second
      return (tail.1, tail.2.1, head.2.2 ++ tail.2.2)) := by
  induction first generalizing paths previous with
  | nil =>
    cases shape : decodeLoop paths previous second with
    | error e => simp [decodeLoop, shape, bind, Except.bind]
    | ok result => simp [decodeLoop, shape, bind, Except.bind, pure, Except.pure]
  | cons wire rest ih =>
    cases stepShape : decodeStep paths previous wire with
    | error e => simp [decodeLoop, stepShape, bind, Except.bind]
    | ok step =>
      cases headShape : decodeLoop step.1 step.2.1 rest with
      | error e => simp [decodeLoop, stepShape, headShape, ih, bind, Except.bind]
      | ok head =>
        cases tailShape : decodeLoop head.1 head.2.1 second with
        | error e | ok tail =>
          simp [decodeLoop, stepShape, headShape, tailShape, ih, bind, Except.bind, pure,
            Except.pure]

variable {ops : List (Op V)}

theorem Decodes.append {first second : List (WireOp V)} {middle final : EncoderState}
    {middleKey finalKey : Option Text} {more : List (Op V)}
    (head : Decodes paths previous first middle middleKey ops)
    (tail : ∀ paths' previous', InStep middle paths' → PreviousAgrees middleKey previous' →
      Decodes paths' previous' second final finalKey more) :
    Decodes paths previous (first ++ second) final finalKey (ops ++ more) := by
  obtain ⟨paths₁, previous₁, run₁, inStep₁, agrees₁⟩ := head.run
  obtain ⟨paths₂, previous₂, run₂, inStep₂, agrees₂⟩ := (tail paths₁ previous₁ inStep₁ agrees₁).run
  refine ⟨paths₂, previous₂, ?_, inStep₂, agrees₂⟩
  simp [decodeLoop_append, run₁, run₂, bind, Except.bind, pure, Except.pure]

/-- The encoded operations of a batch decode to themselves. What the encoder's last path was is
forgotten at the end of the batch. -/
theorem decodeLoop_encodeLoop (valid : ∀ op ∈ ops, op.Valid) {key : Option Text}
    (inStep : InStep state paths) (agrees : PreviousAgrees key previous) :
    Decodes paths previous (encodeLoop state key ops).2 (encodeLoop state key ops).1 none ops := by
  induction ops generalizing state key paths previous with
  | nil => exact ⟨paths, previous, rfl, inStep, .none _⟩
  | cons op ops ih =>
    have head := decodeLoop_encodeStep (valid op mem_cons_self) inStep agrees
    exact head.append fun _ _ inStep' agrees' =>
      ih (fun o member => valid o (mem_cons_of_mem _ member)) inStep' agrees'

/-! ### Streams -/

/-- The encoder's state after some batches. -/
def encoderAfter (state : EncoderState) : List (List (Op V)) → EncoderState
  | [] => state
  | ops :: batches => encoderAfter (encode state ops).1 batches

theorem encodeStream_append (state : EncoderState) (first second : List (List (Op V))) :
    encodeStream state (first ++ second) =
      encodeStream state first ++ encodeStream (encoderAfter state first) second := by
  induction first generalizing state with
  | nil => rfl
  | cons ops batches ih => rw [cons_append, encodeStream, ih, encodeStream, encoderAfter,
      cons_append]

theorem length_encodeStream (state : EncoderState) (batches : List (List (Op V))) :
    (encodeStream state batches).length = batches.length := by
  induction batches generalizing state with
  | nil => rfl
  | cons ops batches ih => rw [encodeStream, length_cons, ih, length_cons]

theorem take_encodeStream (state : EncoderState) (batches : List (List (Op V))) (size : Nat) :
    (encodeStream state batches).take size = encodeStream state (batches.take size) := by
  induction batches generalizing state size with
  | nil => simp [encodeStream]
  | cons ops batches ih =>
    cases size with
    | zero => rfl
    | succ size => simp [encodeStream, ih]

theorem drop_encodeStream (state : EncoderState) (batches : List (List (Op V))) (size : Nat) :
    (encodeStream state batches).drop size =
      encodeStream (encoderAfter state (batches.take size)) (batches.drop size) := by
  induction batches generalizing state size with
  | nil => simp [encodeStream]
  | cons ops batches ih =>
    cases size with
    | zero => rfl
    | succ size => simp [encodeStream, encoderAfter, ih]

/-- The decoder can read the next batches: it is in step, or they begin with a base. -/
def Ready (state : EncoderState) (paths : PathTable) (batches : List (List (Op V))) : Prop :=
  InStep state paths ∨ ∃ ops rest, batches = ops :: rest ∧ isBase ops = true

variable {batches : List (List (Op V))}

/-- One batch decodes to itself from any previous path, in step or from its base. -/
theorem decodeLoop_encode (valid : ∀ op ∈ ops, op.Valid)
    (ready : Ready state paths (ops :: batches)) (previous : Option Path) :
    Decodes paths previous (encode state ops).2 (encode state ops).1 none ops := by
  rcases ready with inStep | ⟨_, _, same, base⟩
  · exact decodeLoop_encodeLoop valid inStep (.none _)
  · obtain ⟨rfl, rfl⟩ := List.cons.inj same
    cases ops with
    | nil => cases base
    | cons op ops =>
      cases op with
      | r value =>
        have head := decodeLoop_encodeStep_r state none paths previous value
        exact head.append fun _ _ inStep agrees => decodeLoop_encodeLoop
          (fun o member => valid o (mem_cons_of_mem _ member)) inStep agrees
      | s | d | a | t | p | m => cases base

section Valid

variable (valid : ∀ ops ∈ batches, ∀ op ∈ ops, op.Valid)
include valid

/-- A run of batches, concatenated, decodes to their concatenation, and the decoder can read on. -/
theorem decodeLoop_run (size : Nat) (ready : Ready state paths batches) (previous : Option Path) :
    ∃ paths' previous', decodeLoop paths previous
        (encodeStream state (batches.take size)).flatten =
          .ok (paths', previous', (batches.take size).flatten) ∧
      Ready (encoderAfter state (batches.take size)) paths' (batches.drop size) := by
  induction batches generalizing size state paths previous with
  | nil =>
    refine ⟨paths, previous, by simp [encodeStream, decodeLoop], ?_⟩
    rw [take_nil, drop_nil]
    exact ready
  | cons ops batches ih =>
    cases size with
    | zero => exact ⟨paths, previous, rfl, ready⟩
    | succ size =>
      obtain ⟨paths₁, previous₁, run₁, inStep₁, _⟩ :=
        (decodeLoop_encode (valid ops mem_cons_self) ready previous).run
      obtain ⟨paths₂, previous₂, run₂, ready₂⟩ :=
        ih (fun o member => valid o (mem_cons_of_mem _ member)) size (.inl inStep₁) previous₁
      refine ⟨paths₂, previous₂, ?_, ready₂⟩
      simp only [take_succ_cons, encodeStream, flatten_cons, decodeLoop_append, run₁, run₂,
        bind, Except.bind, pure, Except.pure]

/-- One run as one wire batch. -/
theorem decode_run (size : Nat) (ready : Ready state paths batches) :
    ∃ paths', decode paths ((encodeStream state batches).take size).flatten =
        .ok (paths', (batches.take size).flatten) ∧
      Ready (encoderAfter state (batches.take size)) paths' (batches.drop size) := by
  obtain ⟨paths', previous', run, ready'⟩ := decodeLoop_run valid size ready none
  refine ⟨paths', ?_, ready'⟩
  simp [decode, take_encodeStream, run, bind, Except.bind, pure, Except.pure]

/-- Batches sent one by one decode to themselves. -/
theorem decodeStream_singles (ready : Ready state paths batches) :
    decodeStream paths (encodeStream state batches) = .ok batches := by
  induction batches generalizing state paths with
  | nil => rfl
  | cons ops batches ih =>
    obtain ⟨paths', run, ready'⟩ := decode_run valid 1 ready
    have rest := ih (fun o member => valid o (mem_cons_of_mem _ member)) ready'
    simp only [encodeStream, take_succ_cons, take_zero, flatten_cons,
      flatten_nil, append_nil] at run
    simp only [take_succ_cons, take_zero, encoderAfter] at rest
    simp only [encodeStream, decodeStream, run, rest, bind, Except.bind, pure, Except.pure]

/-- Coalesced batches decode to the coalesced operations, from every state that can read them. -/
theorem decodeStream_coalesce (sizes : List Nat) (ready : Ready state paths batches) :
    decodeStream paths (coalesce sizes (encodeStream state batches)) =
      .ok (coalesce sizes batches) := by
  induction sizes generalizing batches state paths with
  | nil => exact decodeStream_singles valid ready
  | cons size sizes ih =>
    obtain ⟨paths', run, ready'⟩ := decode_run valid size ready
    have rest := ih (fun o member => valid o (mem_of_mem_drop member)) ready'
    simp only [coalesce, drop_encodeStream, decodeStream, run, rest, bind, Except.bind, pure,
      Except.pure]

end Valid

/-- **The wire round trip.** Batches of valid operations are fed in order to one encoder; a fresh
decoder that reads from the beginning, or joins at a batch starting with an `r`, and receives the
later batches in order with any runs of them concatenated, returns exactly those operations. -/
theorem decodeStream_encodeStream (earlier batches : List (List (Op V))) (sizes : List Nat)
    (valid : ∀ ops ∈ batches, ∀ op ∈ ops, op.Valid)
    (joins : earlier = [] ∨ ∃ ops rest, batches = ops :: rest ∧ isBase ops = true) :
    decodeStream [] (coalesce sizes
        ((encodeStream encoder (earlier ++ batches)).drop earlier.length)) =
      .ok (coalesce sizes batches) := by
  rw [encodeStream_append, drop_left' (length_encodeStream _ _)]
  refine decodeStream_coalesce valid sizes ?_
  rcases joins with rfl | base
  · exact .inl InStep.fresh
  · exact .inr base

/-- The round trip of a stream that uses every form: an inline path, a defined id, the short tuple,
a reset, with its first two batches concatenated. -/
theorem decodeStream_encodeStream_mixed :
    decodeStream [] (coalesce [2]
        ((encodeStream encoder ([[Op.s [.index 0] 1]] ++
          [[.r 5], [.s [.index 0] 1, .a [.index 0] []], [.d [.index 0], .m [] [1, 0]]])).drop 1)) =
      .ok (coalesce [2]
        [[Op.r 5], [.s [.index 0] 1, .a [.index 0] []], [.d [.index 0], .m [] [1, 0]]]) :=
  decodeStream_encodeStream [[Op.s [.index 0] 1]] _ [2] (by decide) (.inr ⟨_, _, rfl, rfl⟩)

/-- A list under `m` that is no permutation is encoded, and then refused by the decoder. -/
theorem decodeStream_refuses_repeated_index :
    ¬ decodeStream [] (encodeStream encoder [[(Op.m [] [0, 0] : Op Nat)]]) =
      .ok [[Op.m [] [0, 0]]] := by
  decide

end TianGong.Chord

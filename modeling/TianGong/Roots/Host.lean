/-
**Roots and leases of one host.**

`HostImpl` (`host.ts`) keeps, for each root, its calls that run here by code version, the links it came
over, the links its calls went out on and the objects it touched; each `ObjectImpl` (`object.ts`) keeps
the roots that hold a lease of it, and those its reload gate waits for.

* `joinRoot`, `settle`: a call of a root begins here, and the `finally` of its `joinRoot`.
* `foreignRootEnded`, `connectionClosed`, `endRoot`: a root ends.
* `check`, `invoke`, `deliver`, `rootSent`: work of a context: a call into an object, a listener
  event, a call that goes out. Between the check of a context and the work, code may wait
  (`await raceSignal(ref.ready, …)`), so they are two steps.
* `cut`, `openGate`: a reload gate.

A code version is known by its id. A root that has no entry has the empty list or zero.
-/

import TianGong.Lib.Assoc
import TianGong.Lib.Lifetimes
import TianGong.Text

namespace TianGong.Roots

open Function (update)

abbrev Link := Nat
abbrev ObjectId := Nat
abbrev CodeVersionId := Nat
abbrev CtxId := Nat

/-- `${name}#${incarnation}:${seq}`: the roots of this host are told apart by their number. -/
inductive RootId where
  | started (seq : Nat)
  | elsewhere (id : Text)
  deriving DecidableEq

structure CtxImpl where
  rootId : RootId
  codeVersion : CodeVersionId
  closed : Bool
  /-- `signal.aborted`. -/
  aborted : Bool

/-- `gate` of an object: `drained` once its promise is resolved. -/
structure Gate where
  grandfathered : List RootId
  drained : Bool

structure ObjectImpl where
  leases : List (RootId × CodeVersionId)
  gate : Option Gate
  minCodeVersion : CodeVersionId

/-- A `joinRoot` whose `fn` has not settled. -/
structure Call where
  ctx : CtxId
  rootId : RootId
  codeVersion : CodeVersionId
  deriving DecidableEq

/-- `HostImpl`. -/
structure Host where
  rootSeq : Nat
  /-- `#local` -/
  localRoots : List RootId
  /-- `#foreign` -/
  foreign : List (RootId × List Link)
  /-- `CodeVersionState.roots`, by the id of the code version. -/
  roots : CodeVersionId → RootId → Nat
  /-- The keys of `codeVersions`. -/
  codeVersions : List CodeVersionId
  current : CodeVersionId
  previous : Option CodeVersionId
  /-- `#touches` -/
  touches : RootId → List ObjectId
  /-- `#rootLinks` -/
  rootLinks : RootId → List Link
  objects : ObjectId → ObjectImpl
  /-- The links that are open. -/
  connections : List Link
  /-- Every context made, by its number. -/
  ctxs : List CtxImpl
  /-- The calls of roots that run here. -/
  running : List Call
  /-- Contexts that passed `check` for work that has not begun. -/
  checked : List CtxId
  /-- The `root_end` frames sent. -/
  sent : List (Link × RootId)

def ObjectImpl.new : ObjectImpl := ⟨[], none, 0⟩

/-- A new host. -/
def Host.new : Host where
  rootSeq := 0
  localRoots := []
  foreign := []
  roots _ _ := 0
  codeVersions := [1]
  current := 1
  previous := none
  touches _ := []
  rootLinks _ := []
  objects _ := ObjectImpl.new
  connections := []
  ctxs := []
  running := []
  checked := []
  sent := []

/-! ### Objects -/

namespace ObjectImpl

/-- `admit`, once the host retains the code version. -/
def admits (object : ObjectImpl) (ctx : CtxImpl) : Bool :=
  decide (object.minCodeVersion ≤ ctx.codeVersion) &&
    match object.gate with
    | none => true
    | some gate => decide (ctx.rootId ∈ gate.grandfathered)

def rootEnded (rootId : RootId) (object : ObjectImpl) : ObjectImpl :=
  { object with
    leases := Assoc.erase rootId object.leases
    gate := object.gate.map fun gate =>
      if rootId ∈ gate.grandfathered then
        { grandfathered := gate.grandfathered.filter (· ≠ rootId)
          drained := gate.drained || (gate.grandfathered.filter (· ≠ rootId)).isEmpty }
      else gate }

/-- The admission cut of a reload gate. -/
def cut (object : ObjectImpl) : ObjectImpl :=
  { object with
    gate := some { grandfathered := Assoc.keys object.leases, drained := object.leases.isEmpty } }

end ObjectImpl

namespace Host

/-! ### Contexts -/

/-- `new CtxImpl(…)`: its number, and the host that made it. -/
def newCtx (s : Host) (rootId : RootId) (codeVersion : CodeVersionId) : CtxId × Host :=
  (s.ctxs.length, { s with ctxs := s.ctxs ++ [⟨rootId, codeVersion, false, false⟩] })

/-- `close` -/
def closeCtx (s : Host) (ctx : CtxId) : Host :=
  { s with ctxs := s.ctxs.modify ctx fun c => { c with closed := true } }

/-! ### Roots -/

def touch (s : Host) (rootId : RootId) (object : ObjectId) : Host :=
  { s with touches := update s.touches rootId (Lib.insertOnce object (s.touches rootId)) }

def lease (s : Host) (ctx : CtxImpl) (object : ObjectId) : Host :=
  if Assoc.has ctx.rootId (s.objects object).leases then s
  else
    { s with
      objects := update s.objects object { s.objects object with
          leases := Assoc.set ctx.rootId ctx.codeVersion (s.objects object).leases } }.touch ctx.rootId object

/-- The links a root came over, with the one of a call: a root of this host comes over none. -/
def brought (s : Host) (rootId : RootId) : Option Link → List (RootId × List Link)
  | some link =>
    if rootId ∈ s.localRoots then s.foreign
    else Assoc.set rootId (Lib.insertOnce link ((Assoc.get rootId s.foreign).getD [])) s.foreign
  | none => s.foreign

/-- `joinRoot`, up to the call of `fn`: the host, and the call's context unless it was refused. -/
def joinRoot (s : Host) (rootId : RootId) (codeVersion : CodeVersionId) (link : Option Link) :
    Host × Option CtxId :=
  if codeVersion ∉ s.codeVersions then
    ({ s with localRoots := s.localRoots.filter (· ≠ rootId) }, none)
  else
    let (ctx, s) := { s with
      foreign := s.brought rootId link
      roots := update s.roots codeVersion (update (s.roots codeVersion) rootId (s.roots codeVersion rootId + 1)) }.newCtx rootId codeVersion
    ({ s with running := s.running ++ [⟨ctx, rootId, codeVersion⟩] }, some ctx)

/-- `root`: a root of a code version, the current one by default. -/
def root (s : Host) (codeVersion : Option CodeVersionId) : Host × Option CtxId :=
  let rootId := RootId.started (s.rootSeq + 1)
  { s with
    rootSeq := s.rootSeq + 1
    localRoots := s.localRoots ++ [rootId] }.joinRoot rootId (codeVersion.getD s.current) none

def rootSent (s : Host) (rootId : RootId) (link : Link) : Host :=
  { s with rootLinks := update s.rootLinks rootId (Lib.insertOnce link (s.rootLinks rootId)) }

/-- `endRoot`. What is sent on a link that is closed goes nowhere. -/
def endRoot (s : Host) (rootId : RootId) : Host :=
  { s with
    localRoots := s.localRoots.filter (· ≠ rootId)
    foreign := Assoc.erase rootId s.foreign
    objects := (s.touches rootId).foldl
      (fun objects object => update objects object ((objects object).rootEnded rootId)) s.objects
    touches := update s.touches rootId []
    sent := s.sent ++ ((s.rootLinks rootId).filter (· ∈ s.connections)).map fun link => (link, rootId)
    rootLinks := update s.rootLinks rootId [] }

/-- The `finally` of `joinRoot`. Whether a code version retires now is a step of its own. -/
def settle (s : Host) (call : Call) : Host :=
  let s := { s with running := s.running.erase call }.closeCtx call.ctx
  let count := s.roots call.codeVersion call.rootId - 1
  let s := { s with
    roots := update s.roots call.codeVersion (update (s.roots call.codeVersion) call.rootId count) }
  if count > 0 then s
  else if Assoc.has call.rootId s.foreign then s
  else s.endRoot call.rootId

def foreignRootEnded (s : Host) (rootId : RootId) (link : Link) : Host :=
  match Assoc.get rootId s.foreign with
  | none => s
  | some links =>
    if link ∉ links then s
    else
      let left := links.filter (· ≠ link)
      let s := { s with foreign := Assoc.set rootId left s.foreign }
      if left ≠ [] then s
      else if s.codeVersions.any fun id => 0 < s.roots id rootId then
        { s with foreign := Assoc.erase rootId s.foreign }
      else s.endRoot rootId

def connectionClosed (s : Host) (link : Link) : Host :=
  let s := { s with connections := s.connections.filter (· ≠ link) }
  let s := (s.foreign.filter fun e => link ∈ e.2).foldl
    (fun s e => s.foreignRootEnded e.1 link) s
  { s with rootLinks := fun rootId => (s.rootLinks rootId).filter (· ≠ link) }

end Host

/-! ### What can happen -/

/-- What can happen to a host. -/
inductive Event where
  /-- Code starts a root, or a request without one arrives. -/
  | root (codeVersion : Option CodeVersionId)
  /-- A call of a root arrives over a link. -/
  | arrive (link : Link) (rootId : RootId) (codeVersion : CodeVersionId)
  /-- The function of a call settles. -/
  | settle (call : Call)
  /-- A context passes the check of a call. -/
  | check (ctx : CtxId)
  /-- The call fails before it reaches its object, or goes out. -/
  | refuse (ctx : CtxId)
  /-- The call reaches an object of this host. -/
  | invoke (ctx : CtxId) (object : ObjectId)
  /-- The call goes out on a link. -/
  | send (ctx : CtxId) (link : Link)
  /-- A call into an object, or a listener, settles. -/
  | leave (ctx : CtxId)
  /-- An event of a listener is delivered. -/
  | deliver (object : ObjectId)
  /-- A signal aborts a context. -/
  | abort (ctx : CtxId)
  /-- A `root_end` frame arrives. -/
  | rootEnd (link : Link) (rootId : RootId)
  | accept (link : Link)
  | close (link : Link)
  /-- A reload gate closes over an object. -/
  | cut (object : ObjectId)
  | openGate (object : ObjectId)
  /-- A reload installs a code version, and drops the older ones of the gated objects. -/
  | commit (codeVersion : CodeVersionId) (gated : List ObjectId)
  /-- The previous code version retires, or is made to. -/
  | retire

namespace Host

/-- A root that a link can name: not one that this host has yet to start. -/
def Named (s : Host) : RootId → Prop
  | .started seq => seq ≤ s.rootSeq
  | .elsewhere _ => True

instance (s : Host) (rootId : RootId) : Decidable (s.Named rootId) := by
  cases rootId <;> unfold Named <;> infer_instance

/-- A call that passed its check goes on: its context. -/
def resume (s : Host) (ctx : CtxId) : Option (CtxImpl × Host) :=
  if ctx ∈ s.checked then
    s.ctxs[ctx]?.map fun c => (c, { s with checked := s.checked.erase ctx })
  else none

/-- `admit` -/
def Admitted (s : Host) (ctx : CtxImpl) (object : ObjectId) : Prop :=
  ctx.codeVersion ∈ s.codeVersions ∧ (s.objects object).admits ctx

instance (s : Host) (ctx : CtxImpl) (object : ObjectId) : Decidable (s.Admitted ctx object) :=
  inferInstanceAs (Decidable (_ ∧ _))

/-- `call`, from its admission on: the lease, and a context of the call's own. -/
def invoke (s : Host) (ctx : CtxImpl) (object : ObjectId) : Host :=
  if s.Admitted ctx object then
    ((s.lease ctx object).newCtx ctx.rootId ctx.codeVersion).2
  else s

/-- `#deliver`, of an object that no gate holds: a root of its own, which leases the object. -/
def deliver (s : Host) (object : ObjectId) : Host :=
  match s.root none with
  | (s, some ctx) =>
    match s.ctxs[ctx]? with
    | some c => ((s.lease c object).newCtx c.rootId c.codeVersion).2
    | none => s
  | (s, none) => s

/-- One step; `none` where it cannot happen. -/
def step (s : Host) : Event → Option Host
  | .root codeVersion => some (s.root codeVersion).1
  | .arrive link rootId codeVersion =>
    if link ∈ s.connections ∧ s.Named rootId then
      some (s.joinRoot rootId codeVersion (some link)).1
    else none
  | .settle call => if call ∈ s.running then some (s.settle call) else none
  | .check ctx =>
    s.ctxs[ctx]?.bind fun c =>
      if c.closed || c.aborted then none else some { s with checked := s.checked ++ [ctx] }
  | .refuse ctx => (s.resume ctx).map fun (_, s) => s
  | .invoke ctx object => (s.resume ctx).map fun (c, s) => s.invoke c object
  | .send ctx link =>
    if link ∈ s.connections then (s.resume ctx).map fun (c, s) => s.rootSent c.rootId link else none
  | .leave ctx => if ∀ call ∈ s.running, call.ctx ≠ ctx then some (s.closeCtx ctx) else none
  | .deliver object => if (s.objects object).gate.isNone then some (s.deliver object) else none
  | .abort ctx => some { s with ctxs := s.ctxs.modify ctx fun c => { c with aborted := true } }
  | .rootEnd link rootId =>
    if link ∈ s.connections then some (s.foreignRootEnded rootId link) else none
  | .accept link =>
    if link ∈ s.connections then none else some { s with connections := s.connections ++ [link] }
  | .close link => if link ∈ s.connections then some (s.connectionClosed link) else none
  | .cut object =>
    if (s.objects object).gate.isNone then
      some { s with objects := update s.objects object (s.objects object).cut }
    else none
  | .openGate object =>
    some { s with objects := update s.objects object { s.objects object with gate := none } }
  | .commit codeVersion gated =>
    if s.previous.isNone ∧ s.current < codeVersion then
      some { s with
        codeVersions := s.codeVersions ++ [codeVersion]
        previous := some s.current
        current := codeVersion
        objects := fun object =>
          if object ∈ gated then { s.objects object with minCodeVersion := codeVersion }
          else s.objects object }
    else none
  | .retire =>
    s.previous.map fun previous =>
      { s with previous := none, codeVersions := s.codeVersions.filter (· ≠ previous) }

/-- A run. -/
def run (s : Host) : List Event → Option Host
  | [] => some s
  | event :: rest => (s.step event).bind fun s => s.run rest

end Host

end TianGong.Roots

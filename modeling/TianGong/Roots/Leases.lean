/-
**Leases follow roots.**

A root is a scope (`Lib/Lifetimes.lean`): the calls of it that run here are its tasks, the links it
came over are the peers that keep it open, unless it started here, and a lease is what it has hold
of. `note` reads what a step of the host means for the scopes.

* `Meets`: the condition under which a step keeps it so.
* `leases_follow`: **in every run whose steps meet the condition, leases follow roots.**
* `leases_stay`: a call that nobody waits for takes a lease after its root has ended, and nothing
  ever ends it.
-/

import Mathlib.Data.List.Count
import TianGong.Lib.Returns
import TianGong.Roots.Host

namespace TianGong.Roots

open Function (update update_eq_self update_idem update_of_ne update_self)
open Returns
open Lib (Life Note life)
open List Option

/-! ### What a step means for the scopes -/

namespace Host

/-- What a step means for the roots. -/
def note (s : Host) : Event → List (Note RootId Link ObjectId)
  | .root codeVersion =>
    if codeVersion.getD s.current ∈ s.codeVersions then [.began (.started (s.rootSeq + 1))] else []
  | .arrive link rootId codeVersion =>
    if codeVersion ∈ s.codeVersions then [.arrived rootId link] else []
  | .settle call => [.settled call.rootId]
  | .invoke ctx object =>
    match s.ctxs[ctx]? with
    | some c => if s.Admitted c object then [.touched c.rootId object] else []
    | none => []
  | .send ctx link =>
    match s.ctxs[ctx]? with
    | some c => [.reached c.rootId link]
    | none => []
  | .deliver object =>
    if s.current ∈ s.codeVersions then
      [.began (.started (s.rootSeq + 1)), .touched (.started (s.rootSeq + 1)) object]
    else []
  | .rootEnd link rootId => [.released rootId link]
  | .close link => [.lost link]
  | .cut object => [.cut object]
  | .openGate object => [.opened object]
  | _ => []

/-- What a run means for the roots. -/
def notes (s : Host) : List Event → List (Note RootId Link ObjectId)
  | [] => []
  | event :: rest =>
    match s.step event with
    | some after => s.note event ++ after.notes rest
    | none => []

end Host

/-- **Leases follow roots.** An object holds the leases of the roots that have hold of it, the end
of a root is announced once on every link it went out on, and a reload gate is drained exactly when
every root that held a lease at its cut has ended. -/
structure Follows (s : Host) (lives : RootId → Life Link ObjectId) : Prop where
  leases : ∀ object rootId,
    Assoc.has rootId (s.objects object).leases = true ↔ object ∈ (lives rootId).objects
  announced : ∀ link rootId, s.sent.count (link, rootId) = (lives rootId).told.count link
  drained : ∀ object gate, (s.objects object).gate = some gate →
    (gate.drained = true ↔ ∀ rootId, object ∉ (lives rootId).waits)

/-! ### The condition -/

namespace Host

/-- A call of the root runs here, or a link that it came over is still to announce its end. -/
def Alive (s : Host) (rootId : RootId) : Prop :=
  (∃ call ∈ s.running, call.rootId = rootId) ∨ Assoc.has rootId s.foreign = true

/-- Where a link is the last one of a root whose calls run here, one of them runs in a code version
that is retained. -/
def EndsRetained (s : Host) (rootId : RootId) (link : Link) : Prop :=
  ∀ links, Assoc.get rootId s.foreign = some links → links.filter (· ≠ link) = [] →
    ∀ call ∈ s.running, call.rootId = rootId →
      ∃ other ∈ s.running, other.rootId = rootId ∧ other.codeVersion ∈ s.codeVersions

/-- **The condition on a step.** -/
def Meets (s : Host) : Event → Prop
  | .arrive _ rootId codeVersion => codeVersion ∈ s.codeVersions ∨ rootId ∉ s.localRoots
  | .settle call =>
    Assoc.has call.rootId s.foreign = true ∨
      ∀ other ∈ s.running.erase call, other.rootId = call.rootId →
        ∃ same ∈ s.running.erase call,
          same.rootId = call.rootId ∧ same.codeVersion = call.codeVersion
  | .invoke ctx object =>
    ∀ c, s.ctxs[ctx]? = some c → s.Admitted c object → s.Alive c.rootId
  | .send ctx _ => ∀ c, s.ctxs[ctx]? = some c → s.Alive c.rootId
  | .rootEnd link rootId => s.EndsRetained rootId link
  | .close link => ∀ rootId, s.EndsRetained rootId link
  | _ => True

/-- Every step of a run meets the condition. -/
def RunMeets (s : Host) : List Event → Prop
  | [] => True
  | event :: rest => s.Meets event ∧ ∀ after, s.step event = some after → after.RunMeets rest

end Host

/-! ### The invariant -/

/-- What the host keeps is the lives of the roots. -/
structure Tracks (s : Host) (lives : RootId → Life Link ObjectId) : Prop where
  counts : ∀ codeVersion rootId, s.roots codeVersion rootId =
    s.running.countP fun call => call.rootId = rootId ∧ call.codeVersion = codeVersion
  running : ∀ rootId, (lives rootId).running = s.running.countP fun call => call.rootId = rootId
  holders : ∀ rootId, (lives rootId).holders = (Assoc.get rootId s.foreign).getD []
  brought : ∀ rootId, Assoc.get rootId s.foreign ≠ some []
  own : ∀ rootId, (lives rootId).own = true ↔ rootId ∈ s.localRoots
  objects : ∀ rootId, (lives rootId).objects = s.touches rootId
  leases : ∀ object rootId,
    Assoc.has rootId (s.objects object).leases = true ↔ object ∈ s.touches rootId
  out : ∀ rootId, (lives rootId).out = (s.rootLinks rootId).filter (· ∈ s.connections)
  told : ∀ link rootId, s.sent.count (link, rootId) = (lives rootId).told.count link
  waits : ∀ object gate, (s.objects object).gate = some gate →
    (∀ rootId, rootId ∈ gate.grandfathered ↔ object ∈ (lives rootId).waits) ∧
      (gate.drained = true ↔ gate.grandfathered = [])
  unwaited : ∀ object, (s.objects object).gate = none → ∀ rootId, object ∉ (lives rootId).waits

variable {s : Host} {lives : RootId → Life Link ObjectId}

theorem Tracks.follows (tracks : Tracks s lives) : Follows s lives := by
  refine ⟨fun object rootId => ?_, tracks.told, fun object gate is => ?_⟩
  · rw [tracks.leases, tracks.objects]
  · obtain ⟨members, drained⟩ := tracks.waits object gate is
    rw [drained, eq_nil_iff_forall_not_mem]
    exact forall_congr' fun rootId => not_congr (members rootId)

/-- The contexts do not matter. -/
theorem Tracks.withCtxs (tracks : Tracks s lives) (ctxs : List CtxImpl) (checked : List CtxId) :
    Tracks { s with ctxs, checked } lives :=
  ⟨tracks.counts, tracks.running, tracks.holders, tracks.brought, tracks.own, tracks.objects,
    tracks.leases, tracks.out, tracks.told, tracks.waits, tracks.unwaited⟩

/-- Neither do the numbers that are given out. -/
theorem Tracks.withIds (tracks : Tracks s lives) (rootSeq : Nat)
    (codeVersions : List CodeVersionId) (current : CodeVersionId)
    (previous : Option CodeVersionId) :
    Tracks { s with rootSeq, codeVersions, current, previous } lives :=
  ⟨tracks.counts, tracks.running, tracks.holders, tracks.brought, tracks.own, tracks.objects,
    tracks.leases, tracks.out, tracks.told, tracks.waits, tracks.unwaited⟩

/-! ### A root ends -/

variable (rootId : RootId)

theorem rootEnded_rootEnded (object : ObjectImpl) :
    (object.rootEnded rootId).rootEnded rootId = object.rootEnded rootId := by
  have leases : Assoc.erase rootId (Assoc.erase rootId object.leases) =
      Assoc.erase rootId object.leases := by
    simp [Assoc.erase, List.filter_filter]
  unfold ObjectImpl.rootEnded
  rw [leases]
  cases object.gate with
  | none => rfl
  | some gate =>
    simp only [map_some]
    by_cases waited : rootId ∈ gate.grandfathered
    · rw [if_pos waited, if_neg (by simp)]
    · rw [if_neg waited, if_neg waited]

/-- An object of the ones a root touched. -/
theorem foldl_rootEnded (touched : List ObjectId) (objects : ObjectId → ObjectImpl)
    (object : ObjectId) :
    touched.foldl (fun objects o => update objects o ((objects o).rootEnded rootId)) objects object =
      if object ∈ touched then (objects object).rootEnded rootId else objects object := by
  induction touched generalizing objects with
  | nil => simp
  | cons first rest ih =>
    rw [foldl_cons, ih]
    by_cases same : object = first
    · subst same
      rw [update_self, rootEnded_rootEnded, if_pos (mem_cons_self), ite_self]
    · rw [update_of_ne same]
      simp [same]

theorem has_erase {rootId other : RootId} {leases : List (RootId × CodeVersionId)} :
    Assoc.has other (Assoc.erase rootId leases) = true ↔
      other ≠ rootId ∧ Assoc.has other leases = true := by
  unfold Assoc.has
  by_cases same : rootId = other
  · subst same
    simp
  · rw [Assoc.get_erase_ne same]
    simp [Ne.symm same]

/-- **A root ends**: what the host keeps of it goes, and what its scope holds. -/
theorem tracks_endRoot (tracks : Tracks s lives) (rootId : RootId)
    (alone : (lives rootId).holders = [])
    (waits : ∀ object ∈ (lives rootId).waits, object ∈ (lives rootId).objects) :
    Tracks (s.endRoot rootId) (update lives rootId (lives rootId).ended) := by
  have object_eq : ∀ object, (s.endRoot rootId).objects object =
      if object ∈ s.touches rootId then (s.objects object).rootEnded rootId
      else s.objects object :=
    fun object => foldl_rootEnded rootId (s.touches rootId) s.objects object
  have others : ∀ {other}, other ≠ rootId →
      update lives rootId (lives rootId).ended other = lives other := fun different =>
    update_of_ne different _ _
  refine ⟨tracks.counts, fun other => ?_, fun other => ?_, fun other => ?_, fun other => ?_,
    fun other => ?_, fun object other => ?_, fun other => ?_, fun link other => ?_,
    fun object gate is => ?_, fun object is other => ?_⟩
  · by_cases same : other = rootId
    · subst same
      rw [update_self]
      exact tracks.running other
    · rw [others same]
      exact tracks.running other
  · show _ = (Assoc.get other (Assoc.erase rootId s.foreign)).getD []
    by_cases same : other = rootId
    · subst same
      rw [update_self, Assoc.get_erase_self]
      exact alone
    · rw [others same, Assoc.get_erase_ne (Ne.symm same)]
      exact tracks.holders other
  · show Assoc.get other (Assoc.erase rootId s.foreign) ≠ _
    by_cases same : other = rootId
    · subst same
      rw [Assoc.get_erase_self]
      exact fun is => by cases is
    · rw [Assoc.get_erase_ne (Ne.symm same)]
      exact tracks.brought other
  · show _ ↔ other ∈ s.localRoots.filter (· ≠ rootId)
    by_cases same : other = rootId
    · subst same
      rw [update_self]
      simp [Life.ended]
    · rw [others same, tracks.own other]
      simp [same]
  · show _ = update s.touches rootId [] other
    by_cases same : other = rootId
    · subst same
      rw [update_self, update_self]
      rfl
    · rw [others same, update_of_ne same]
      exact tracks.objects other
  · show _ ↔ object ∈ update s.touches rootId [] other
    rw [object_eq]
    by_cases same : other = rootId
    · subst same
      rw [update_self]
      refine iff_of_false ?_ (not_mem_nil)
      split_ifs with touched
      · exact fun has => (has_erase.mp has).1 rfl
      · exact fun has => touched ((tracks.leases object other).mp has)
    · rw [update_of_ne same, ← tracks.leases object other]
      split_ifs
      · exact has_erase.trans (and_iff_right same)
      · rfl
  · show _ = (update s.rootLinks rootId [] other).filter _
    by_cases same : other = rootId
    · subst same
      rw [update_self, update_self]
      rfl
    · rw [others same, update_of_ne same]
      exact tracks.out other
  · show (s.sent ++ _).count _ = _
    rw [count_append, tracks.told]
    by_cases same : other = rootId
    · subst same
      rw [update_self]
      show _ = ((lives other).told ++ (lives other).out).count link
      rw [count_append, tracks.out other]
      congr 1
      exact count_map_of_injective _ (fun link => (link, other))
        (fun _ _ equal => (Prod.mk.inj equal).1) link
    · rw [others same, Nat.add_eq_left]
      refine count_eq_zero_of_not_mem fun member => ?_
      obtain ⟨_, _, equal⟩ := List.mem_map.mp member
      exact same (Prod.mk.inj equal).2.symm
  · rw [object_eq] at is
    by_cases touched : object ∈ s.touches rootId
    · rw [if_pos touched] at is
      obtain ⟨before, there, rfl⟩ := map_eq_some_iff.mp is
      obtain ⟨members, drained⟩ := tracks.waits object before there
      by_cases waited : rootId ∈ before.grandfathered
      · rw [if_pos waited]
        refine ⟨fun other => ?_, ?_⟩
        · by_cases same : other = rootId
          · subst same
            rw [update_self]
            simp [Life.ended]
          · rw [others same, ← members other]
            simp [same]
        · have notDrained : before.drained = false :=
            Bool.eq_false_iff.mpr fun is => by
              rw [drained.mp is] at waited
              cases waited
          simp [notDrained]
      · rw [if_neg waited]
        refine ⟨fun other => ?_, drained⟩
        by_cases same : other = rootId
        · subst same
          rw [update_self]
          exact iff_of_false waited (not_mem_nil)
        · rw [others same]
          exact members other
    · rw [if_neg touched] at is
      obtain ⟨members, drained⟩ := tracks.waits object gate is
      refine ⟨fun other => ?_, drained⟩
      by_cases same : other = rootId
      · subst same
        rw [update_self]
        refine iff_of_false (fun member => touched ?_) (not_mem_nil)
        rw [← tracks.objects other]
        exact waits object ((members other).mp member)
      · rw [others same]
        exact members other
  · have before : (s.objects object).gate = none := by
      rw [object_eq] at is
      split_ifs at is
      · exact Option.map_eq_none_iff.mp is
      · exact is
    by_cases same : other = rootId
    · subst same
      rw [update_self]
      exact not_mem_nil
    · rw [others same]
      exact tracks.unwaited object before other

/-! ### A call begins, and settles -/

variable {call : Call} {l : Life Link ObjectId} {objects : ObjectId → ObjectImpl} (link : Link)

/-- What changes for one root only. -/
theorem part_put {A : Type} (part : Life Link ObjectId → A) {rootId : RootId}
    (same : part l = part (lives rootId)) (other : RootId) :
    part (update lives rootId l other) = part (lives other) := by
  by_cases root : other = rootId
  · subst root
    rw [update_self, same]
  · rw [update_of_ne root]

/-- What stays of a life is what the host keeps. -/
theorem part_tracks {A : Type} (part : Life Link ObjectId → A) {kept : RootId → A} {rootId : RootId}
    (same : part l = part (lives rootId)) (tracks : ∀ other, part (lives other) = kept other)
    (other : RootId) : part (update lives rootId l other) = kept other :=
  (part_put part same other).trans (tracks other)

theorem own_put {rootId : RootId} (same : l.own = (lives rootId).own) {roots : List RootId}
    (own : ∀ other, (lives other).own = true ↔ other ∈ roots) (other : RootId) :
    (update lives rootId l other).own = true ↔ other ∈ roots := by
  rw [part_put Life.own same]
  exact own other

theorem waits_put {rootId : RootId} (same : l.waits = (lives rootId).waits)
    (waits : ∀ object gate, (objects object).gate = some gate →
      (∀ other, other ∈ gate.grandfathered ↔ object ∈ (lives other).waits) ∧
        (gate.drained = true ↔ gate.grandfathered = []))
    (object : ObjectId) (gate : Gate) (is : (objects object).gate = some gate) :
    (∀ other, other ∈ gate.grandfathered ↔ object ∈ (update lives rootId l other).waits) ∧
      (gate.drained = true ↔ gate.grandfathered = []) := by
  obtain ⟨members, drained⟩ := waits object gate is
  refine ⟨fun other => ?_, drained⟩
  rw [part_put Life.waits same]
  exact members other

theorem unwaited_put {rootId : RootId} (same : l.waits = (lives rootId).waits)
    (unwaited : ∀ object, (objects object).gate = none → ∀ other, object ∉ (lives other).waits)
    (object : ObjectId) (is : (objects object).gate = none) (other : RootId) :
    object ∉ (update lives rootId l other).waits := by
  rw [part_put Life.waits same]
  exact unwaited object is other

theorem told_put {rootId : RootId} (same : l.told = (lives rootId).told)
    (told : ∀ link other, s.sent.count (link, other) = (lives other).told.count link) (link : Link)
    (other : RootId) : s.sent.count (link, other) = (update lives rootId l other).told.count link := by
  rw [part_put Life.told same]
  exact told link other

/-- The calls of a root change. -/
theorem tracks_running (tracks : Tracks s lives) {rootId : RootId} {running : List Call}
    {roots : CodeVersionId → RootId → Nat} {number : Nat}
    (counts : ∀ codeVersion other, roots codeVersion other =
      running.countP fun call => call.rootId = other ∧ call.codeVersion = codeVersion)
    (here : number = running.countP fun call => call.rootId = rootId)
    (others : ∀ other, other ≠ rootId → (running.countP fun call => call.rootId = other) =
      s.running.countP fun call => call.rootId = other) :
    Tracks { s with running, roots }
      (update lives rootId { lives rootId with running := number }) := by
  refine ⟨counts, fun other => ?_,
    part_tracks Life.holders (by rfl) tracks.holders, tracks.brought,
    own_put (by rfl) tracks.own,
    part_tracks Life.objects (by rfl) tracks.objects, tracks.leases,
    part_tracks Life.out (by rfl) tracks.out, told_put (by rfl) tracks.told,
    waits_put (by rfl) tracks.waits, unwaited_put (by rfl) tracks.unwaited⟩
  · by_cases root : other = rootId
    · subst root
      rw [update_self]
      exact here
    · rw [update_of_ne root, others other root]
      exact tracks.running other

/-- The count of one root in one code version changes with its calls. -/
theorem counts_put (tracks : Tracks s lives) {running : List Call} {number : Nat}
    (here : number = running.countP
      fun other => other.rootId = call.rootId ∧ other.codeVersion = call.codeVersion)
    (others : ∀ p : Call → Bool, p call = false → running.countP p = s.running.countP p)
    (codeVersion : CodeVersionId) (rootId : RootId) :
    update s.roots call.codeVersion (update (s.roots call.codeVersion) call.rootId number)
      codeVersion rootId =
      running.countP fun other => other.rootId = rootId ∧ other.codeVersion = codeVersion := by
  by_cases version : codeVersion = call.codeVersion
  · subst version
    rw [update_self]
    by_cases root : rootId = call.rootId
    · subst root
      rw [update_self]
      exact here
    · rw [update_of_ne root, tracks.counts, others]
      exact decide_eq_false fun is => root is.1.symm
  · rw [update_of_ne version, tracks.counts, others]
    exact decide_eq_false fun is => version is.2.symm

/-- A call begins to run. -/
theorem tracks_join (tracks : Tracks s lives) (call : Call) :
    Tracks { s with
      running := s.running ++ [call]
      roots := update s.roots call.codeVersion (update (s.roots call.codeVersion) call.rootId (s.roots call.codeVersion call.rootId + 1)) }
      (update lives call.rootId { lives call.rootId with running := (lives call.rootId).running + 1 }) := by
  refine tracks_running tracks (counts_put tracks ?_ fun p not => ?_) ?_ fun other root => ?_
  · rw [tracks.counts, countP_append, countP_singleton]
    simp
  · rw [countP_append, countP_singleton, not]
    rfl
  · rw [tracks.running, countP_append, countP_singleton]
    simp
  · rw [countP_append, countP_singleton]
    simp [Ne.symm root]

/-- What a host keeps of its calls once one has settled, before the root ends. -/
theorem tracks_settled (tracks : Tracks s lives) (member : call ∈ s.running) :
    Tracks { s with
      running := s.running.erase call
      roots := update s.roots call.codeVersion (update (s.roots call.codeVersion) call.rootId (s.roots call.codeVersion call.rootId - 1)) }
      (update lives call.rootId { lives call.rootId with running := (lives call.rootId).running - 1 }) := by
  refine tracks_running tracks (counts_put tracks ?_ fun p not => ?_) ?_ fun other root => ?_
  · rw [tracks.counts, countP_erase]
    simp [member]
  · rw [countP_erase, not]
    simp
  · rw [tracks.running, countP_erase]
    simp [member]
  · rw [countP_erase]
    simp [Ne.symm root]

/-- What notes mean for every root. -/
def noted (lives : RootId → Life Link ObjectId) (notes : List (Note RootId Link ObjectId)) :
    RootId → Life Link ObjectId :=
  fun rootId => notes.foldl (Life.note rootId) (lives rootId)

/-- The invariant of a run. -/
structure Inv (s : Host) (lives : RootId → Life Link ObjectId) : Prop extends Tracks s lives where
  quiet : ∀ rootId, (lives rootId).Quiet
  /-- A root that is still to start is not alive. -/
  fresh : ∀ seq, s.rootSeq < seq → ¬ (lives (.started seq)).Alive
  /-- A root is kept for links that are open. -/
  linked : ∀ rootId, ∀ link ∈ s.rootLinks rootId, link ∈ s.connections

/-- A note about one root. -/
theorem noted_one {note : Note RootId Link ObjectId} {rootId : RootId}
    (here : Life.note rootId (lives rootId) note = l)
    (others : ∀ other, other ≠ rootId → Life.note other (lives other) note = lives other) :
    noted lives [note] = update lives rootId l := by
  funext other
  by_cases same : other = rootId
  · subst same
    rw [update_self]
    exact here
  · rw [update_of_ne same]
    exact others other same

theorem noted_settled : noted lives [.settled rootId] =
    update lives rootId ({ lives rootId with running := (lives rootId).running - 1 }).finish :=
  noted_one (if_pos rfl) fun _ same => if_neg (Ne.symm same)

theorem noted_released : noted lives [.released rootId link] =
    update lives rootId ((lives rootId).release link) :=
  noted_one (if_pos rfl) fun _ same => if_neg (Ne.symm same)

theorem noted_began : noted lives [.began rootId] =
    update lives rootId { lives rootId with own := true, running := (lives rootId).running + 1 } :=
  noted_one (if_pos rfl) fun _ same => if_neg (Ne.symm same)

theorem noted_arrived : noted lives [.arrived rootId link] =
    update lives rootId { lives rootId with
      running := (lives rootId).running + 1
      holders := if (lives rootId).own then (lives rootId).holders
        else Lib.insertOnce link (lives rootId).holders } :=
  noted_one (if_pos rfl) fun _ same => if_neg (Ne.symm same)

theorem holders_eq_nil (tracks : Tracks s lives) {rootId : RootId} :
    (lives rootId).holders = [] ↔ Assoc.get rootId s.foreign = none := by
  rw [tracks.holders]
  cases found : Assoc.get rootId s.foreign with
  | none => simp
  | some links =>
    refine iff_of_false (fun is => tracks.brought rootId ?_) (fun is => by cases is)
    rw [found]
    exact congrArg some is

/-- **A call settles.** -/
theorem tracks_settle (inv : Inv s lives) (member : call ∈ s.running)
    (meets : s.Meets (.settle call)) :
    Tracks (s.settle call) (noted lives [.settled call.rootId]) := by
  have settled := (tracks_settled inv.toTracks member).withCtxs
    (s.ctxs.modify call.ctx fun c => { c with closed := true }) s.checked
  rw [noted_settled]
  have running : (lives call.rootId).running - 1 =
      (s.running.erase call).countP fun other => other.rootId = call.rootId := by
    have := settled.running call.rootId
    rw [update_self] at this
    exact this
  have count : s.roots call.codeVersion call.rootId - 1 = (s.running.erase call).countP
      fun other => other.rootId = call.rootId ∧ other.codeVersion = call.codeVersion := by
    have := settled.counts call.codeVersion call.rootId
    rw [show (Host.roots _ : CodeVersionId → RootId → Nat) = Function.update _ call.codeVersion _ from rfl,
      update_self, update_self] at this
    exact this
  have stays : ({ lives call.rootId with running := (lives call.rootId).running - 1 } :
      Life Link ObjectId).Alive → Tracks { s with
        running := s.running.erase call
        roots := update s.roots call.codeVersion (update (s.roots call.codeVersion) call.rootId (s.roots call.codeVersion call.rootId - 1))
        ctxs := s.ctxs.modify call.ctx fun c => { c with closed := true } }
      (update lives call.rootId ({ lives call.rootId with running := (lives call.rootId).running - 1 }).finish) := by
    intro alive
    rw [Life.finish, if_pos alive]
    exact settled
  show Tracks (if _ then _ else if _ then _ else _) _
  split_ifs with more held
  · refine stays (.inl ?_)
    show 0 < (lives call.rootId).running - 1
    have more : 0 < s.roots call.codeVersion call.rootId - 1 := more
    rw [count, countP_pos_iff] at more
    obtain ⟨other, inside, is⟩ := more
    rw [running, countP_pos_iff]
    exact ⟨other, inside, by simpa using (of_decide_eq_true is).1⟩
  · refine stays (.inr fun is => ?_)
    have none := (holders_eq_nil inv.toTracks).mp is
    have held : Assoc.has call.rootId s.foreign = true := held
    rw [Assoc.has, none] at held
    cases held
  · have gone : Assoc.get call.rootId s.foreign = none :=
      Option.not_isSome_iff_eq_none.mp held
    have zero : s.roots call.codeVersion call.rootId - 1 = 0 := Nat.eq_zero_of_not_pos more
    have last : (lives call.rootId).running - 1 = 0 := by
      rw [running, countP_eq_zero]
      intro other inside same
      rcases meets with has | alone
      · exact held has
      · obtain ⟨again, member, root, version⟩ := alone other inside (of_decide_eq_true same)
        rw [count, countP_eq_zero] at zero
        exact zero again member (decide_eq_true ⟨root, version⟩)
    have dead : ¬ ({ lives call.rootId with running := (lives call.rootId).running - 1 } :
        Life Link ObjectId).Alive := by
      rintro (runs | holders)
      · exact absurd last (Nat.ne_of_gt runs)
      · exact holders ((holders_eq_nil inv.toTracks).mpr gone)
    rw [Life.finish, if_neg dead]
    have ended := tracks_endRoot settled call.rootId (by
        rw [update_self]
        exact (holders_eq_nil inv.toTracks).mpr gone)
      (by
        rw [update_self]
        exact (inv.quiet call.rootId).waits)
    rw [update_self, update_idem] at ended
    exact ended

/-! ### A link lets go of a root -/

/-- The links of a root change. -/
theorem tracks_foreign (tracks : Tracks s lives) {rootId : RootId} {links : List Link}
    {foreign : List (RootId × List Link)}
    (here : (Assoc.get rootId foreign).getD [] = links)
    (brought : Assoc.get rootId foreign ≠ some [])
    (others : ∀ other, other ≠ rootId → Assoc.get other foreign = Assoc.get other s.foreign) :
    Tracks { s with foreign } (update lives rootId { lives rootId with holders := links }) := by
  refine ⟨tracks.counts,
    part_tracks Life.running (by rfl) tracks.running,
    fun other => ?_, fun other => ?_, own_put (by rfl) tracks.own,
    part_tracks Life.objects (by rfl) tracks.objects, tracks.leases,
    part_tracks Life.out (by rfl) tracks.out, told_put (by rfl) tracks.told,
    waits_put (by rfl) tracks.waits, unwaited_put (by rfl) tracks.unwaited⟩
  · by_cases root : other = rootId
    · subst root
      rw [update_self]
      exact here.symm
    · rw [update_of_ne root]
      exact (tracks.holders other).trans (congrArg (Option.getD · []) (others other root).symm)
  · by_cases root : other = rootId
    · subst root
      exact brought
    · exact fun is => tracks.brought other ((others other root).symm.trans is)

theorem erase_erase (foreign : List (RootId × List Link)) :
    Assoc.erase rootId (Assoc.erase rootId foreign) = Assoc.erase rootId foreign := by
  simp [Assoc.erase, List.filter_filter]

/-- A root whose last link is gone ends the same whether or not its empty entry is still kept. -/
theorem endRoot_erase (s : Host) (rootId : RootId) :
    { s with foreign := Assoc.erase rootId s.foreign }.endRoot rootId = s.endRoot rootId := by
  unfold Host.endRoot
  rw [erase_erase]

/-- **The end of a root is announced, or its link is closed.** -/
theorem tracks_foreignRootEnded (tracks : Tracks s lives)
    (waits : ∀ rootId, ∀ object ∈ (lives rootId).waits, object ∈ (lives rootId).objects)
    {rootId : RootId} {link : Link} (ends : s.EndsRetained rootId link) :
    Tracks (s.foreignRootEnded rootId link)
      (update lives rootId ((lives rootId).release link)) := by
  have holders := tracks.holders rootId
  unfold Host.foreignRootEnded
  cases found : Assoc.get rootId s.foreign with
  | none =>
    rw [found] at holders
    rw [Life.release, if_neg (by rw [holders]; exact not_mem_nil), update_eq_self]
    exact tracks
  | some links =>
    rw [found] at holders
    change (lives rootId).holders = links at holders
    dsimp only
    by_cases member : link ∈ links
    · have released : (lives rootId).release link =
          ({ lives rootId with holders := links.filter (· ≠ link) }).finish := by
        rw [Life.release, holders, if_pos member]
      rw [if_neg (not_not.mpr member), released]
      by_cases left : links.filter (· ≠ link) = []
      · rw [left, if_neg (not_not.mpr rfl)]
        have gone : Tracks
            { s with foreign := Assoc.erase rootId (Assoc.set rootId [] s.foreign) }
            (update lives rootId { lives rootId with holders := [] }) := by
          refine tracks_foreign tracks ?_ ?_ fun other root => ?_
          · rw [Assoc.get_erase_self]
            rfl
          · rw [Assoc.get_erase_self]
            exact fun is => by cases is
          · rw [Assoc.get_erase_ne (Ne.symm root), Assoc.get_set_ne (Ne.symm root)]
        by_cases runs : s.codeVersions.any fun id => 0 < s.roots id rootId
        · have alive : ({ lives rootId with holders := [] } : Life Link ObjectId).Alive := by
            obtain ⟨id, _, positive⟩ := List.any_eq_true.mp runs
            have positive := of_decide_eq_true positive
            rw [tracks.counts, countP_pos_iff] at positive
            obtain ⟨call, inside, is⟩ := positive
            left
            show 0 < (lives rootId).running
            rw [tracks.running, countP_pos_iff]
            exact ⟨call, inside, decide_eq_true (of_decide_eq_true is).1⟩
          rw [Life.finish, if_pos alive]
          refine (if_pos runs).symm ▸ ?_
          exact gone
        · have dead : ¬ ({ lives rootId with holders := [] } : Life Link ObjectId).Alive := by
            rintro (running | holds)
            · have running : 0 < (lives rootId).running := running
              rw [tracks.running, countP_pos_iff] at running
              obtain ⟨call, inside, is⟩ := running
              obtain ⟨other, member, root, retained⟩ :=
                ends links found left call inside (of_decide_eq_true is)
              refine runs (List.any_eq_true.mpr ⟨other.codeVersion, retained, ?_⟩)
              rw [decide_eq_true_eq, tracks.counts, countP_pos_iff]
              exact ⟨other, member, decide_eq_true ⟨root, rfl⟩⟩
            · exact holds rfl
          rw [Life.finish, if_neg dead]
          refine (if_neg runs).symm ▸ ?_
          rw [← endRoot_erase]
          have ended := tracks_endRoot gone rootId (by rw [update_self]) (by
              rw [update_self]
              exact waits rootId)
          rw [update_self, update_idem] at ended
          exact ended
      · rw [if_pos left]
        have alive : ({ lives rootId with holders := links.filter (· ≠ link) } :
            Life Link ObjectId).Alive := .inr left
        rw [Life.finish, if_pos alive]
        refine tracks_foreign tracks ?_ ?_ fun other root => ?_
        · rw [Assoc.get_set_self]
          rfl
        · rw [Assoc.get_set_self]
          exact fun is => left (Option.some.inj is)
        · rw [Assoc.get_set_ne (Ne.symm root)]
    · rw [if_pos member, Life.release, if_neg (by rwa [holders]), update_eq_self]
      exact tracks

/-! ### A link closes -/

theorem foreignRootEnded_frame (s : Host) (rootId : RootId) (link : Link) :
    (s.foreignRootEnded rootId link).running = s.running ∧
      (s.foreignRootEnded rootId link).codeVersions = s.codeVersions ∧
      (s.foreignRootEnded rootId link).connections = s.connections ∧
      (s.foreignRootEnded rootId link).rootSeq = s.rootSeq := by
  unfold Host.foreignRootEnded
  cases Assoc.get rootId s.foreign with
  | none => exact ⟨rfl, rfl, rfl, rfl⟩
  | some links =>
    dsimp only
    split_ifs <;> exact ⟨rfl, rfl, rfl, rfl⟩

theorem foreignRootEnded_rootLinks (s : Host) {rootId other : RootId} {link target : Link}
    (kept : target ∈ (s.foreignRootEnded rootId link).rootLinks other) :
    target ∈ s.rootLinks other := by
  have ended : ∀ s' : Host, s'.rootLinks = s.rootLinks →
      target ∈ (s'.endRoot rootId).rootLinks other → target ∈ s.rootLinks other := by
    intro s' same kept
    change target ∈ update s'.rootLinks rootId [] other at kept
    by_cases root : other = rootId
    · subst root
      rw [update_self] at kept
      cases kept
    · rwa [update_of_ne root, same] at kept
  unfold Host.foreignRootEnded at kept
  cases found : Assoc.get rootId s.foreign with
  | none => simpa only [found] using kept
  | some links =>
    simp only [found] at kept
    split_ifs at kept
    all_goals first | exact kept | exact ended _ rfl kept

/-- The links of a root are those of its scope. -/
theorem get_of_holders {s' : Host} {lives' : RootId → Life Link ObjectId}
    (tracks : Tracks s lives) (tracks' : Tracks s' lives') (rootId : RootId)
    (same : (lives' rootId).holders = (lives rootId).holders) :
    Assoc.get rootId s'.foreign = Assoc.get rootId s.foreign := by
  rw [tracks.holders, tracks'.holders] at same
  have brought := tracks.brought rootId
  have brought' := tracks'.brought rootId
  revert same brought brought'
  cases Assoc.get rootId s.foreign with
  | none =>
    cases Assoc.get rootId s'.foreign with
    | none => exact fun _ _ _ => rfl
    | some links => exact fun is _ brought => absurd (congrArg some is) brought
  | some links =>
    cases Assoc.get rootId s'.foreign with
    | none => exact fun is brought _ => absurd (congrArg some is.symm) brought
    | some links' => exact fun is _ _ => congrArg some is

theorem release_release (l : Life Link ObjectId) (link : Link) :
    (l.release link).release link = l.release link := by
  have absent : link ∉ (l.release link).holders := by
    unfold Life.release Life.finish Life.ended
    split_ifs with held
    · exact fun member => (of_decide_eq_true (mem_filter.mp member).2) rfl
    · exact fun member => (of_decide_eq_true (mem_filter.mp member).2) rfl
    · exact held
  exact if_neg absent

theorem waits_release (waits : ∀ object ∈ l.waits, object ∈ l.objects) (link : Link) :
    ∀ object ∈ (l.release link).waits, object ∈ (l.release link).objects := by
  unfold Life.release Life.finish
  split_ifs
  · exact waits
  · exact fun _ member => member
  · exact waits

/-- The link of many roots closes. -/
theorem tracks_foldl {link : Link} (entries : List (RootId × List Link)) {s : Host}
    {lives : RootId → Life Link ObjectId} (tracks : Tracks s lives)
    (waits : ∀ rootId, ∀ object ∈ (lives rootId).waits, object ∈ (lives rootId).objects)
    (ends : ∀ rootId, s.EndsRetained rootId link) :
    Tracks (entries.foldl (fun s e => s.foreignRootEnded e.1 link) s)
      (fun rootId => if rootId ∈ Assoc.keys entries then (lives rootId).release link
        else lives rootId) := by
  induction entries generalizing s lives with
  | nil => simpa [Assoc.keys] using tracks
  | cons e rest ih =>
    obtain ⟨running, retained, _, _⟩ := foreignRootEnded_frame s e.1 link
    have one := tracks_foreignRootEnded tracks waits (ends e.1)
    rw [foldl_cons]
    have more := ih one (by
        intro rootId
        by_cases same : rootId = e.1
        · subst same
          rw [update_self]
          exact waits_release (waits _) link
        · rw [update_of_ne same]
          exact waits rootId)
      (by
        intro rootId links found left call inside root
        rw [running] at inside
        rw [running, retained]
        by_cases same : rootId = e.1
        · subst same
          have holders := one.holders e.1
          rw [update_self, found] at holders
          change ((lives e.1).release link).holders = links at holders
          have absent : link ∉ links := by
            rw [← holders]
            intro member
            have again := release_release (lives e.1) link
            rw [Life.release, if_pos member] at again
            have fewer := congrArg Life.holders again
            have member' := member
            rw [← fewer] at member'
            unfold Life.finish Life.ended at member'
            split_ifs at member' <;>
              exact of_decide_eq_true (mem_filter.mp member').2 rfl
          have all : links.filter (· ≠ link) = links :=
            List.filter_eq_self.mpr fun other inside =>
              decide_eq_true fun is => absent (is ▸ inside)
          rw [all] at left
          exact absurd (found.trans (congrArg some left)) (one.brought e.1)
        · have get := get_of_holders tracks one rootId (by rw [update_of_ne same])
          exact ends rootId links (get ▸ found) left call inside root)
    convert more using 1
    funext rootId
    by_cases same : rootId = e.1
    · subst same
      rw [update_self, Assoc.keys_cons, if_pos mem_cons_self, release_release, ite_self]
    · rw [update_of_ne same, Assoc.keys_cons]
      simp only [mem_cons, same, false_or]

/-- **A link closes.** -/
theorem tracks_connectionClosed (inv : Inv s lives) {link : Link}
    (ends : ∀ rootId, s.EndsRetained rootId link) :
    Tracks (s.connectionClosed link) (noted lives [.lost link]) := by
  have cut : ∀ links : List Link,
      links.filter (· ∈ s.connections.filter (· ≠ link)) =
        (links.filter (· ∈ s.connections)).filter (· ≠ link) := by
    intro links
    rw [List.filter_filter]
    refine filter_congr fun other _ => ?_
    simp only [mem_filter, decide_eq_true_eq, Bool.decide_and, Bool.and_comm]
  have first : Tracks { s with connections := s.connections.filter (· ≠ link) }
      (fun rootId => { lives rootId with out := (lives rootId).out.filter (· ≠ link) }) :=
    ⟨inv.counts, inv.running, inv.holders, inv.brought, inv.own, inv.objects, inv.leases,
      fun rootId => by
        show (lives rootId).out.filter _ = (s.rootLinks rootId).filter _
        rw [cut, inv.out],
      inv.told, inv.waits, inv.unwaited⟩
  have all := tracks_foldl (s.foreign.filter fun e => link ∈ e.2) first
    (fun rootId => (inv.quiet rootId).waits) ends
  have lost : noted lives [.lost link] = fun rootId =>
      if rootId ∈ Assoc.keys (s.foreign.filter fun e => link ∈ e.2) then
        ({ lives rootId with out := (lives rootId).out.filter (· ≠ link) }).release link
      else { lives rootId with out := (lives rootId).out.filter (· ≠ link) } := by
    funext rootId
    split_ifs with held
    · rfl
    · refine if_neg fun member => held ?_
      have member : link ∈ (lives rootId).holders := member
      rw [inv.holders] at member
      cases found : Assoc.get rootId s.foreign with
      | none =>
        rw [found] at member
        cases member
      | some links =>
        rw [found] at member
        exact List.mem_map.mpr ⟨(rootId, links),
          mem_filter.mpr ⟨Assoc.mem_of_get found, decide_eq_true member⟩, rfl⟩
  rw [lost]
  have connections : ∀ (entries : List (RootId × List Link)) (s : Host),
      (entries.foldl (fun s e => s.foreignRootEnded e.1 link) s).connections = s.connections := by
    intro entries
    induction entries with
    | nil => exact fun _ => rfl
    | cons e rest ih =>
      intro s
      rw [foldl_cons, ih]
      exact (foreignRootEnded_frame s e.1 link).2.2.1
  refine ⟨all.counts, all.running, all.holders, all.brought, all.own, all.objects, all.leases,
    fun rootId => ?_, all.told, all.waits, all.unwaited⟩
  rw [all.out]
  show List.filter _ _ = List.filter _ (List.filter _ _)
  rw [List.filter_filter]
  refine filter_congr fun other _ => ?_
  show decide (other ∈ _) = (decide (other ∈ _) && decide (other ≠ link))
  rw [show (Host.connectionClosed s link).connections = _ from connections _ _, connections]
  by_cases same : other = link <;> simp [same]

/-! ### Roots that begin and arrive -/

theorem filter_absent {rootId : RootId} {roots : List RootId} (absent : rootId ∉ roots) :
    roots.filter (· ≠ rootId) = roots :=
  List.filter_eq_self.mpr fun _ member => decide_eq_true fun is => absent (is ▸ member)

/-- The links that keep a root open, with the one of a call. -/
def heldBy (s : Host) (rootId : RootId) (links : List Link) : Option Link → List Link
  | some link => if rootId ∈ s.localRoots then links else Lib.insertOnce link links
  | none => links

variable {codeVersion : CodeVersionId}

/-- **A call of a root begins.** -/
theorem tracks_joinRoot (tracks : Tracks s lives) (rootId : RootId) (link : Option Link)
    (retained : codeVersion ∈ s.codeVersions) :
    Tracks (s.joinRoot rootId codeVersion link).1
      (update lives rootId { lives rootId with
        running := (lives rootId).running + 1
        holders := heldBy s rootId (lives rootId).holders link }) := by
  have foreign : Tracks { s with foreign := s.brought rootId link } (update lives rootId { lives rootId with holders := heldBy s rootId (lives rootId).holders link }) := by
    unfold Host.brought heldBy
    cases link with
    | none =>
      show Tracks s (update lives rootId (lives rootId))
      rw [update_eq_self]
      exact tracks
    | some link =>
      dsimp only
      split_ifs
      · show Tracks s (update lives rootId (lives rootId))
        rw [update_eq_self]
        exact tracks
      · refine tracks_foreign tracks ?_ ?_ fun other root => ?_
        · rw [Assoc.get_set_self, tracks.holders]
          rfl
        · rw [Assoc.get_set_self]
          exact fun is => Lib.insertOnce_ne_nil _ _ (Option.some.inj is)
        · rw [Assoc.get_set_ne (Ne.symm root)]
  have joined := (tracks_join foreign ⟨s.ctxs.length, rootId, codeVersion⟩).withCtxs
    (s.ctxs ++ [⟨rootId, codeVersion, false, false⟩]) s.checked
  rw [update_self, update_idem] at joined
  unfold Host.joinRoot
  rw [if_neg (not_not.mpr retained)]
  exact joined

/-- A call of a root is refused. -/
theorem tracks_refused (tracks : Tracks s lives) {rootId : RootId} (link : Option Link)
    (gone : codeVersion ∉ s.codeVersions) (absent : rootId ∉ s.localRoots) :
    Tracks (s.joinRoot rootId codeVersion link).1 lives := by
  unfold Host.joinRoot
  rw [if_pos gone, filter_absent absent]
  exact tracks

/-- **A root arrives.** -/
theorem tracks_arrive (tracks : Tracks s lives) {link : Link} {rootId : RootId}
    (meets : s.Meets (.arrive link rootId codeVersion)) :
    Tracks (s.joinRoot rootId codeVersion (some link)).1
      (noted lives (s.note (.arrive link rootId codeVersion))) := by
  by_cases retained : codeVersion ∈ s.codeVersions
  · have note : s.note (.arrive link rootId codeVersion) = [.arrived rootId link] :=
      if_pos retained
    have held : heldBy s rootId (lives rootId).holders (some link) =
        if (lives rootId).own then (lives rootId).holders
        else Lib.insertOnce link (lives rootId).holders := by
      unfold heldBy
      simp only [← tracks.own]
    rw [note, noted_arrived, ← held]
    exact tracks_joinRoot tracks rootId (some link) retained
  · have note : s.note (.arrive link rootId codeVersion) = [] := if_neg retained
    rw [note]
    exact tracks_refused tracks _ retained (meets.resolve_left retained)

/-- The number of the next root is one of none that this host keeps. -/
theorem absent_next (inv : Inv s lives) : RootId.started (s.rootSeq + 1) ∉ s.localRoots := by
  intro member
  have own := (inv.own _).mpr member
  rw [(inv.quiet _).own (inv.fresh _ (Nat.lt_succ_self _))] at own
  cases own

/-- A root of this host is marked as its own. -/
theorem tracks_own (tracks : Tracks s lives) (rootSeq : Nat) (rootId : RootId) :
    Tracks { s with rootSeq, localRoots := s.localRoots ++ [rootId] }
      (update lives rootId { lives rootId with own := true }) := by
  refine ⟨tracks.counts,
    part_tracks Life.running (by rfl) tracks.running,
    part_tracks Life.holders (by rfl) tracks.holders, tracks.brought,
    fun other => ?_,
    part_tracks Life.objects (by rfl) tracks.objects, tracks.leases,
    part_tracks Life.out (by rfl) tracks.out, told_put (by rfl) tracks.told,
    waits_put (by rfl) tracks.waits, unwaited_put (by rfl) tracks.unwaited⟩
  · show _ ↔ other ∈ s.localRoots ++ [rootId]
    by_cases root : other = rootId
    · subst root
      rw [update_self]
      simp
    · rw [update_of_ne root, tracks.own]
      simp [root]

/-- **A root starts.** -/
theorem tracks_root (inv : Inv s lives) (codeVersion : Option CodeVersionId) :
    Tracks (s.root codeVersion).1 (noted lives (s.note (.root codeVersion))) := by
  by_cases retained : codeVersion.getD s.current ∈ s.codeVersions
  · have note : s.note (.root codeVersion) = [.began (.started (s.rootSeq + 1))] :=
      if_pos retained
    have own := tracks_own inv.toTracks (s.rootSeq + 1) (.started (s.rootSeq + 1))
    have joined := tracks_joinRoot own (.started (s.rootSeq + 1)) none retained
    rw [update_self, update_idem] at joined
    rw [note, noted_began]
    exact joined
  · have note : s.note (.root codeVersion) = [] := if_neg retained
    rw [note]
    unfold Host.root Host.joinRoot
    rw [if_pos retained, filter_append, filter_absent (absent_next inv)]
    simp only [filter_cons, ne_eq, not_true_eq_false, decide_false, Bool.false_eq_true,
      if_false, filter_nil, append_nil]
    exact inv.toTracks.withIds (s.rootSeq + 1) s.codeVersions s.current s.previous

/-! ### Work of a context -/

theorem insertOnce_of_mem {A : Type} [DecidableEq A] {a : A} {set : List A} (member : a ∈ set) :
    Lib.insertOnce a set = set := if_pos member

theorem has_set {rootId other : RootId} {leases : List (RootId × CodeVersionId)} :
    Assoc.has other (Assoc.set rootId codeVersion leases) = true ↔
      other = rootId ∨ Assoc.has other leases = true := by
  unfold Assoc.has
  by_cases same : rootId = other
  · subst same
    simp
  · rw [Assoc.get_set_ne same]
    simp [Ne.symm same]

/-- **A lease is taken.** -/
theorem tracks_lease (tracks : Tracks s lives) (ctx : CtxImpl) (object : ObjectId) :
    Tracks (s.lease ctx object) (update lives ctx.rootId { lives ctx.rootId with
      objects := Lib.insertOnce object (lives ctx.rootId).objects }) := by
  unfold Host.lease
  split_ifs with held
  · have touched := (tracks.leases object ctx.rootId).mp held
    rw [← tracks.objects] at touched
    rw [insertOnce_of_mem touched]
    show Tracks s (update lives ctx.rootId (lives ctx.rootId))
    rw [update_eq_self]
    exact tracks
  · have gate : ∀ o, (update s.objects object { s.objects object with
        leases := Assoc.set ctx.rootId ctx.codeVersion (s.objects object).leases } o).gate = (s.objects o).gate := by
      intro o
      by_cases same : o = object
      · subst same
        rw [update_self]
      · rw [update_of_ne same]
    refine ⟨tracks.counts,
      part_tracks Life.running (by rfl) tracks.running,
      part_tracks Life.holders (by rfl) tracks.holders,
      tracks.brought, own_put (by rfl) tracks.own, fun other => ?_, fun o other => ?_,
      part_tracks Life.out (by rfl) tracks.out,
      told_put (by rfl) tracks.told,
      waits_put (by rfl) fun o g is => tracks.waits o g ((gate o).symm.trans is),
      unwaited_put (by rfl) fun o is => tracks.unwaited o ((gate o).symm.trans is)⟩
    · show _ = update s.touches ctx.rootId _ other
      by_cases same : other = ctx.rootId
      · subst same
        rw [update_self, update_self, tracks.objects]
      · rw [update_of_ne same, update_of_ne same, tracks.objects]
    · show Assoc.has other (update s.objects object _ o).leases = true ↔
        o ∈ update s.touches ctx.rootId _ other
      have before := tracks.leases o other
      by_cases here : o = object
      · subst here
        rw [update_self, has_set, before]
        by_cases same : other = ctx.rootId
        · subst same
          rw [update_self]
          simp
        · rw [update_of_ne same]
          simp [same]
      · rw [update_of_ne here, before]
        by_cases same : other = ctx.rootId
        · subst same
          rw [update_self]
          simp [here]
        · rw [update_of_ne same]

/-- **A call goes out.** -/
theorem tracks_rootSent (tracks : Tracks s lives) (rootId : RootId) {link : Link}
    (isOpen : link ∈ s.connections) : Tracks (s.rootSent rootId link) (update lives rootId { lives rootId with out := Lib.insertOnce link (lives rootId).out }) := by
  refine ⟨tracks.counts,
    part_tracks Life.running (by rfl) tracks.running,
    part_tracks Life.holders (by rfl) tracks.holders,
    tracks.brought, own_put (by rfl) tracks.own,
    part_tracks Life.objects (by rfl) tracks.objects,
    tracks.leases, fun other => ?_, told_put (by rfl) tracks.told,
    waits_put (by rfl) tracks.waits, unwaited_put (by rfl) tracks.unwaited⟩
  · show _ = (update s.rootLinks rootId _ other).filter _
    by_cases same : other = rootId
    · subst same
      rw [update_self, update_self]
      show Lib.insertOnce link (lives other).out = _
      rw [tracks.out]
      unfold Lib.insertOnce
      by_cases there : link ∈ s.rootLinks other
      · rw [if_pos there, if_pos (mem_filter.mpr ⟨there, decide_eq_true isOpen⟩)]
        rfl
      · have one : [link].filter (· ∈ s.connections) = [link] := by simp [isOpen]
        rw [if_neg there, if_neg fun member => there (mem_filter.mp member).1, filter_append]
        exact congrArg (_ ++ ·) one.symm
    · rw [update_of_ne same, update_of_ne same]
      exact tracks.out other

/-- A root is alive in the host where its scope is. -/
theorem alive_iff (tracks : Tracks s lives) (rootId : RootId) :
    (lives rootId).Alive ↔ s.Alive rootId := by
  unfold Life.Alive Host.Alive
  rw [tracks.running, countP_pos_iff, ne_eq, holders_eq_nil tracks, Assoc.has,
    isSome_iff_ne_none]
  simp only [decide_eq_true_eq]

theorem noted_touched {rootId : RootId} (alive : (lives rootId).Alive) (object : ObjectId) :
    noted lives [.touched rootId object] = update lives rootId { lives rootId with objects := Lib.insertOnce object (lives rootId).objects } :=
  noted_one (if_pos ⟨rfl, alive⟩) fun _ same => if_neg fun is => same is.1.symm

theorem noted_reached {rootId : RootId} (alive : (lives rootId).Alive) (link : Link) :
    noted lives [.reached rootId link] = update lives rootId { lives rootId with out := Lib.insertOnce link (lives rootId).out } :=
  noted_one (if_pos ⟨rfl, alive⟩) fun _ same => if_neg fun is => same is.1.symm

/-- A call that goes on has its context. -/
theorem of_resume {ctx : CtxId} {c : CtxImpl} {s' : Host} (resumed : s.resume ctx = some (c, s')) :
    s.ctxs[ctx]? = some c ∧ s' = { s with checked := s.checked.erase ctx } := by
  unfold Host.resume at resumed
  split_ifs at resumed
  obtain ⟨c', found, same⟩ := map_eq_some_iff.mp resumed
  cases same
  exact ⟨found, rfl⟩

/-- **A call reaches an object.** -/
theorem tracks_invoke (tracks : Tracks s lives) {ctx : CtxImpl} {object : ObjectId}
    (alive : s.Admitted ctx object → s.Alive ctx.rootId) :
    Tracks (s.invoke ctx object)
      (noted lives (if s.Admitted ctx object then [.touched ctx.rootId object] else [])) := by
  unfold Host.invoke
  by_cases admitted : s.Admitted ctx object
  · rw [if_pos admitted, if_pos admitted, noted_touched ((alive_iff tracks _).mpr (alive admitted))]
    exact (tracks_lease tracks ctx object).withCtxs _ _
  · rw [if_neg admitted, if_neg admitted]
    exact tracks

/-- What a call that began has. -/
theorem joinRoot_ctx {rootId : RootId} {codeVersion : CodeVersionId} {link : Option Link}
    (retained : codeVersion ∈ s.codeVersions) :
    (s.joinRoot rootId codeVersion link).2 = some s.ctxs.length ∧
      (s.joinRoot rootId codeVersion link).1.ctxs[s.ctxs.length]? =
        some ⟨rootId, codeVersion, false, false⟩ := by
  unfold Host.joinRoot
  rw [if_neg (not_not.mpr retained)]
  exact ⟨rfl, List.getElem?_concat_length⟩

/-- What is delivered starts a root, unless its code version is gone. -/
theorem deliver_eq (s : Host) (object : ObjectId) : s.deliver object =
    if s.current ∈ s.codeVersions then
      (((s.root none).1.lease ⟨.started (s.rootSeq + 1), s.current, false, false⟩ object).newCtx
        (.started (s.rootSeq + 1)) s.current).2
    else (s.root none).1 := by
  unfold Host.deliver
  split_ifs with retained
  · obtain ⟨second, ctx⟩ := @joinRoot_ctx { s with
      rootSeq := s.rootSeq + 1
      localRoots := s.localRoots ++ [.started (s.rootSeq + 1)] }
      (.started (s.rootSeq + 1)) s.current none retained
    rw [show s.root none = ((s.root none).1, some s.ctxs.length) from Prod.ext rfl second]
    dsimp only
    rw [show (s.root none).1.ctxs[s.ctxs.length]? = _ from ctx]
  · have refused : (s.root none).2 = none := by
      unfold Host.root Host.joinRoot
      exact congrArg Prod.snd (if_pos retained)
    rw [show s.root none = ((s.root none).1, none) from Prod.ext rfl refused]

/-- **An event of a listener is delivered.** -/
theorem tracks_deliver (inv : Inv s lives) (object : ObjectId) :
    Tracks (s.deliver object) (noted lives (s.note (.deliver object))) := by
  have started := tracks_root inv none
  rw [deliver_eq]
  by_cases retained : s.current ∈ s.codeVersions
  · have note : s.note (.root none) = [.began (.started (s.rootSeq + 1))] := if_pos retained
    have notes : s.note (.deliver object) =
        [.began (.started (s.rootSeq + 1)), .touched (.started (s.rootSeq + 1)) object] :=
      if_pos retained
    rw [note] at started
    rw [notes, if_pos retained]
    have alive : (noted lives [.began (.started (s.rootSeq + 1))]
        (.started (s.rootSeq + 1))).Alive := by
      rw [noted_began, update_self]
      exact .inl (Nat.succ_pos _)
    have leased := tracks_lease started ⟨.started (s.rootSeq + 1), s.current, false, false⟩ object
    rw [← noted_touched alive] at leased
    exact leased.withCtxs _ _
  · have note : s.note (.root none) = [] := if_neg retained
    have notes : s.note (.deliver object) = [] := if_neg retained
    rw [note] at started
    rw [notes, if_neg retained]
    exact started

/-! ### Gates -/

/-- The gates of the objects change, and what scopes are waited for. -/
theorem tracks_gates (tracks : Tracks s lives) {waiting : RootId → List ObjectId}
    (leases : ∀ object, (objects object).leases = (s.objects object).leases)
    (waits : ∀ object gate, (objects object).gate = some gate →
      (∀ rootId, rootId ∈ gate.grandfathered ↔ object ∈ waiting rootId) ∧
        (gate.drained = true ↔ gate.grandfathered = []))
    (unwaited : ∀ object, (objects object).gate = none → ∀ rootId, object ∉ waiting rootId) :
    Tracks { s with objects } fun rootId => { lives rootId with waits := waiting rootId } :=
  ⟨tracks.counts, tracks.running, tracks.holders, tracks.brought, tracks.own, tracks.objects,
    fun object rootId => (leases object).symm ▸ tracks.leases object rootId, tracks.out,
    tracks.told, waits, unwaited⟩

/-- **A gate closes over an object.** -/
theorem tracks_cut (tracks : Tracks s lives) {object : ObjectId}
    (shut : (s.objects object).gate = none) :
    Tracks { s with objects := update s.objects object (s.objects object).cut }
      (noted lives [.cut object]) := by
  have held : ∀ rootId, rootId ∈ Assoc.keys (s.objects object).leases ↔
      object ∈ (lives rootId).objects := by
    intro rootId
    rw [← Assoc.has_iff, tracks.leases, tracks.objects]
  have lives' : noted lives [.cut object] = fun rootId => { lives rootId with
      waits := if object ∈ (lives rootId).objects then
        Lib.insertOnce object (lives rootId).waits else (lives rootId).waits } := by
    funext rootId
    show (if _ then _ else _) = _
    split_ifs <;> rfl
  rw [lives']
  refine tracks_gates tracks (fun o => ?_) (fun o gate is => ?_) (fun o is rootId => ?_)
  · by_cases same : o = object
    · subst same
      rw [update_self]
      rfl
    · rw [update_of_ne same]
  · by_cases same : o = object
    · subst same
      rw [update_self] at is
      cases is
      refine ⟨fun rootId => (held rootId).trans ?_, ?_⟩
      · split_ifs with there
        · exact iff_of_true there (Lib.mem_insertOnce.mpr (.inl rfl))
        · exact iff_of_false there (tracks.unwaited o shut rootId)
      · rw [List.isEmpty_iff, Assoc.keys, map_eq_nil_iff]
    · rw [update_of_ne same] at is
      obtain ⟨members, drained⟩ := tracks.waits o gate is
      refine ⟨fun rootId => (members rootId).trans ?_, drained⟩
      split_ifs
      · simp [same]
      · rfl
  · by_cases same : o = object
    · subst same
      rw [update_self] at is
      cases is
    · rw [update_of_ne same] at is
      split_ifs
      · rw [Lib.mem_insertOnce, not_or]
        exact ⟨same, tracks.unwaited o is rootId⟩
      · exact tracks.unwaited o is rootId

/-- **The gate of an object opens.** -/
theorem tracks_openGate (tracks : Tracks s lives) (object : ObjectId) :
    Tracks { s with objects := update s.objects object { s.objects object with gate := none } }
      (noted lives [.opened object]) := by
  refine tracks_gates tracks (fun o => ?_) (fun o gate is => ?_) (fun o is rootId => ?_)
  · by_cases same : o = object
    · subst same
      rw [update_self]
    · rw [update_of_ne same]
  · by_cases same : o = object
    · subst same
      rw [update_self] at is
      cases is
    · rw [update_of_ne same] at is
      obtain ⟨members, drained⟩ := tracks.waits o gate is
      refine ⟨fun rootId => (members rootId).trans ?_, drained⟩
      simp [same]
  · by_cases same : o = object
    · subst same
      simp
    · rw [update_of_ne same] at is
      exact fun member => tracks.unwaited o is rootId (mem_filter.mp member).1

/-- A code version is installed: leases and gates are as before. -/
theorem tracks_commit (tracks : Tracks s lives) (codeVersion : CodeVersionId)
    (gated : List ObjectId) :
    Tracks { s with objects := fun object =>
      if object ∈ gated then { s.objects object with minCodeVersion := codeVersion }
      else s.objects object } lives := by
  have same : ∀ object, (if object ∈ gated then
      { s.objects object with minCodeVersion := codeVersion } else s.objects object).leases =
        (s.objects object).leases ∧ (if object ∈ gated then
      { s.objects object with minCodeVersion := codeVersion } else s.objects object).gate =
        (s.objects object).gate := by
    intro object
    split_ifs <;> exact ⟨rfl, rfl⟩
  exact tracks_gates tracks (fun object => (same object).1)
    (fun object gate is => tracks.waits object gate ((same object).2.symm.trans is))
    (fun object is => tracks.unwaited object ((same object).2.symm.trans is))

/-- A link opens. -/
theorem tracks_accept (inv : Inv s lives) (link : Link) :
    Tracks { s with connections := s.connections ++ [link] } lives := by
  refine ⟨inv.counts, inv.running, inv.holders, inv.brought, inv.own, inv.objects, inv.leases,
    fun rootId => ?_, inv.told, inv.waits, inv.unwaited⟩
  rw [inv.out]
  refine filter_congr fun other member => ?_
  have isOpen := inv.linked rootId other member
  rw [decide_eq_true isOpen, decide_eq_true (mem_append_left _ isOpen)]

/-! ### Runs -/

variable {event : Event} {after : Host}

/-- **One step.** -/
theorem tracks_step (inv : Inv s lives) (stepped : s.step event = some after)
    (meets : s.Meets event) : Tracks after (noted lives (s.note event)) := by
  have tracks := inv.toTracks
  cases event with
  | root codeVersion =>
    cases stepped
    exact tracks_root inv codeVersion
  | arrive link rootId codeVersion =>
    obtain ⟨_, rfl⟩ := of_guard stepped
    exact tracks_arrive tracks meets
  | settle call =>
    obtain ⟨member, rfl⟩ := of_guard stepped
    exact tracks_settle inv member meets
  | check ctx =>
    obtain ⟨c, _, stepped⟩ := Option.bind_eq_some_iff.mp stepped
    obtain ⟨_, rfl⟩ := of_refusal stepped
    exact tracks.withCtxs _ _
  | refuse ctx =>
    obtain ⟨⟨c, s'⟩, resumed, rfl⟩ := map_eq_some_iff.mp stepped
    obtain ⟨_, rfl⟩ := of_resume resumed
    exact tracks.withCtxs _ _
  | invoke ctx object =>
    obtain ⟨⟨c, s'⟩, resumed, rfl⟩ := map_eq_some_iff.mp stepped
    obtain ⟨found, rfl⟩ := of_resume resumed
    have note : s.note (.invoke ctx object) =
        if s.Admitted c object then [.touched c.rootId object] else [] := by
      unfold Host.note
      simp only [found]
    rw [note]
    exact tracks_invoke (tracks.withCtxs _ _) (meets c found)
  | send ctx link =>
    obtain ⟨isOpen, stepped⟩ := ite_none_right_eq_some.mp stepped
    obtain ⟨⟨c, s'⟩, resumed, rfl⟩ := map_eq_some_iff.mp stepped
    obtain ⟨found, rfl⟩ := of_resume resumed
    have note : s.note (.send ctx link) = [.reached c.rootId link] := by
      unfold Host.note
      simp only [found]
    rw [note, noted_reached ((alive_iff tracks _).mpr (meets c found))]
    exact tracks_rootSent (tracks.withCtxs _ _) c.rootId isOpen
  | leave ctx =>
    obtain ⟨_, rfl⟩ := of_guard stepped
    exact tracks.withCtxs _ _
  | deliver object =>
    obtain ⟨_, rfl⟩ := of_guard stepped
    exact tracks_deliver inv object
  | abort ctx =>
    cases stepped
    exact tracks.withCtxs _ _
  | rootEnd link rootId =>
    obtain ⟨_, rfl⟩ := of_guard stepped
    show Tracks _ (noted lives [.released rootId link])
    rw [noted_released]
    exact tracks_foreignRootEnded tracks (fun rootId => (inv.quiet rootId).waits) meets
  | accept link =>
    obtain ⟨_, rfl⟩ := of_refusal stepped
    exact tracks_accept inv link
  | close link =>
    obtain ⟨_, rfl⟩ := of_guard stepped
    exact tracks_connectionClosed inv meets
  | cut object =>
    obtain ⟨shut, rfl⟩ := of_guard stepped
    exact tracks_cut tracks (Option.isNone_iff_eq_none.mp shut)
  | openGate object =>
    cases stepped
    exact tracks_openGate tracks object
  | commit codeVersion gated =>
    obtain ⟨_, rfl⟩ := of_guard stepped
    exact (tracks_commit tracks codeVersion gated).withIds _ _ _ _
  | retire =>
    obtain ⟨previous, _, rfl⟩ := map_eq_some_iff.mp stepped
    exact tracks.withIds _ _ _ _

/-- A root comes to life only where a note says that a call of it begins. -/
theorem dead_noted {rootId : RootId} (dead : ¬ (lives rootId).Alive)
    {notes : List (Note RootId Link ObjectId)}
    (others : ∀ note ∈ notes, note ≠ .began rootId ∧ ∀ link, note ≠ .arrived rootId link) :
    ¬ (noted lives notes rootId).Alive := by
  induction notes generalizing lives with
  | nil => exact dead
  | cons note rest ih =>
    have one := others note mem_cons_self
    exact @ih (noted lives [note]) (Life.dead_note dead one.1 one.2)
      fun other member => others other (mem_cons_of_mem _ member)

/-- What a step leaves to the steps that number roots and open links. -/
structure Frame (s after : Host) : Prop where
  rootSeq : after.rootSeq = s.rootSeq
  connections : after.connections = s.connections
  rootLinks : ∀ rootId, ∀ link ∈ after.rootLinks rootId, link ∈ s.rootLinks rootId

theorem frame_of_eq (rootSeq : after.rootSeq = s.rootSeq)
    (connections : after.connections = s.connections) (rootLinks : after.rootLinks = s.rootLinks) :
    Frame s after :=
  ⟨rootSeq, connections, fun _ _ member => rootLinks ▸ member⟩

theorem Frame.linked (frame : Frame s after)
    (linked : ∀ rootId, ∀ link ∈ s.rootLinks rootId, link ∈ s.connections) (rootId : RootId)
    (link : Link) (member : link ∈ after.rootLinks rootId) : link ∈ after.connections := by
  rw [frame.connections]
  exact linked rootId link (frame.rootLinks rootId link member)

theorem frame_joinRoot (s : Host) (rootId : RootId) (codeVersion : CodeVersionId)
    (link : Option Link) : Frame s (s.joinRoot rootId codeVersion link).1 := by
  unfold Host.joinRoot
  split_ifs <;> exact frame_of_eq rfl rfl rfl

theorem frame_root (s : Host) (codeVersion : Option CodeVersionId) : Frame { s with
    rootSeq := s.rootSeq + 1
    localRoots := s.localRoots ++ [.started (s.rootSeq + 1)] } (s.root codeVersion).1 :=
  frame_joinRoot _ _ _ _

theorem frame_lease (s : Host) (ctx : CtxImpl) (object : ObjectId) :
    Frame s (s.lease ctx object) := by
  unfold Host.lease
  split_ifs <;> exact frame_of_eq rfl rfl rfl

theorem frame_endRoot (s : Host) (rootId : RootId) : Frame s (s.endRoot rootId) := by
  refine ⟨rfl, rfl, fun other link member => ?_⟩
  change link ∈ update s.rootLinks rootId [] other at member
  by_cases same : other = rootId
  · subst same
    rw [update_self] at member
    cases member
  · rwa [update_of_ne same] at member

theorem frame_settle (s : Host) (call : Call) : Frame s (s.settle call) := by
  unfold Host.settle
  dsimp only
  split_ifs
  · exact frame_of_eq rfl rfl rfl
  · exact frame_of_eq rfl rfl rfl
  · have ended := frame_endRoot { s with
      running := s.running.erase call
      ctxs := s.ctxs.modify call.ctx fun c => { c with closed := true }
      roots := update s.roots call.codeVersion (update (s.roots call.codeVersion) call.rootId (s.roots call.codeVersion call.rootId - 1)) } call.rootId
    exact ⟨ended.rootSeq, ended.connections, ended.rootLinks⟩

theorem frame_foreignRootEnded (s : Host) (rootId : RootId) (link : Link) :
    Frame s (s.foreignRootEnded rootId link) := by
  obtain ⟨_, _, connections, rootSeq⟩ := foreignRootEnded_frame s rootId link
  exact ⟨rootSeq, connections, fun _ _ member => foreignRootEnded_rootLinks s member⟩

theorem frame_foldl (entries : List (RootId × List Link)) (s : Host) :
    Frame s (entries.foldl (fun s e => s.foreignRootEnded e.1 link) s) := by
  induction entries generalizing s with
  | nil => exact frame_of_eq rfl rfl rfl
  | cons e rest ih =>
    have one := frame_foreignRootEnded s e.1 link
    have more := ih (s.foreignRootEnded e.1 link)
    exact ⟨more.rootSeq.trans one.rootSeq, more.connections.trans one.connections,
      fun other target member => one.rootLinks other target (more.rootLinks other target member)⟩

/-- The links of roots stay open ones, and roots are numbered upward. -/
theorem linked_step (inv : Inv s lives) (stepped : s.step event = some after) :
    s.rootSeq ≤ after.rootSeq ∧
      ∀ rootId, ∀ link ∈ after.rootLinks rootId, link ∈ after.connections := by
  have framed : ∀ {after}, Frame s after → s.rootSeq ≤ after.rootSeq ∧
      ∀ rootId, ∀ link ∈ after.rootLinks rootId, link ∈ after.connections :=
    fun frame => ⟨Nat.le_of_eq frame.rootSeq.symm, frame.linked inv.linked⟩
  have up : s.rootSeq ≤ s.rootSeq + 1 := Nat.le_succ _
  cases event with
  | root codeVersion =>
    cases stepped
    have started := frame_root s codeVersion
    exact ⟨started.rootSeq ▸ up, started.linked inv.linked⟩
  | arrive link rootId codeVersion =>
    obtain ⟨_, rfl⟩ := of_guard stepped
    exact framed (frame_joinRoot s rootId codeVersion _)
  | settle call =>
    obtain ⟨_, rfl⟩ := of_guard stepped
    exact framed (frame_settle s call)
  | check ctx =>
    obtain ⟨c, _, stepped⟩ := Option.bind_eq_some_iff.mp stepped
    obtain ⟨_, rfl⟩ := of_refusal stepped
    exact framed (frame_of_eq rfl rfl rfl)
  | refuse ctx =>
    obtain ⟨⟨c, s'⟩, resumed, rfl⟩ := map_eq_some_iff.mp stepped
    obtain ⟨_, rfl⟩ := of_resume resumed
    exact framed (frame_of_eq rfl rfl rfl)
  | invoke ctx object =>
    obtain ⟨⟨c, s'⟩, resumed, rfl⟩ := map_eq_some_iff.mp stepped
    obtain ⟨_, rfl⟩ := of_resume resumed
    have leased := frame_lease { s with checked := s.checked.erase ctx } c object
    dsimp only [Host.invoke]
    split_ifs
    · exact framed ⟨leased.rootSeq, leased.connections, leased.rootLinks⟩
    · exact framed (frame_of_eq rfl rfl rfl)
  | send ctx link =>
    obtain ⟨isOpen, stepped⟩ := ite_none_right_eq_some.mp stepped
    obtain ⟨⟨c, s'⟩, resumed, rfl⟩ := map_eq_some_iff.mp stepped
    obtain ⟨_, rfl⟩ := of_resume resumed
    refine ⟨le_refl s.rootSeq, fun rootId target member => ?_⟩
    change target ∈ update s.rootLinks c.rootId _ rootId at member
    show target ∈ s.connections
    by_cases same : rootId = c.rootId
    · rw [same, update_self] at member
      rcases Lib.mem_insertOnce.mp member with rfl | before
      · exact isOpen
      · exact inv.linked _ target before
    · rw [update_of_ne same] at member
      exact inv.linked _ target member
  | leave ctx | cut object | commit codeVersion gated =>
    obtain ⟨_, rfl⟩ := of_guard stepped
    exact framed (frame_of_eq rfl rfl rfl)
  | deliver object =>
    obtain ⟨_, rfl⟩ := of_guard stepped
    have started := frame_root s none
    have leased := frame_lease (s.root none).1
      ⟨.started (s.rootSeq + 1), s.current, false, false⟩ object
    rw [deliver_eq]
    split_ifs
    · exact ⟨(leased.rootSeq.trans started.rootSeq).symm ▸ up,
        leased.linked (started.linked inv.linked)⟩
    · exact ⟨started.rootSeq ▸ up, started.linked inv.linked⟩
  | abort ctx | openGate object =>
    cases stepped
    exact framed (frame_of_eq rfl rfl rfl)
  | rootEnd link rootId =>
    obtain ⟨_, rfl⟩ := of_guard stepped
    exact framed (frame_foreignRootEnded s rootId link)
  | accept link =>
    obtain ⟨_, rfl⟩ := of_refusal stepped
    exact ⟨le_refl s.rootSeq,
      fun rootId target member => mem_append_left _ (inv.linked rootId target member)⟩
  | close link =>
    obtain ⟨_, rfl⟩ := of_guard stepped
    have ended := frame_foldl link (s.foreign.filter fun e => link ∈ e.2)
      { s with connections := s.connections.filter (· ≠ link) }
    refine ⟨Nat.le_of_eq ended.rootSeq.symm, fun rootId target member => ?_⟩
    obtain ⟨before, other⟩ := mem_filter.mp member
    show target ∈ _
    rw [show (Host.connectionClosed s link).connections = _ from ended.connections]
    exact mem_filter.mpr ⟨inv.linked rootId target (ended.rootLinks rootId target before), other⟩
  | retire =>
    obtain ⟨previous, _, rfl⟩ := map_eq_some_iff.mp stepped
    exact framed (frame_of_eq rfl rfl rfl)

/-- The notes of a step begin no root that is still to start after it. -/
theorem note_begins (inv : Inv s lives) (stepped : s.step event = some after) {seq : Nat}
    (later : after.rootSeq < seq) :
    ∀ note ∈ s.note event, note ≠ .began (.started seq) ∧
      ∀ link, note ≠ .arrived (.started seq) link := by
  have up := (linked_step inv stepped).1
  intro note member
  cases event with
  | root codeVersion =>
    cases stepped
    have number := (frame_root s codeVersion).rootSeq
    dsimp only [Host.note] at member
    split_ifs at member
    · cases mem_singleton.mp member
      refine ⟨fun is => ?_, (fun _ is => by cases is)⟩
      cases is
      exact absurd number (Nat.ne_of_lt later)
    · cases member
  | arrive link rootId codeVersion =>
    obtain ⟨⟨_, named⟩, _⟩ := ite_none_right_eq_some.mp stepped
    dsimp only [Host.note] at member
    split_ifs at member
    · cases mem_singleton.mp member
      refine ⟨(fun is => by cases is), fun _ is => ?_⟩
      cases is
      exact absurd (Nat.lt_of_le_of_lt up later) (Nat.not_lt.mpr named)
    · cases member
  | deliver object =>
    obtain ⟨_, rfl⟩ := of_guard stepped
    have number (retained : s.current ∈ s.codeVersions) :
        (s.deliver object).rootSeq = s.rootSeq + 1 := by
      rw [deliver_eq, if_pos retained]
      exact (frame_lease (s.root none).1 _ object).rootSeq.trans (frame_root s none).rootSeq
    dsimp only [Host.note] at member
    split_ifs at member with retained
    · rcases List.mem_pair.mp member with rfl | rfl
      · refine ⟨fun is => ?_, (fun _ is => by cases is)⟩
        cases is
        exact absurd (number retained) (Nat.ne_of_lt later)
      · exact ⟨(fun is => by cases is), (fun _ is => by cases is)⟩
    · cases member
  | invoke ctx object =>
    dsimp only [Host.note] at member
    split at member
    · split_ifs at member
      · cases mem_singleton.mp member
        exact ⟨(fun is => by cases is), (fun _ is => by cases is)⟩
      · cases member
    · cases member
  | send ctx link =>
    dsimp only [Host.note] at member
    split at member
    · cases mem_singleton.mp member
      exact ⟨(fun is => by cases is), (fun _ is => by cases is)⟩
    · cases member
  | settle call | rootEnd link rootId | close link | cut object | openGate object =>
    cases mem_singleton.mp member
    exact ⟨(fun is => by cases is), (fun _ is => by cases is)⟩
  | check _ | refuse _ | leave _ | abort _ | accept _ | commit _ _ | retire => cases member

/-- **One step keeps the invariant.** -/
theorem inv_step (inv : Inv s lives) (stepped : s.step event = some after) (meets : s.Meets event) :
    Inv after (noted lives (s.note event)) := by
  obtain ⟨up, linked⟩ := linked_step inv stepped
  refine ⟨tracks_step inv stepped meets, fun rootId => ?_, fun seq later => ?_, linked⟩
  · unfold noted
    generalize s.note event = notes
    have before := inv.quiet rootId
    generalize lives rootId = l at before ⊢
    induction notes generalizing l with
    | nil => exact before
    | cons note rest ih => exact ih _ (Life.quiet_note rootId before note)
  · exact dead_noted (inv.fresh seq (Nat.lt_of_le_of_lt up later)) (note_begins inv stepped later)

/-- **A run keeps the invariant.** -/
theorem inv_run (inv : Inv s lives) {events : List Event} (ran : s.run events = some after)
    (meets : s.RunMeets events) : Inv after (noted lives (s.notes events)) := by
  induction events generalizing s lives with
  | nil =>
    cases ran
    exact inv
  | cons event rest ih =>
    obtain ⟨next, stepped, ran⟩ := Option.bind_eq_some_iff.mp ran
    obtain ⟨here, later⟩ := meets
    have more := ih (inv_step inv stepped here) ran (later next stepped)
    have notes : s.notes (event :: rest) = s.note event ++ next.notes rest := by
      rw [Host.notes, stepped]
    rw [notes]
    convert more using 1
    funext rootId
    exact foldl_append

theorem inv_new : Inv Host.new fun _ => Life.unborn where
  counts _ _ := rfl
  running _ := rfl
  holders _ := rfl
  brought _ is := by cases is
  own _ := iff_of_false (fun is => by cases is) not_mem_nil
  objects _ := rfl
  leases _ _ := iff_of_false (fun is => by cases is) not_mem_nil
  out _ := rfl
  told _ _ := rfl
  waits _ _ is := by cases is
  unwaited _ _ _ := not_mem_nil
  quiet _ := Life.quiet_unborn
  fresh _ _ alive := by
    rcases alive with runs | holds
    · exact absurd runs (Nat.lt_irrefl 0)
    · exact holds rfl
  linked _ _ member := by cases member

/-- **In every run whose steps meet the condition, leases follow roots.** -/
theorem leases_follow (events : List Event) (s : Host) (ran : Host.new.run events = some s)
    (meets : Host.new.RunMeets events) : Follows s (life (Host.new.notes events)) :=
  (inv_run inv_new ran meets).follows

/-- A root calls an object and settles once the call has. -/
def awaited : List Event :=
  [.root none, .check 0, .invoke 0 1, .leave 1, .settle ⟨0, .started 1, 1⟩]

/-- An awaited call leaves no lease. -/
theorem leases_follow_awaited : ∃ s, Host.new.run awaited = some s ∧
    Follows s (life (Host.new.notes awaited)) := by
  refine ⟨_, rfl, leases_follow awaited _ rfl ?_⟩
  refine ⟨trivial, fun _ is => ?_⟩
  cases is
  refine ⟨trivial, fun _ is => ?_⟩
  cases is
  refine ⟨fun c found _ => ?_, fun _ is => ?_⟩
  · cases found
    exact .inl ⟨⟨0, .started 1, 1⟩, mem_singleton_self _, rfl⟩
  · cases is
    refine ⟨trivial, fun _ is => ?_⟩
    cases is
    exact ⟨.inr (fun other member => by cases member), fun _ _ => trivial⟩

/-- A root calls an object and settles at once; the call goes on to call another object. -/
def unawaited : List Event :=
  [.root none, .check 0, .invoke 0 1, .settle ⟨0, .started 1, 1⟩, .check 1, .invoke 1 2, .leave 2,
    .leave 1]

/-- **A call that nobody waits for leaves a lease that no root holds**, with no call left and no
link that could end it. -/
theorem leases_stay : ∃ s, Host.new.run unawaited = some s ∧ s.running = [] ∧ s.foreign = [] ∧
    Assoc.has (.started 1) (s.objects 2).leases = true ∧
    ¬ Follows s (life (Host.new.notes unawaited)) := by
  refine ⟨_, rfl, rfl, rfl, rfl, fun follows => ?_⟩
  have held := (follows.leases 2 (.started 1)).mp rfl
  have gone : (life (Host.new.notes unawaited) (.started 1)).objects = [] := by rfl
  rw [gone] at held
  cases held

end TianGong.Roots

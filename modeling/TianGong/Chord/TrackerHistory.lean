/-
**Tracker revisions form one linear history.**

`Inv` is the invariant: a context that was created at its tracker's current revision has the current
value as its base. `Quiet` is what a call does that is not a successful adoption: values and revisions
stay, contexts only move forward in their status, preparations stay.

* `adopt_ok_iff`: an adoption succeeds exactly when the preparation is still prepared, of this
  tracker and of its current revision.
* `linear_history`: over whole histories.
-/

import TianGong.Chord.Tracker

namespace TianGong.Chord

open TianGong.Lib

variable {V O E : Type}

/-! ### Forward moves -/

/-- No call leaves this status. -/
def Status.Final : Status → Prop
  | .consumed | .aborted | .stale => True
  | .open | .prepared => False

/-- Where a status can go. -/
def Status.Leads (a b : Status) : Prop := b = a ∨ a = .open ∨ a = .prepared ∧ b.Final

theorem Status.Leads.trans {a b c : Status} (first : a.Leads b) (second : b.Leads c) : a.Leads c := by
  cases a <;> cases b <;> cases c <;> simp_all [Status.Leads, Status.Final]

theorem Status.Leads.final {a b : Status} (leads : a.Leads b) (final : a.Final) : b = a := by
  rcases leads with same | rfl | ⟨rfl, _⟩
  · exact same
  · exact final.elim
  · exact final.elim

/-- What any call keeps of a context. -/
structure Succeeds (context later : OverlayContext V O) : Prop where
  owner : later.owner = context.owner
  baseRevision : later.baseRevision = context.baseRevision
  status : context.status.Leads later.status
  live : ∀ live, later.live = some live →
    ∃ old, context.live = some old ∧ live.baseValue = old.baseValue

theorem Succeeds.refl (context : OverlayContext V O) : Succeeds context context :=
  ⟨rfl, rfl, .inl rfl, fun live found => ⟨live, found, rfl⟩⟩

theorem Succeeds.trans {a b c : OverlayContext V O} (first : Succeeds a b) (second : Succeeds b c) :
    Succeeds a c where
  owner := second.owner.trans first.owner
  baseRevision := second.baseRevision.trans first.baseRevision
  status := first.status.trans second.status
  live live found := by
    obtain ⟨middle, there, same⟩ := second.live live found
    obtain ⟨old, here, same'⟩ := first.live middle there
    exact ⟨old, here, same.trans same'⟩

/-! ### The invariant -/

/-- The values and revisions. -/
def Trackers.heads (s : Trackers V O) : List (V × Nat) :=
  s.trackers.map fun tracker => (tracker.value, tracker.revision)

/-- **A context of the current revision has the current value as its base**, and so does a
preparation. -/
structure Inv (s : Trackers V O) : Prop where
  contexts : ∀ (c : Nat) context, s.contexts[c]? = some context →
    ∃ value revision, s.heads[context.owner]? = some (value, revision) ∧
      context.baseRevision ≤ revision ∧ (context.baseRevision = revision →
        ∀ live, context.live = some live → live.baseValue = value)
  preparations : ∀ (p : Nat) prepared, s.preparations[p]? = some prepared →
    ∃ context value revision, s.contexts[prepared.context]? = some context ∧
      s.heads[context.owner]? = some (value, revision) ∧
      (context.baseRevision = revision → prepared.base = value)

/-- What every call does: contexts move forward, preparations stay. -/
structure Forward (s s' : Trackers V O) : Prop where
  contexts : ∀ (c : Nat) context, s.contexts[c]? = some context →
    ∃ later, s'.contexts[c]? = some later ∧ Succeeds context later
  preparations : ∀ (p : Nat) prepared, s.preparations[p]? = some prepared →
    s'.preparations[p]? = some prepared

/-- **What a call does that adopts nothing.** -/
structure Quiet (s s' : Trackers V O) : Prop extends Forward s s' where
  heads : s'.heads = s.heads
  inv : Inv s → Inv s'

namespace Quiet

variable {s s' s'' : Trackers V O}

theorem refl (s : Trackers V O) : Quiet s s where
  contexts _ context found := ⟨context, found, .refl context⟩
  preparations _ _ found := found
  heads := rfl
  inv := id

theorem trans (first : Quiet s s') (second : Quiet s' s'') : Quiet s s'' where
  contexts c context found := by
    obtain ⟨middle, there, one⟩ := first.contexts c context found
    obtain ⟨last, here, two⟩ := second.contexts c middle there
    exact ⟨last, here, one.trans two⟩
  preparations p prepared found := second.preparations p prepared (first.preparations p prepared found)
  heads := second.heads.trans first.heads
  inv start := second.inv (first.inv start)

/-- Nothing but changes and registries differs. -/
theorem of_same (heads : s'.heads = s.heads) (contexts : s'.contexts = s.contexts)
    (preparations : s'.preparations = s.preparations) : Quiet s s' where
  contexts c context found := ⟨context, by rw [contexts, found], .refl context⟩
  preparations p prepared found := by rw [preparations, found]
  heads := heads
  inv start := by
    refine ⟨fun c context found => ?_, fun p prepared found => ?_⟩
    · rw [heads]
      exact start.contexts c context (contexts ▸ found)
    · rw [heads, contexts]
      exact start.preparations p prepared (preparations ▸ found)

theorem modifyContext {c : Nat} {f : OverlayContext V O → OverlayContext V O}
    (succeeds : ∀ context, s.contexts[c]? = some context → Succeeds context (f context)) :
    Quiet s (s.modifyContext c f) := by
  have forward : ∀ (d : Nat) context, s.contexts[d]? = some context →
      ∃ later, (s.modifyContext c f).contexts[d]? = some later ∧ Succeeds context later := by
    intro d context found
    by_cases same : c = d
    · subst same
      exact ⟨f context, by simp [Trackers.modifyContext, found], succeeds context found⟩
    · exact ⟨context, by simp [Trackers.modifyContext, same, found], .refl context⟩
  have backward : ∀ (d : Nat) later, (s.modifyContext c f).contexts[d]? = some later →
      ∃ context, s.contexts[d]? = some context ∧ Succeeds context later := by
    intro d later found
    cases old : s.contexts[d]? with
    | none => simp [Trackers.modifyContext, List.getElem?_modify, old] at found
    | some context =>
      obtain ⟨later', found', kept⟩ := forward d context old
      rw [found] at found'
      cases found'
      exact ⟨context, rfl, kept⟩
  refine ⟨⟨forward, fun p prepared found => found⟩, rfl, fun start => ⟨fun d later found => ?_,
    fun p prepared found => ?_⟩⟩
  · obtain ⟨context, old, kept⟩ := backward d later found
    obtain ⟨value, revision, head, bound, based⟩ := start.contexts d context old
    refine ⟨value, revision, by rw [kept.owner]; exact head, by rw [kept.baseRevision]; exact bound,
      fun current live holds => ?_⟩
    obtain ⟨live', holds', same⟩ := kept.live live holds
    rw [same]
    exact based (kept.baseRevision ▸ current) live' holds'
  · obtain ⟨context, value, revision, old, head, based⟩ := start.preparations p prepared found
    obtain ⟨later, there, kept⟩ := forward _ context old
    exact ⟨later, value, revision, there, by rw [kept.owner]; exact head,
      fun current => based (kept.baseRevision ▸ current)⟩

theorem setStatus {c : Nat} {status : Status}
    (leads : ∀ context, s.contexts[c]? = some context → context.status.Leads status) :
    Quiet s (s.setStatus c status) :=
  modifyContext fun context found => ⟨rfl, rfl, leads context found, fun live holds =>
    ⟨live, holds, rfl⟩⟩

end Quiet

/-! ### The blocks -/

theorem heads_modify (trackers : List (TrackerImpl V)) (t : Nat)
    {f : TrackerImpl V → TrackerImpl V}
    (same : ∀ tracker, (f tracker).value = tracker.value ∧ (f tracker).revision = tracker.revision) :
    (trackers.modify t f).map (fun tracker => (tracker.value, tracker.revision)) =
      trackers.map fun tracker => (tracker.value, tracker.revision) := by
  apply List.ext_getElem?
  intro i
  rw [List.getElem?_map, List.getElem?_map, List.getElem?_modify]
  cases trackers[i]? with
  | none => rfl
  | some tracker =>
    by_cases here : t = i
    · simp [here, same]
    · simp [here]

variable {t : Nat} {context : OverlayContext V O} {tracker : TrackerImpl V}

namespace Quiet

variable {s : Trackers V O}

theorem releaseContext (s : Trackers V O) (c : Nat) : Quiet s (s.releaseContext c) := by
  unfold Trackers.releaseContext
  split
  · exact refl s
  · exact of_same (heads_modify _ _ fun _ => ⟨rfl, rfl⟩) rfl rfl

theorem clearContext (s : Trackers V O) (c : Nat) : Quiet s (s.clearContext c) :=
  (releaseContext s c).trans (modifyContext fun _ _ => ⟨rfl, rfl, .inl rfl, fun _ holds =>
    (by cases holds)⟩)

theorem releaseOverlayReferences (s : Trackers V O) (c : Nat) :
    Quiet s (s.releaseOverlayReferences c) :=
  (releaseContext s c).trans (modifyContext fun _ _ => ⟨rfl, rfl, .inl rfl, fun _ holds =>
    (by cases holds)⟩)

theorem abortContext (s : Trackers V O) (c : Nat) : Quiet s (s.abortContext c) := by
  unfold Trackers.abortContext
  split
  · exact refl s
  · rename_i context found
    split_ifs with final
    · exact refl s
    · refine (setStatus fun other there => ?_).trans (clearContext _ c)
      rw [found] at there
      cases there
      cases status : context.status <;> simp_all [Status.Leads, Status.Final]

theorem setChange (s : Trackers V O) (i : Nat) (change : ChangeImpl) :
    Quiet s (s.setChange i change) := of_same rfl rfl rfl

/-- A new context at the current revision, with the current value as its base. -/
theorem createContext {drafts : Drafts V O E} (found : s.trackers[t]? = some tracker) (root : V)
    (replacement : Bool) :
    Quiet s (s.createContext drafts t tracker.revision root replacement tracker.value) := by
  have heads : (s.createContext drafts t tracker.revision root replacement tracker.value).heads =
      s.heads := heads_modify _ _ fun _ => ⟨rfl, rfl⟩
  have forward : ∀ (c : Nat) context, s.contexts[c]? = some context →
      (s.createContext drafts t tracker.revision root replacement tracker.value).contexts[c]? =
        some context := fun c context old => by
    rw [Trackers.createContext, List.getElem?_append_left (List.getElem?_eq_some_iff.mp old).1]
    exact old
  refine ⟨⟨fun c context old => ⟨context, forward c context old, .refl context⟩,
    fun p prepared old => old⟩, heads, fun start => ⟨fun c context there => ?_,
    fun p prepared old => ?_⟩⟩
  · rw [heads]
    by_cases old : c < s.contexts.length
    · rw [Trackers.createContext, List.getElem?_append_left old] at there
      exact start.contexts c context there
    · rw [Trackers.createContext, List.getElem?_append_right (Nat.le_of_not_lt old)] at there
      have new := List.mem_singleton.mp (List.mem_of_getElem? there)
      subst new
      refine ⟨tracker.value, tracker.revision, ?_, Nat.le_refl _, fun _ live holds => ?_⟩
      · rw [Trackers.heads, List.getElem?_map, found]
        rfl
      · cases holds
        rfl
  · rw [heads]
    obtain ⟨context, value, revision, there, rest⟩ := start.preparations p prepared old
    exact ⟨context, value, revision, forward _ context there, rest⟩

/-- A new preparation takes the base of its context. -/
theorem addPrepared {c : Nat} {live : Live V O} (found : s.contexts[c]? = some context)
    (holds : context.live.map Live.baseValue = some live.baseValue) (parts : List (Op V) × V) :
    Quiet s (s.addPrepared c live parts) := by
  refine Quiet.trans ?_ (clearContext _ c)
  have forward : ∀ (p : Nat) prepared, s.preparations[p]? = some prepared →
      (s.preparations ++ [⟨c, parts.2, live.baseValue, parts.1⟩])[p]? = some prepared :=
    fun p prepared old => by
      rw [List.getElem?_append_left (List.getElem?_eq_some_iff.mp old).1]
      exact old
  refine ⟨⟨fun d other there => ⟨other, there, .refl other⟩, forward⟩, rfl, fun start =>
    ⟨start.contexts, fun p prepared there => ?_⟩⟩
  by_cases old : p < s.preparations.length
  · rw [List.getElem?_append_left old] at there
    exact start.preparations p prepared there
  · rw [List.getElem?_append_right (Nat.le_of_not_lt old)] at there
    have new := List.mem_singleton.mp (List.mem_of_getElem? there)
    subst new
    obtain ⟨value, revision, head, _, based⟩ := start.contexts c context found
    obtain ⟨old, inside, same⟩ := Option.map_eq_some_iff.mp holds
    exact ⟨context, value, revision, found, head, fun current => same ▸ based current old inside⟩

end Quiet

/-! ### The calls -/

theorem assertWritable_ok {live : Live V O} (writable : assertWritable context = .ok live) :
    context.live = some live ∧ context.status = .open := by
  unfold assertWritable assertReadable at writable
  by_cases settled : isSettledContext context = true
  · simp [settled, bind, Except.bind] at writable
  · cases here : context.live with
    | none => simp [settled, here, bind, Except.bind] at writable
    | some found =>
      by_cases opened : context.status = .open
      · simp only [settled, here, opened, bind, Except.bind] at writable
        cases writable
        exact ⟨rfl, opened⟩
      · simp [settled, here, opened, bind, Except.bind, throw, throwThe,
          MonadExceptOf.throw] at writable

namespace Quiet

variable {s : Trackers V O} (drafts : Drafts V O E)

theorem beginChange (s : Trackers V O) (t : Nat) : Quiet s (s.beginChange drafts t).2 := by
  unfold Trackers.beginChange
  split
  · exact refl s
  · rename_i tracker found
    exact (createContext found _ _).trans (of_same rfl rfl rfl)

theorem edit (s : Trackers V O) (c : Nat) (e : E) : Quiet s (s.edit drafts c e).2 := by
  unfold Trackers.edit
  split
  · exact refl s
  · rename_i context found
    split
    · exact refl s
    · rename_i live writable
      obtain ⟨holds, _⟩ := assertWritable_ok writable
      have edited : Quiet s (s.modifyContext c fun context => { context with
          live := some { live with overlay := (drafts.edit e live.overlay).2 } }) :=
        modifyContext fun other there => by
          rw [found] at there
          cases there
          exact ⟨rfl, rfl, .inl rfl, fun live' new => ⟨live, holds, by cases new; rfl⟩⟩
      dsimp only
      split <;> exact edited

theorem prepare (s : Trackers V O) (i : Nat) : Quiet s (s.prepare drafts i).2 := by
  unfold Trackers.prepare
  split
  · exact refl s
  · rename_i change _
    split_ifs with settled
    · exact refl s
    · split
      · exact refl s
      · rename_i c _
        split
        · exact refl s
        · rename_i context found
          split
          · exact refl s
          · rename_i live writable
            obtain ⟨holds, opened⟩ := assertWritable_ok writable
            have marked : Quiet s (s.setStatus c .prepared) := setStatus fun other there => by
              rw [found] at there
              cases there
              exact .inr (.inl opened)
            have there : (s.setStatus c .prepared).contexts[c]? =
                some { context with status := .prepared } := by
              simp [Trackers.setStatus, Trackers.modifyContext, found]
            dsimp only
            split
            · refine marked.trans (((setStatus fun other found' => ?_).trans
                (clearContext _ c)).trans (setChange _ i _))
              rw [there] at found'
              cases found'
              exact .inr (.inr ⟨rfl, trivial⟩)
            · exact (marked.trans (addPrepared there (by rw [holds]; rfl) _)).trans (setChange _ i _)

theorem prepareReplace (s : Trackers V O) (t : Nat) (value : V) :
    Quiet s (s.prepareReplace drafts t value).2 := by
  unfold Trackers.prepareReplace
  split
  · exact refl s
  · rename_i tracker found
    have created : Quiet s (s.createContext drafts t tracker.revision value true tracker.value) :=
      createContext found value true
    have new : (s.createContext drafts t tracker.revision value true tracker.value).contexts[
        s.contexts.length]? = some ⟨t, tracker.revision, .open, true,
          some ⟨drafts.createNode value, value, tracker.value⟩⟩ := by
      rw [Trackers.createContext, List.getElem?_append_right (Nat.le_refl _), Nat.sub_self]
      rfl
    have marked := created.trans (@setStatus _ _ _ s.contexts.length .prepared fun other there => by
        rw [new] at there
        cases there
        exact .inr (.inl rfl))
    have there : ((s.createContext drafts t tracker.revision value true tracker.value).setStatus
        s.contexts.length .prepared).contexts[s.contexts.length]? =
          some ⟨t, tracker.revision, .prepared, true,
            some ⟨drafts.createNode value, value, tracker.value⟩⟩ := by
      rw [Trackers.setStatus, Trackers.modifyContext, List.getElem?_modify_eq, new]
      rfl
    dsimp only
    split
    · refine marked.trans ((setStatus fun other found' => ?_).trans (clearContext _ _))
      rw [there] at found'
      cases found'
      exact .inr (.inr ⟨rfl, trivial⟩)
    · exact marked.trans (addPrepared there rfl _)

theorem abortChange (s : Trackers V O) (i : Nat) : Quiet s (s.abortChange i).2 := by
  unfold Trackers.abortChange
  split
  · exact refl s
  · split_ifs with settled
    · refine Quiet.trans ?_ (setChange _ i _)
      split
      · split
        · split_ifs with prepared
          · rename_i context found
            refine setStatus fun other there => ?_
            rw [found] at there
            cases there
            exact .inr (.inr ⟨prepared, trivial⟩)
          · exact refl s
        · exact refl s
      · exact refl s
    · refine Quiet.trans ?_ (setChange _ i _)
      split
      · exact abortContext s _
      · exact refl s

theorem abortPrepared (s : Trackers V O) (p : Nat) : Quiet s (s.abortPrepared p).2 := by
  unfold Trackers.abortPrepared
  split
  · exact refl s
  · exact abortContext s _

theorem invalidateOne (s : Trackers V O) (winner c : Nat) : Quiet s (s.invalidateOne winner c) := by
  unfold Trackers.invalidateOne
  split_ifs
  · exact refl s
  · refine Quiet.trans ?_ (releaseOverlayReferences _ c)
    split
    · split_ifs with waiting
      · rename_i context found
        refine setStatus fun other there => ?_
        rw [found] at there
        cases there
        rcases waiting with opened | prepared
        · exact .inr (.inl opened)
        · exact .inr (.inr ⟨prepared, trivial⟩)
      · exact refl s
    · exact refl s

theorem invalidate (s : Trackers V O) (t winner : Nat) : Quiet s (s.invalidate t winner) := by
  have loop : ∀ (registered : List Nat) (s : Trackers V O),
      Quiet s (registered.foldl (fun s c => s.invalidateOne winner c) s) := by
    intro registered
    induction registered with
    | nil => exact refl
    | cons c rest ih => exact fun s => (invalidateOne s winner c).trans (ih _)
  exact (loop _ s).trans (of_same (heads_modify _ _ fun _ => ⟨rfl, rfl⟩) rfl rfl)

end Quiet

/-! ### Adoption -/

/-- The preparation is prepared, of this tracker and of its current revision. -/
def Adoptable (s : Trackers V O) (t p : Nat) : Prop :=
  ∃ tracker prepared context, s.trackers[t]? = some tracker ∧ s.preparations[p]? = some prepared ∧
    s.contexts[prepared.context]? = some context ∧ context.status = .prepared ∧ context.owner = t ∧
      context.baseRevision = tracker.revision

/-- What a successful adoption does: the tracker moves on to the preparation's value, which is
consumed. -/
structure Adopted (s : Trackers V O) (t p : Nat) (s' : Trackers V O) : Prop extends
    Forward s s' where
  adoptable : Adoptable s t p
  inv : Inv s → Inv s'
  heads : ∀ (u : Nat) tracker, s.trackers[u]? = some tracker → ∃ prepared,
    s.preparations[p]? = some prepared ∧ s'.heads[u]? = some (if u = t then
      (prepared.value, tracker.revision + 1) else (tracker.value, tracker.revision))
  consumed : ∀ prepared, s.preparations[p]? = some prepared → ∀ context,
    s'.contexts[prepared.context]? = some context → context.status = .consumed

variable {s : Trackers V O} {p : Nat}

theorem heads_eq_some {value : V} {revision : Nat} :
    s.heads[t]? = some (value, revision) ↔
      ∃ tracker, s.trackers[t]? = some tracker ∧ tracker.value = value ∧
        tracker.revision = revision := by
  rw [Trackers.heads, List.getElem?_map, Option.map_eq_some_iff]
  simp only [Prod.mk.injEq]

/-- The tracker moves on. -/
theorem Inv.advance (start : Inv s) (found : s.trackers[t]? = some tracker) (value : V) :
    Inv { s with trackers := s.trackers.modify t fun tracker' =>
      { tracker' with value := value, revision := tracker'.revision + 1 } } := by
  have heads : ∀ {u : Nat} {old : V} {revision : Nat}, s.heads[u]? = some (old, revision) →
      ∃ new revision', (Trackers.heads { s with trackers := s.trackers.modify t fun tracker' =>
        { tracker' with value := value, revision := tracker'.revision + 1 } })[u]? =
          some (new, revision') ∧ (revision' = revision ∧ new = old ∨ revision < revision') := by
    intro u old revision head
    obtain ⟨tracker', there, rfl, rfl⟩ := heads_eq_some.mp head
    by_cases same : t = u
    · subst same
      rw [found] at there
      cases there
      exact ⟨value, tracker.revision + 1, by simp [Trackers.heads, found],
        .inr (Nat.lt_succ_self _)⟩
    · exact ⟨tracker'.value, tracker'.revision, by simp [Trackers.heads, same, there],
        .inl ⟨rfl, rfl⟩⟩
  refine ⟨fun c context there => ?_, fun p prepared there => ?_⟩
  · obtain ⟨old, revision, head, bound, based⟩ := start.contexts c context there
    obtain ⟨new, revision', head', moved⟩ := heads head
    refine ⟨new, revision', head', by omega, fun current live holds => ?_⟩
    rcases moved with ⟨rfl, rfl⟩ | later
    · exact based current live holds
    · omega
  · obtain ⟨context, old, revision, inside, head, based⟩ := start.preparations p prepared there
    obtain ⟨old', revision₀, head₀, bound, _⟩ := start.contexts _ context inside
    rw [head] at head₀
    cases head₀
    obtain ⟨new, revision', head', moved⟩ := heads head
    refine ⟨context, new, revision', inside, head', fun current => ?_⟩
    rcases moved with ⟨rfl, rfl⟩ | later
    · exact based current
    · omega

theorem adopted {prepared : PreparedImpl V} (foundT : s.trackers[t]? = some tracker)
    (foundP : s.preparations[p]? = some prepared)
    (foundC : s.contexts[prepared.context]? = some context) (status : context.status = .prepared)
    (mine : context.owner = t) (current : context.baseRevision = tracker.revision) :
    Adopted s t p ((Trackers.setStatus { s with trackers := s.trackers.modify t fun tracker' =>
      { tracker' with value := prepared.value, revision := tracker'.revision + 1 } }
        prepared.context .consumed).invalidate t prepared.context) := by
  have mark : Quiet { s with trackers := s.trackers.modify t fun tracker' =>
      { tracker' with value := prepared.value, revision := tracker'.revision + 1 } }
      (Trackers.setStatus { s with trackers := s.trackers.modify t fun tracker' =>
        { tracker' with value := prepared.value, revision := tracker'.revision + 1 } }
          prepared.context .consumed) := .setStatus fun other there => by
    rw [foundC] at there
    cases there
    exact .inr (.inr ⟨status, trivial⟩)
  have rest := Quiet.invalidate (Trackers.setStatus { s with
    trackers := s.trackers.modify t fun tracker' =>
      { tracker' with value := prepared.value, revision := tracker'.revision + 1 } }
        prepared.context .consumed) t prepared.context
  have both := mark.trans rest
  refine ⟨⟨both.contexts, both.preparations⟩,
    ⟨tracker, prepared, context, foundT, foundP, foundC, status, mine, current⟩,
    fun start => both.inv (start.advance foundT prepared.value), fun u other there =>
      ⟨prepared, foundP, ?_⟩, fun prepared' foundP' context' there => ?_⟩
  · rw [both.heads]
    by_cases same : t = u
    · subst same
      rw [foundT] at there
      cases there
      simp [Trackers.heads, foundT]
    · simp [Trackers.heads, same, Ne.symm same, there]
  · rw [foundP] at foundP'
    cases foundP'
    obtain ⟨later, here, kept⟩ := rest.contexts prepared.context { context with status := .consumed }
      (by simp [Trackers.setStatus, Trackers.modifyContext, foundC])
    rw [there] at here
    cases here
    exact kept.status.final trivial

/-- **An adoption fails quietly, or it succeeds.** -/
theorem adopt_cases [DecidableEq V] (s : Trackers V O) (t p : Nat) :
    ((∃ error, (s.adopt t p).1 = .error error) ∧ Quiet s (s.adopt t p).2 ∧
        (Inv s → ¬ Adoptable s t p)) ∨
      ((s.adopt t p).1 = .ok .nothing ∧ Adopted s t p (s.adopt t p).2) := by
  unfold Trackers.adopt
  cases foundT : s.trackers[t]? with
  | none => exact .inl ⟨⟨_, rfl⟩, .refl s, fun _ ⟨_, _, _, there, _⟩ => by simp [foundT] at there⟩
  | some tracker =>
    cases foundP : s.preparations[p]? with
    | none =>
      exact .inl ⟨⟨_, rfl⟩, .refl s, fun _ ⟨_, _, _, _, there, _⟩ => by simp [foundP] at there⟩
    | some prepared =>
      cases foundC : s.contexts[prepared.context]? with
      | none =>
        exact .inl ⟨by simp [foundC], by simpa [foundC] using Quiet.refl s,
          fun _ ⟨_, _, _, _, there, inside, _⟩ => by
            rw [foundP] at there
            cases there
            rw [foundC] at inside
            cases inside⟩
      | some context =>
        have only : Adoptable s t p → context.status = .prepared ∧ context.owner = t ∧
            context.baseRevision = tracker.revision := by
          rintro ⟨tracker', prepared', context', there, here, inside, rest⟩
          rw [foundT] at there
          cases there
          rw [foundP] at here
          cases here
          rw [foundC] at inside
          cases inside
          exact rest
        simp only [foundC]
        by_cases mine : context.owner = t
        · rw [if_neg (not_not.mpr mine)]
          cases status : context.status with
          | «open» | consumed | aborted | stale =>
            refine .inl ⟨⟨_, rfl⟩, .refl s, fun _ adoptable => ?_⟩
            rw [status] at only
            cases (only adoptable).1
          | prepared =>
            dsimp only
            have stale : Quiet s (s.setStatus prepared.context .stale) :=
              .setStatus fun other there => by
                rw [foundC] at there
                cases there
                exact .inr (.inr ⟨status, trivial⟩)
            by_cases current : context.baseRevision = tracker.revision
            · rw [if_neg (not_not.mpr current)]
              by_cases base : tracker.value = prepared.base
              · rw [if_neg (not_not.mpr base)]
                exact .inr ⟨rfl, adopted foundT foundP foundC status mine current⟩
              · rw [if_pos base]
                refine .inl ⟨⟨_, rfl⟩, stale, fun start _ => base ?_⟩
                obtain ⟨_, value, revision, there, head, based⟩ := start.preparations p prepared foundP
                rw [foundC] at there
                cases there
                obtain ⟨tracker', here, rfl, rfl⟩ := heads_eq_some.mp head
                rw [mine, foundT] at here
                cases here
                exact (based current).symm
            · rw [if_pos current]
              exact .inl ⟨⟨_, rfl⟩, stale.trans (.clearContext _ _),
                fun _ adoptable => current (only adoptable).2.2⟩
        · rw [if_pos mine]
          exact .inl ⟨⟨_, rfl⟩, .refl s, fun _ adoptable => mine (only adoptable).2.1⟩

/-! ### Steps -/

theorem Inv.track (start : Inv s) (initial : V) :
    Inv { s with trackers := s.trackers ++ [⟨initial, 0, []⟩] } := by
  have heads : ∀ {t : Nat} {head : V × Nat}, s.heads[t]? = some head →
      (Trackers.heads { s with trackers := s.trackers ++ [⟨initial, 0, []⟩] })[t]? = some head := by
    intro t head found
    rw [Trackers.heads, List.map_append, List.getElem?_append_left
      (by simpa [Trackers.heads] using (List.getElem?_eq_some_iff.mp found).1)]
    exact found
  refine ⟨fun c context found => ?_, fun p prepared found => ?_⟩
  · obtain ⟨value, revision, head, rest⟩ := start.contexts c context found
    exact ⟨value, revision, heads head, rest⟩
  · obtain ⟨context, value, revision, there, head, rest⟩ := start.preparations p prepared found
    exact ⟨context, value, revision, there, heads head, rest⟩

theorem inv_initial : Inv (Trackers.initial V O) :=
  ⟨fun _ _ found => (by cases found), fun _ _ found => (by cases found)⟩

section Steps

variable [DecidableEq V] (drafts : Drafts V O E)

/-- **A call is a tracking, a quiet call or an adoption that succeeds.** -/
theorem step_quiet (s : Trackers V O) (a : Action V E) :
    (∃ initial, a = .track initial) ∨
      Quiet s (s.step drafts a).2 ∧ (∀ t p, a = .adopt t p → ∃ e, (s.step drafts a).1 = .error e) ∨
      ∃ t p, a = .adopt t p ∧ (s.step drafts a).1 = .ok .nothing ∧
        Adopted s t p (s.step drafts a).2 := by
  cases a with
  | track initial => exact .inl ⟨initial, rfl⟩
  | beginChange t => exact .inr (.inl ⟨.beginChange drafts s t, fun _ _ same => nomatch same⟩)
  | edit c e => exact .inr (.inl ⟨.edit drafts s c e, fun _ _ same => nomatch same⟩)
  | prepare i => exact .inr (.inl ⟨.prepare drafts s i, fun _ _ same => nomatch same⟩)
  | prepareReplace t value =>
    exact .inr (.inl ⟨.prepareReplace drafts s t value, fun _ _ same => nomatch same⟩)
  | abortChange i => exact .inr (.inl ⟨.abortChange s i, fun _ _ same => nomatch same⟩)
  | abortPrepared p => exact .inr (.inl ⟨.abortPrepared s p, fun _ _ same => nomatch same⟩)
  | adopt t p =>
    rcases adopt_cases s t p with ⟨failed, quiet, _⟩ | ⟨done, adopted⟩
    · exact .inr (.inl ⟨quiet, fun _ _ _ => failed⟩)
    · exact .inr (.inr ⟨t, p, rfl, done, adopted⟩)

theorem step_forward (s : Trackers V O) (a : Action V E) : Forward s (s.step drafts a).2 := by
  rcases step_quiet drafts s a with ⟨initial, rfl⟩ | ⟨quiet, _⟩ | ⟨_, _, _, _, adopted⟩
  · exact ⟨fun _ context found => ⟨context, found, .refl context⟩, fun _ _ found => found⟩
  · exact quiet.toForward
  · exact adopted.toForward

theorem step_inv (s : Trackers V O) (a : Action V E) (start : Inv s) : Inv (s.step drafts a).2 := by
  rcases step_quiet drafts s a with ⟨initial, rfl⟩ | ⟨quiet, _⟩ | ⟨_, _, _, _, adopted⟩
  · exact start.track initial
  · exact quiet.inv start
  · exact adopted.inv start

variable {s : Trackers V O}

/-- **An adoption succeeds exactly when it may.** -/
theorem adopt_ok_iff (start : Inv s) (t p : Nat) :
    (s.adopt t p).1 = .ok .nothing ↔ Adoptable s t p := by
  rcases adopt_cases s t p with ⟨⟨e, failed⟩, _, never⟩ | ⟨done, adopted⟩
  · rw [failed]
    exact ⟨fun same => (nomatch same), fun adoptable => (never start adoptable).elim⟩
  · exact ⟨fun _ => adopted.adoptable, fun _ => done⟩

/-! ### What stays once it is so -/

/-- The preparation's context is in a final status. -/
def Dead (p : Nat) (s : Trackers V O) : Prop :=
  ∃ prepared context, s.preparations[p]? = some prepared ∧
    s.contexts[prepared.context]? = some context ∧ context.status.Final

omit [DecidableEq V] in
theorem Dead.not_adoptable (dead : Dead p s) (t : Nat) : ¬ Adoptable s t p := by
  rintro ⟨_, prepared, context, _, found, inside, status, _⟩
  obtain ⟨prepared', context', found', inside', final⟩ := dead
  rw [found] at found'
  cases found'
  rw [inside] at inside'
  cases inside'
  rw [status] at final
  exact final

theorem Dead.step {p : Nat} (s : Trackers V O) (a : Action V E) (dead : Dead p s) :
    Dead p (s.step drafts a).2 := by
  obtain ⟨prepared, context, found, inside, final⟩ := dead
  obtain ⟨later, there, kept⟩ := (step_forward drafts s a).contexts _ context inside
  exact ⟨prepared, later, (step_forward drafts s a).preparations p prepared found, there,
    kept.status.final final ▸ final⟩

/-- The change has prepared the preparation: it is settled, and still names the preparation's status
or the status is final. -/
def PreparedBy (i p : Nat) (s : Trackers V O) : Prop :=
  ∃ change prepared context, s.changes[i]? = some change ∧ change.settled = true ∧
    s.preparations[p]? = some prepared ∧ s.contexts[prepared.context]? = some context ∧
    context.status ≠ .open ∧ (change.preparedStatus = some prepared.context ∨ context.status.Final)

omit [DecidableEq V] in
/-- Only `prepare` and `abortChange` write a change that is there. -/
theorem changes_abortContext (s : Trackers V O) (c : Nat) : (s.abortContext c).changes = s.changes := by
  unfold Trackers.abortContext Trackers.clearContext Trackers.releaseContext
  split
  · rfl
  · split_ifs
    · rfl
    · simp only [Trackers.modifyContext, Trackers.setStatus]
      split <;> rfl

omit [DecidableEq V] in
theorem changes_clearContext (s : Trackers V O) (c : Nat) : (s.clearContext c).changes = s.changes := by
  unfold Trackers.clearContext Trackers.releaseContext
  simp only [Trackers.modifyContext]
  split <;> rfl

omit [DecidableEq V] in
theorem changes_invalidate (s : Trackers V O) (t winner : Nat) :
    (s.invalidate t winner).changes = s.changes := by
  have one : ∀ (s : Trackers V O) (c : Nat), (s.invalidateOne winner c).changes = s.changes := by
    intro s c
    unfold Trackers.invalidateOne Trackers.releaseOverlayReferences Trackers.releaseContext
    simp only [Trackers.modifyContext, Trackers.setStatus]
    split_ifs
    · rfl
    · split <;> split <;> (try split_ifs) <;> rfl
  have loop : ∀ (registered : List Nat) (s : Trackers V O),
      (registered.foldl (fun s c => s.invalidateOne winner c) s).changes = s.changes := by
    intro registered
    induction registered with
    | nil => exact fun _ => rfl
    | cons c rest ih => exact fun s => (ih _).trans (one s c)
  exact loop _ s

/-- A settled change stays, and its status is only dropped once the context is not prepared. -/
theorem step_change {s : Trackers V O} {i : Nat} {change : ChangeImpl}
    (found : s.changes[i]? = some change) (settled : change.settled = true) (a : Action V E) :
    (∃ later, (s.step drafts a).2.changes[i]? = some later ∧ later.settled = true ∧
      later.preparedStatus = change.preparedStatus) ∨ a = .abortChange i := by
  have same : ∀ {s' : Trackers V O}, s'.changes = s.changes → ∃ later,
      s'.changes[i]? = some later ∧ later.settled = true ∧
        later.preparedStatus = change.preparedStatus := fun same =>
    ⟨change, by rw [same, found], settled, rfl⟩
  have other : ∀ {s' : Trackers V O} {j : Nat} (new : ChangeImpl), j ≠ i → s'.changes = s.changes →
      ∃ later, (s'.setChange j new).changes[i]? = some later ∧ later.settled = true ∧
        later.preparedStatus = change.preparedStatus := fun new different same =>
    ⟨change, by rw [Trackers.setChange, List.getElem?_set_ne different, same, found], settled, rfl⟩
  cases a with
  | track initial => exact .inl (same rfl)
  | beginChange t =>
    refine .inl ?_
    simp only [Trackers.step, Trackers.beginChange]
    split
    · exact same rfl
    · refine ⟨change, ?_, settled, rfl⟩
      dsimp only
      rw [List.getElem?_append_left (List.getElem?_eq_some_iff.mp found).1, found]
  | edit c e =>
    refine .inl (same ?_)
    simp only [Trackers.step, Trackers.edit]
    split
    · rfl
    · split
      · rfl
      · split <;> rfl
  | prepare j =>
    refine .inl ?_
    simp only [Trackers.step, Trackers.prepare]
    split
    · exact same rfl
    · rename_i change' found'
      split_ifs with settled'
      · exact same rfl
      · have different : j ≠ i := by
          rintro rfl
          rw [found] at found'
          cases found'
          exact settled' settled
        split
        · exact same rfl
        · split
          · exact same rfl
          · split
            · exact same rfl
            · split
              · exact other _ different (changes_clearContext _ _)
              · exact other _ different (changes_clearContext _ _)
  | prepareReplace t value =>
    refine .inl (same ?_)
    simp only [Trackers.step, Trackers.prepareReplace]
    split
    · rfl
    · split
      · exact changes_clearContext _ _
      · exact changes_clearContext _ _
  | abortChange j =>
    by_cases here : j = i
    · exact .inr (by rw [here])
    · refine .inl ?_
      simp only [Trackers.step, Trackers.abortChange]
      split
      · exact same rfl
      · split_ifs
        · refine other _ here ?_
          split
          · split
            · split_ifs <;> rfl
            · rfl
          · rfl
        · refine other _ here ?_
          split
          · exact changes_abortContext _ _
          · rfl
  | abortPrepared p =>
    refine .inl (same ?_)
    simp only [Trackers.step, Trackers.abortPrepared]
    split
    · rfl
    · exact changes_abortContext _ _
  | adopt t p =>
    refine .inl (same ?_)
    simp only [Trackers.step, Trackers.adopt]
    split
    · rfl
    · split
      · rfl
      · split
        · rfl
        · split
          · rfl
          · split
            · rfl
            · rfl
            · rfl
            · rfl
            · split
              · exact changes_clearContext _ _
              · split
                · rfl
                · exact changes_invalidate _ _ _

omit [DecidableEq V] in
theorem abortChange_change {i : Nat} {change : ChangeImpl} (found : s.changes[i]? = some change)
    (settled : change.settled = true) :
    (s.abortChange i).2.changes[i]? = some { change with preparedStatus := none } := by
  have inside := (List.getElem?_eq_some_iff.mp found).1
  simp only [Trackers.abortChange, found, settled, if_true, Trackers.setChange]
  rw [List.getElem?_set_self]
  split
  · split
    · split <;> exact inside
    · exact inside
  · exact inside

omit [DecidableEq V] in
theorem abortChange_status {i c : Nat} {change : ChangeImpl} (found : s.changes[i]? = some change)
    (settled : change.settled = true) (names : change.preparedStatus = some c)
    (inside : s.contexts[c]? = some context) (waiting : context.status = .prepared) :
    (s.abortChange i).2.contexts[c]? = some { context with status := .aborted } := by
  simp [Trackers.abortChange, found, settled, names, inside, waiting, Trackers.setChange,
    Trackers.setStatus, Trackers.modifyContext]

theorem PreparedBy.step {i p : Nat} (s : Trackers V O) (a : Action V E) (linked : PreparedBy i p s) :
    PreparedBy i p (s.step drafts a).2 := by
  obtain ⟨change, prepared, context, found, settled, there, inside, opened, status⟩ := linked
  obtain ⟨later, inside', kept⟩ := (step_forward drafts s a).contexts _ context inside
  have there' := (step_forward drafts s a).preparations p prepared there
  have opened' : later.status ≠ .open := by
    rcases kept.status with same | opening | ⟨_, final⟩
    · rwa [same]
    · exact absurd opening opened
    · intro same
      rw [same] at final
      exact final
  rcases step_change drafts found settled a with ⟨change', found', settled', same⟩ | rfl
  · refine ⟨change', prepared, later, found', settled', there', inside', opened', ?_⟩
    rcases status with names | final
    · exact .inl (same.trans names)
    · exact .inr (kept.status.final final ▸ final)
  · refine ⟨{ change with preparedStatus := none }, prepared, later, ?_, settled, there', inside',
      opened', .inr ?_⟩
    · exact abortChange_change found settled
    · by_cases final : context.status.Final
      · exact kept.status.final final ▸ final
      · have names := status.resolve_right final
        have waiting : context.status = .prepared := by
          cases same : context.status <;> simp_all [Status.Final]
        rw [show s.step drafts (.abortChange i : Action V E) = s.abortChange i from rfl,
          abortChange_status found settled names inside waiting] at inside'
        cases inside'
        trivial

/-- The tracker has left the revision behind. -/
def Past (t revision : Nat) (s : Trackers V O) : Prop :=
  ∃ value revision', s.heads[t]? = some (value, revision') ∧ revision < revision'

theorem Past.step {t revision : Nat} (s : Trackers V O) (a : Action V E)
    (past : Past t revision s) : Past t revision (s.step drafts a).2 := by
  obtain ⟨value, revision', head, later⟩ := past
  obtain ⟨tracker, found, rfl, rfl⟩ := heads_eq_some.mp head
  rcases step_quiet drafts s a with ⟨initial, rfl⟩ | ⟨quiet, _⟩ | ⟨u, p, _, _, adopted⟩
  · refine ⟨tracker.value, tracker.revision, heads_eq_some.mpr ⟨tracker, ?_, rfl, rfl⟩, later⟩
    show (s.trackers ++ [⟨initial, 0, []⟩])[t]? = some tracker
    rw [List.getElem?_append_left (List.getElem?_eq_some_iff.mp found).1]
    exact found
  · exact ⟨_, _, by rw [quiet.heads]; exact head, later⟩
  · obtain ⟨prepared, _, moved⟩ := adopted.heads t tracker found
    by_cases same : t = u
    · rw [if_pos same] at moved
      exact ⟨_, _, moved, by omega⟩
    · rw [if_neg same] at moved
      exact ⟨_, _, moved, later⟩

end Steps

/-! ### Histories -/

/-- The revision a preparation is based on. -/
def basedOn (s : Trackers V O) (p : Nat) : Option Nat :=
  s.preparations[p]? >>= fun prepared =>
    (s.contexts[prepared.context]?).map OverlayContext.baseRevision

abbrev TrackerEvent (V O E : Type) :=
  Event (Trackers V O) (Action V E) (Except TrackerError Returned)

/-- The event is a successful adoption. -/
def Adopts (e : TrackerEvent V O E) (t p : Nat) : Prop :=
  e.action = .adopt t p ∧ e.outcome = .ok .nothing

theorem Adoptable.basedOn (adoptable : Adoptable s t p) :
    ∃ tracker, s.trackers[t]? = some tracker ∧ basedOn s p = some tracker.revision := by
  obtain ⟨tracker, prepared, context, found, there, inside, _, _, current⟩ := adoptable
  refine ⟨tracker, found, ?_⟩
  rw [TianGong.Chord.basedOn, there]
  show (s.contexts[prepared.context]?).map _ = _
  rw [inside, ← current]
  rfl

/-! ### What ends a preparation -/

theorem contexts_clearContext (s : Trackers V O) (c : Nat) (found : s.contexts[c]? = some context) :
    (s.clearContext c).contexts[c]? = some { context with live := none } := by
  simp [Trackers.clearContext, Trackers.releaseContext, Trackers.modifyContext, found]

theorem preparations_clearContext (s : Trackers V O) (c : Nat) :
    (s.clearContext c).preparations = s.preparations := by
  unfold Trackers.clearContext Trackers.releaseContext
  simp only [Trackers.modifyContext]
  split <;> rfl

theorem Dead.of_adopted {s' : Trackers V O} (adopted : Adopted s t p s') : Dead p s' := by
  obtain ⟨_, prepared, context, _, found, inside, _⟩ := adopted.adoptable
  obtain ⟨later, there, _⟩ := adopted.contexts _ context inside
  refine ⟨prepared, later, adopted.preparations p prepared found, there, ?_⟩
  rw [adopted.consumed prepared found later there]
  trivial

theorem Dead.of_abortPrepared {s : Trackers V O} (start : Inv s) {p : Nat}
    (done : (s.abortPrepared p).1 = .ok .nothing) : Dead p (s.abortPrepared p).2 := by
  unfold Trackers.abortPrepared at done ⊢
  cases found : s.preparations[p]? with
  | none =>
    rw [found] at done
    cases done
  | some prepared =>
    obtain ⟨context, _, _, inside, _⟩ := start.preparations p prepared found
    dsimp only
    refine ⟨prepared, ?_⟩
    have kept := (Quiet.abortContext s prepared.context).preparations p prepared found
    unfold Trackers.abortContext at kept ⊢
    rw [inside] at kept ⊢
    dsimp only at kept ⊢
    split_ifs at kept ⊢ with final
    · refine ⟨context, kept, inside, ?_⟩
      rcases final with same | same | same <;> rw [same] <;> trivial
    · have marked : (s.setStatus prepared.context .aborted).contexts[prepared.context]? =
          some { context with status := .aborted } := by
        simp [Trackers.setStatus, Trackers.modifyContext, inside]
      exact ⟨_, kept, contexts_clearContext _ _ marked, trivial⟩

theorem Dead.of_abortChange {s : Trackers V O} {i p : Nat} (linked : PreparedBy i p s) :
    Dead p (s.abortChange i).2 := by
  obtain ⟨change, prepared, context, found, settled, there, inside, opened, status⟩ := linked
  have quiet := Quiet.abortChange s i
  obtain ⟨later, inside', kept⟩ := quiet.contexts _ context inside
  refine ⟨prepared, later, quiet.preparations p prepared there, inside', ?_⟩
  by_cases final : context.status.Final
  · exact kept.status.final final ▸ final
  · have waiting : context.status = .prepared := by
      cases same : context.status <;> simp_all [Status.Final]
    rw [abortChange_status found settled (status.resolve_right final) inside waiting] at inside'
    cases inside'
    trivial

theorem PreparedBy.of_prepare {drafts : Drafts V O E} {i : Nat}
    (done : (s.prepare drafts i).1 = .ok (.prepared p)) :
    PreparedBy i p (s.prepare drafts i).2 := by
  unfold Trackers.prepare at done ⊢
  cases found : s.changes[i]? with
  | none => simp [found] at done
  | some change =>
    simp only [found] at done ⊢
    split_ifs at done ⊢ with settled
    · cases open_ : change.context with
      | none => simp [open_] at done
      | some c =>
        simp only [open_] at done ⊢
        cases inside : s.contexts[c]? with
        | none => simp [inside] at done
        | some context =>
          simp only [inside] at done ⊢
          cases writable : assertWritable context with
          | error e => simp [writable] at done
          | ok live =>
            simp only [writable] at done ⊢
            cases parts : preparedParts drafts live with
            | error e => simp [parts] at done
            | ok made =>
              simp only [parts] at done ⊢
              cases done
              have marked : (s.setStatus c .prepared).contexts[c]? =
                  some { context with status := .prepared } := by
                simp [Trackers.setStatus, Trackers.modifyContext, inside]
              have length := (List.getElem?_eq_some_iff.mp found).1
              refine ⟨⟨none, some c, true⟩, ⟨c, made.2, live.baseValue, made.1⟩,
                { context with status := .prepared, live := none }, ?_, rfl, ?_, ?_, nofun, .inl rfl⟩
              · rw [Trackers.setChange, List.getElem?_set_self]
                rw [Trackers.addPrepared, changes_clearContext]
                exact length
              · rw [Trackers.setChange, Trackers.addPrepared, preparations_clearContext]
                exact List.getElem?_concat_length
              · exact contexts_clearContext { s.setStatus c .prepared with
                  preparations := s.preparations ++ [⟨c, made.2, live.baseValue, made.1⟩] } c marked

/-! ### One linear history -/

section History

variable [DecidableEq V] {drafts : Drafts V O E} {actions : List (Action V E)}

variable {e : TrackerEvent V O E}

theorem history_step (member : e ∈ events (Trackers.step · drafts) (Trackers.initial V O) actions) :
    Inv e.before ∧ e.before.step drafts e.action = (e.outcome, e.after) :=
  mem_events (fun s a start => step_inv drafts s a start) inv_initial member

/-- What an event establishes, once it stays, excludes a later adoption. -/
theorem history_later {K : Trackers V O → Prop}
    (kept : ∀ s (a : Action V E), K s → K (s.step drafts a).2) {i j : Nat} (order : i < j)
    {e' : TrackerEvent V O E}
    (first : (events (Trackers.step · drafts) (Trackers.initial V O) actions)[i]? = some e)
    (second : (events (Trackers.step · drafts) (Trackers.initial V O) actions)[j]? = some e')
    (holds : K e.after) : K e'.before :=
  later (fun s a start => step_inv drafts s a start) (fun s a _ => kept s a) inv_initial order first
    second holds

theorem Adopts.adopted (adopts : Adopts e t p)
    (ran : e.before.step drafts e.action = (e.outcome, e.after)) :
    Adopted e.before t p e.after := by
  obtain ⟨action, outcome⟩ := adopts
  rw [action, outcome] at ran
  have call : e.before.adopt t p = (.ok .nothing, e.after) := ran
  rcases adopt_cases e.before t p with ⟨⟨error, failed⟩, _⟩ | ⟨_, adopted⟩
  · rw [call] at failed
    cases failed
  · rwa [call] at adopted

/-- **Revisions form one linear history.** In every history of calls, a tracker's value and revision
change only in a successful adoption, which moves it on to the preparation's value; an adoption
succeeds exactly when the preparation may be adopted; and once a preparation is adopted or aborted
it is never adopted again, nor is another one of the same tracker and base revision. -/
theorem linear_history (drafts : Drafts V O E) (actions : List (Action V E)) :
    (∀ e ∈ events (Trackers.step · drafts) (Trackers.initial V O) actions,
      (∀ (t : Nat) tracker, e.before.trackers[t]? = some tracker →
        ∃ later, e.after.trackers[t]? = some later ∧
          ((∃ (p : Nat) (prepared : PreparedImpl V), Adopts e t p ∧
              e.before.preparations[p]? = some prepared ∧ later.value = prepared.value ∧
              later.revision = tracker.revision + 1) ∨
            (∀ p, ¬ Adopts e t p) ∧ later.value = tracker.value ∧
              later.revision = tracker.revision)) ∧
      ∀ t p, e.action = .adopt t p → (e.outcome = .ok .nothing ↔ Adoptable e.before t p)) ∧
    ∀ (i j : Nat) (e e' : TrackerEvent V O E), i < j →
      (events (Trackers.step · drafts) (Trackers.initial V O) actions)[i]? = some e →
      (events (Trackers.step · drafts) (Trackers.initial V O) actions)[j]? = some e' →
      (∀ t t' p, Adopts e t p → ¬ Adopts e' t' p) ∧
      (∀ t p p', Adopts e t p → Adopts e' t p' → basedOn e.before p ≠ basedOn e'.before p') ∧
      (∀ t p, e.action = .abortPrepared p → e.outcome = .ok .nothing → ¬ Adopts e' t p) ∧
      ∀ (k : Nat) (e₀ : TrackerEvent V O E) c t p, k < i →
        (events (Trackers.step · drafts) (Trackers.initial V O) actions)[k]? = some e₀ →
        e₀.action = .prepare c → e₀.outcome = .ok (.prepared p) → e.action = .abortChange c →
        ¬ Adopts e' t p := by
  have deadEnds : ∀ {i j : Nat} {e e' : TrackerEvent V O E}, i < j →
      (events (Trackers.step · drafts) (Trackers.initial V O) actions)[i]? = some e →
      (events (Trackers.step · drafts) (Trackers.initial V O) actions)[j]? = some e' →
      ∀ {t p}, Dead p e.after → ¬ Adopts e' t p := by
    intro i j e e' order first second t p dead adopts
    have ran := (history_step (List.mem_of_getElem? second)).2
    exact (history_later (fun s a dead => Dead.step drafts s a dead) order first second
      dead).not_adoptable t (adopts.adopted ran).adoptable
  refine ⟨fun e member => ⟨fun t tracker found => ?_, fun t p action => ?_⟩, ?_⟩
  · obtain ⟨_, ran⟩ := history_step member
    have after : (e.before.step drafts e.action).2 = e.after := by rw [ran]
    have outcome : (e.before.step drafts e.action).1 = e.outcome := by rw [ran]
    rcases step_quiet drafts e.before e.action with ⟨initial, action⟩ | ⟨quiet, refused⟩ |
      ⟨u, p, action, done, adopted⟩
    · refine ⟨tracker, ?_, .inr ⟨fun p adopts => ?_, rfl, rfl⟩⟩
      · rw [← after, action]
        show (e.before.trackers ++ [⟨initial, 0, []⟩])[t]? = some tracker
        rw [List.getElem?_append_left (List.getElem?_eq_some_iff.mp found).1]
        exact found
      · rw [adopts.1] at action
        cases action
    · have head : e.after.heads[t]? = some (tracker.value, tracker.revision) := by
        rw [← after, quiet.heads]
        exact heads_eq_some.mpr ⟨tracker, found, rfl, rfl⟩
      obtain ⟨later, there, value, revision⟩ := heads_eq_some.mp head
      refine ⟨later, there, .inr ⟨fun p adopts => ?_, value, revision⟩⟩
      obtain ⟨error, failed⟩ := refused t p adopts.1
      rw [outcome, adopts.2] at failed
      cases failed
    · obtain ⟨prepared, inside, moved⟩ := adopted.heads t tracker found
      rw [after] at moved
      by_cases same : t = u
      · subst same
        rw [if_pos rfl] at moved
        obtain ⟨later, there, value, revision⟩ := heads_eq_some.mp moved
        exact ⟨later, there, .inl ⟨p, prepared, ⟨action, outcome ▸ done⟩, inside, value, revision⟩⟩
      · rw [if_neg same] at moved
        obtain ⟨later, there, value, revision⟩ := heads_eq_some.mp moved
        refine ⟨later, there, .inr ⟨fun p' adopts => ?_, value, revision⟩⟩
        rw [adopts.1] at action
        cases action
        exact same rfl
  · obtain ⟨start, ran⟩ := history_step member
    rw [action] at ran
    rw [← adopt_ok_iff start, show e.before.adopt t p = (e.outcome, e.after) from ran]
  · intro i j e e' order first second
    obtain ⟨start, ran⟩ := history_step (List.mem_of_getElem? first)
    refine ⟨fun t t' p adopts => deadEnds order first second (.of_adopted (adopts.adopted ran)),
      fun t p p' adopts adopts' same => ?_, fun t p action done => ?_, ?_⟩
    · obtain ⟨tracker, found, based⟩ := (adopts.adopted ran).adoptable.basedOn
      obtain ⟨_, ran'⟩ := history_step (List.mem_of_getElem? second)
      obtain ⟨tracker', found', based'⟩ := (adopts'.adopted ran').adoptable.basedOn
      obtain ⟨prepared, _, moved⟩ := (adopts.adopted ran).heads t tracker found
      rw [if_pos rfl] at moved
      obtain ⟨value, revision, head, past⟩ := history_later (fun s a past => Past.step drafts s a past)
        order first second ⟨_, _, moved, Nat.lt_succ_self _⟩
      obtain ⟨tracker'', found'', _, revised⟩ := heads_eq_some.mp head
      rw [found'] at found''
      cases found''
      rw [based, based', Option.some.injEq] at same
      omega
    · rw [action, done] at ran
      have call : e.before.abortPrepared p = (.ok .nothing, e.after) := ran
      have dead := @Dead.of_abortPrepared _ _ _ start p (by rw [call])
      rw [call] at dead
      exact deadEnds order first second dead
    · intro k e₀ c t p earlier found prepares made action
      obtain ⟨_, ran₀⟩ := history_step (List.mem_of_getElem? found)
      rw [prepares, made] at ran₀
      have call₀ : e₀.before.prepare drafts c = (.ok (.prepared p), e₀.after) := ran₀
      have linked : PreparedBy c p (e₀.before.prepare drafts c).2 :=
        PreparedBy.of_prepare (by rw [call₀])
      rw [call₀] at linked
      have linked' := history_later (fun s a linked => PreparedBy.step drafts s a linked) earlier found
        first linked
      rw [action] at ran
      have call : e.before.abortChange c = (e.outcome, e.after) := ran
      have dead := Dead.of_abortChange linked'
      rw [call] at dead
      exact deadEnds order first second dead

/-- **No call moves back.** From every call of a history to each later one a context keeps its owner and
its base revision, its status only moves on, and a preparation stays as it is. -/
theorem history_forward (drafts : Drafts V O E) (actions : List (Action V E)) :
    (events (Trackers.step · drafts) (Trackers.initial V O) actions).Pairwise
      fun e e' => Forward e.after e'.before := by
  refine List.pairwise_iff_getElem.mpr fun i j hi hj order => ?_
  refine history_later (fun s a forward => ?_) order (List.getElem?_eq_getElem hi)
    (List.getElem?_eq_getElem hj)
    ⟨fun _ context found => ⟨context, found, .refl context⟩, fun _ _ found => found⟩
  have next := step_forward drafts s a
  refine ⟨fun c context found => ?_, fun p prepared found =>
    next.preparations p prepared (forward.preparations p prepared found)⟩
  obtain ⟨middle, there, one⟩ := forward.contexts c context found
  obtain ⟨last, here, two⟩ := next.contexts c middle there
  exact ⟨last, here, one.trans two⟩

end History

end TianGong.Chord

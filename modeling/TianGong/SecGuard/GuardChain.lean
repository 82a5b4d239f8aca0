/-
**No exemption escapes the guard chain.**

* `evaluate_cases`: what an evaluation can do.
* `guard_chain`: over every run: a call that returns without a block was not hard denied, and a human
  let it through or no layer and no mode stood against it; a grant is only added by a reply to an ask
  that was not forced; and the run does not depend on what the grant store answers.
-/

import TianGong.SecGuard.Guard

namespace TianGong.SecGuard

open TianGong.Json

variable (L : LowerCase)

/-! ### One evaluation -/

/-- No layer between hard deny and the mode applies. -/
structure Unforced (request : TgSecRequest) (observed : Observed) : Prop where
  rules : ∀ rule, observed.rulesHit = some rule → rule.effect = .allow
  weak : evaluateWeakSelfProtection L request observed.addresses = none
  scope : observed.scope.inScope = true
  danger : observed.danger.hit = false

/-- An allow rule wins. -/
def RuleAllows (observed : Observed) : Prop :=
  ∃ rule, observed.rulesHit = some rule ∧ rule.effect = .allow

/-- What an evaluation can do. -/
inductive Evaluates (request : TgSecRequest) (mode : TgSecPermissionMode) (observed : Observed) :
    Evaluated → Prop where
  | denied (reason : Text) (ruleId : Option TgSecRuleId)
      (hit : (evaluateHardDeny L request observed.addresses).isSome = true) :
      Evaluates request mode observed (.settled ⟨.deny reason, .hardDeny, ruleId⟩)
  | asks (reason : Text) (forced : Bool) (layer : TgSecMatchedLayer) (ruleId : Option TgSecRuleId)
      (passed : evaluateHardDeny L request observed.addresses = none) :
      Evaluates request mode observed (.settled ⟨.ask reason forced, layer, ruleId⟩)
  | allows (layer : TgSecMatchedLayer)
      (passed : evaluateHardDeny L request observed.addresses = none)
      (unforced : Unforced L request observed)
      (dispatched : mode = .auto ∨ mode = .yolo ∨ mode = .judgeAuto ∧ RuleAllows observed) :
      Evaluates request mode observed (.settled ⟨.allow, layer, none⟩)
  | consults (passed : evaluateHardDeny L request observed.addresses = none)
      (unforced : Unforced L request observed) (dispatched : mode = .judgeAuto) :
      Evaluates request mode observed .consults
  | throws (message : Text) : Evaluates request mode observed (.throws message)

variable (hasJudge : Bool)

/-- **What an evaluation can do.** -/
theorem evaluate_cases (request : TgSecRequest) (mode : TgSecPermissionMode) (observed : Observed)
    (granted : Bool) :
    Evaluates L request mode observed (evaluate L hasJudge request mode observed granted) := by
  unfold evaluate
  cases denial : evaluateHardDeny L request observed.addresses with
  | some denial => exact .denied _ _ (by rw [denial]; rfl)
  | none =>
    dsimp only
    cases rule : observed.rulesHit.filter fun rule => rule.effect ≠ .allow with
    | some rule => exact .asks _ _ _ _ denial
    | none =>
      dsimp only
      cases weak : evaluateWeakSelfProtection L request observed.addresses with
      | some weak => exact .asks _ _ _ _ denial
      | none =>
        dsimp only
        split
        · exact .asks _ _ _ _ denial
        rename_i inScope
        split
        · exact .asks _ _ _ _ denial
        rename_i danger
        have unforced : Unforced L request observed := by
          refine ⟨fun winner found => ?_, weak, by simpa using inScope, by simpa using danger⟩
          rw [found] at rule
          simpa [Option.filter] using rule
        have allows : (observed.rulesHit.any fun rule => rule.effect = .allow) = true →
            RuleAllows observed := by
          intro any
          obtain ⟨winner, found, effect⟩ := (Option.any_eq_true ..).mp any
          exact ⟨winner, found, by simpa using effect⟩
        unfold dispatch
        cases mode with
        | strict => exact .asks _ _ _ _ denial
        | judgeAuto =>
          dsimp only
          split
          · rename_i any
            exact .allows _ denial unforced (.inr (.inr ⟨rfl, allows any⟩))
          · split
            · exact .consults denial unforced rfl
            · exact .throws _
        | auto =>
          dsimp only
          split
          · exact .allows _ denial unforced (.inl rfl)
          · split <;> exact .allows _ denial unforced (.inl rfl)
        | yolo =>
          dsimp only
          split
          · exact .allows _ denial unforced (.inr (.inl rfl))
          · split <;> exact .allows _ denial unforced (.inr (.inl rfl))

/-- **The decision does not depend on the grant store**; the layer that gets the credit may. -/
theorem evaluate_granted (request : TgSecRequest) (mode : TgSecPermissionMode)
    (observed : Observed) (granted granted' : Bool) :
    (evaluate L hasJudge request mode observed granted).phase =
      (evaluate L hasJudge request mode observed granted').phase := by
  have dispatched : (dispatch hasJudge mode observed.rulesHit granted).phase =
      (dispatch hasJudge mode observed.rulesHit granted').phase := by
    unfold dispatch
    cases mode <;> dsimp only <;> cases granted <;> cases granted' <;> split_ifs <;> rfl
  unfold evaluate
  split
  · rfl
  · split
    · rfl
    · split
      · rfl
      · split
        · rfl
        · split
          · rfl
          · exact dispatched

/-! ### One call -/

/-- The mode the call has read. -/
def Call.ModeRead (call : Call) (mode : TgSecPermissionMode) : Prop :=
  ∃ document, call.document = some document ∧ readTgSecMode document = .ok mode

/-- Hard deny did not match the call. -/
def Call.Passed (call : Call) : Prop :=
  ∃ observed, call.observed = some observed ∧
    evaluateHardDeny L call.request observed.addresses = none

/-- The human let the call through, in reply to the ask raised for it. -/
def Call.Approved (call : Call) : Prop :=
  call.asked.isSome = true ∧ (call.reply = some .allow ∨ call.reply = some .always)

/-- No layer above the mode applies to the call, and the mode it has read lets it through: by itself, by
an allow rule or by the judge. -/
def Call.Exempt (call : Call) : Prop :=
  ∃ mode observed, call.ModeRead mode ∧ call.observed = some observed ∧
    Unforced L call.request observed ∧
    (mode = .auto ∨ mode = .yolo ∨ mode = .judgeAuto ∧
      (RuleAllows observed ∨ ∃ comment, call.judged = some (.verdict true comment)))

/-- **What a call that runs has behind it.** -/
def Call.Cleared (call : Call) : Prop := call.Passed L ∧ (call.Approved ∨ call.Exempt L)

/-- What a call has behind it at each place. -/
def Call.Holds (call : Call) : Prop :=
  match call.phase with
  | .reading | .thrown _ | .decided (.deny _) | .returned (some _) => True
  | .deciding mode => call.ModeRead mode
  | .judging =>
    call.Passed L ∧ call.ModeRead .judgeAuto ∧
      ∃ observed, call.observed = some observed ∧ Unforced L call.request observed
  | .decided .allow => call.Passed L ∧ call.Exempt L
  | .decided (.ask _ _) => call.Passed L
  | .asking reason forced => call.Passed L ∧ call.asked = some (reason, forced)
  | .returned none => call.Cleared L

/-- **A change of a call keeps what it has behind it, and leaves a call that has returned alone.** -/
structure Call.Keeps (f : Call → Call) : Prop where
  holds : ∀ call, call.Holds L → (f call).Holds L
  returned : ∀ call block, call.phase = .returned block → f call = call

theorem keeps_read (document : Option ModeField) : Call.Keeps L (·.read document) where
  holds call holds := by
    unfold Call.read
    split
    · rename_i mode phase found
      exact ⟨document, rfl, found⟩
    · trivial
    · exact holds
  returned call block phase := by
    unfold Call.read
    rw [phase]

theorem keeps_evaluate (observed : Observed) (granted : Bool) :
    Call.Keeps L (·.evaluate L hasJudge observed granted) where
  holds call holds := by
    unfold Call.evaluate
    split
    · rename_i mode phase
      have read : call.ModeRead mode := by
        unfold Call.Holds at holds
        rw [phase] at holds
        exact holds
      have outcome := evaluate_cases L hasJudge call.request mode observed granted
      generalize SecGuard.evaluate L hasJudge call.request mode observed granted = evaluated at outcome ⊢
      cases outcome with
      | denied reason ruleId hit => trivial
      | asks reason forced layer ruleId passed => exact ⟨observed, rfl, passed⟩
      | allows layer passed unforced dispatched =>
        refine ⟨⟨observed, rfl, passed⟩, mode, observed, read, rfl, unforced, ?_⟩
        exact dispatched.imp_right fun other => other.imp_right fun judged => ⟨judged.1, .inl judged.2⟩
      | consults passed unforced dispatched =>
        subst dispatched
        exact ⟨⟨observed, rfl, passed⟩, read, observed, rfl, unforced⟩
      | throws message => trivial
    · exact holds
  returned call block phase := by
    unfold Call.evaluate
    rw [phase]

/-- The judge lets a call through only with a verdict of allow. -/
theorem judgeWithTimeout_cases (outcome : JudgeOutcome) :
    ((judgeWithTimeout outcome).decision = .allow ∧ ∃ comment, outcome = .verdict true comment) ∨
      ∃ reason, (judgeWithTimeout outcome).decision = .ask reason false := by
  cases outcome with
  | verdict allow comment =>
    cases allow with
    | true => exact .inl ⟨rfl, comment, rfl⟩
    | false => exact .inr ⟨_, rfl⟩
  | timedOut => exact .inr ⟨_, rfl⟩
  | failed message => exact .inr ⟨_, rfl⟩

theorem keeps_judge (outcome : JudgeOutcome) : Call.Keeps L (·.judge outcome) where
  holds call holds := by
    unfold Call.judge
    split
    · rename_i phase
      unfold Call.Holds at holds
      rw [phase] at holds
      obtain ⟨passed, read, observed, seen, unforced⟩ := holds
      rcases judgeWithTimeout_cases outcome with ⟨allow, comment, rfl⟩ | ⟨reason, ask⟩
      · exact ⟨passed, .judgeAuto, observed, read, seen, unforced, .inr (.inr ⟨rfl, .inr ⟨comment, rfl⟩⟩)⟩
      · unfold Call.Holds
        rw [ask]
        exact passed
    · exact holds
  returned call block phase := by
    unfold Call.judge
    rw [phase]

theorem keeps_resume (hasAskChannel : Bool) : Call.Keeps L (·.resume hasAskChannel) where
  holds call holds := by
    unfold Call.resume
    split
    · rename_i phase
      unfold Call.Holds at holds
      rw [phase] at holds
      exact ⟨holds.1, .inr holds.2⟩
    · trivial
    · rename_i reason forced phase
      unfold Call.Holds at holds
      rw [phase] at holds
      split
      · exact ⟨holds, rfl⟩
      · trivial
    · exact holds
  returned call block phase := by
    unfold Call.resume
    rw [phase]

theorem keeps_replied (reply : TgSecAskReply) : Call.Keeps L (·.replied reply) where
  holds call holds := by
    unfold Call.replied
    split
    · rename_i reason forced phase
      unfold Call.Holds at holds
      rw [phase] at holds
      have asked : call.asked.isSome = true := by rw [holds.2]; rfl
      cases reply with
      | deny => trivial
      | allow => exact ⟨holds.1, .inl ⟨asked, .inl rfl⟩⟩
      | always => exact ⟨holds.1, .inl ⟨asked, .inr rfl⟩⟩
    · exact holds
  returned call block phase := by
    unfold Call.replied
    rw [phase]

theorem keeps_fail (message : Text) : Call.Keeps L (·.fail message) where
  holds call holds := by
    unfold Call.fail
    split
    · exact holds
    · exact holds
    · trivial
  returned call block phase := by
    unfold Call.fail
    rw [phase]

/-! ### The guard -/

/-- The call that added a grant: the human replied always, and the ask was not forced. -/
def Call.Granted (call : Call) (resource : Text) : Prop :=
  call.request.resource = resource ∧ (∃ reason, call.asked = some (reason, false)) ∧
    call.reply = some .always ∧ ∃ block, call.phase = .returned block

/-- **The invariant.** -/
structure GuardState.Inv (s : GuardState) : Prop where
  calls : ∀ call ∈ s.calls, call.Holds L
  granted : ∀ (i : Nat) resource, (i, resource) ∈ s.granted →
    ∃ call, s.calls[i]? = some call ∧ call.Granted resource

variable {s : GuardState} (options : TgSecGuardOptions)

theorem inv_update (inv : s.Inv L) (i : Nat) {f : Call → Call} (keeps : Call.Keeps L f) :
    (s.update i f).Inv L where
  calls call member := by
    obtain ⟨j, found⟩ := List.mem_iff_getElem?.mp member
    simp only [GuardState.update, List.getElem?_modify] at found
    obtain ⟨old, there, changed⟩ := Option.map_eq_some_iff.mp found
    have before := inv.calls old (List.mem_of_getElem? there)
    split at changed
    · rw [← changed]
      exact keeps.holds old before
    · rw [← changed]
      exact before
  granted j resource member := by
    obtain ⟨call, there, added⟩ := inv.granted j resource member
    obtain ⟨block, phase⟩ := added.2.2.2
    refine ⟨call, ?_, added⟩
    simp only [GuardState.update, List.getElem?_modify, there, Option.map_eq_map, Option.map_some,
      keeps.returned call block phase, ite_self]

/-- A reply adds a grant only to an ask that was not forced, and only if it is always. -/
theorem granted_of_grant {call : Call} {reply : TgSecAskReply} {resource : Text}
    (holds : call.Holds L) (adds : call.grant reply = some resource) :
    (call.replied reply).Granted resource := by
  unfold Call.grant at adds
  split at adds
  · rename_i reason forced phase
    split at adds
    · rename_i always
      obtain ⟨rfl, rfl⟩ := always
      cases adds
      unfold Call.Holds at holds
      rw [phase] at holds
      unfold Call.replied
      rw [phase]
      exact ⟨rfl, ⟨reason, holds.2⟩, rfl, none, rfl⟩
    · cases adds
  · cases adds

/-- **One step keeps the invariant.** -/
theorem inv_step (inv : s.Inv L) (action : Action) : (step L options s action).Inv L := by
  cases action with
  | beforeTool name arguments =>
    refine ⟨fun call member => ?_, fun i resource member => ?_⟩
    · rcases List.mem_append.mp member with before | last
      · exact inv.calls call before
      · rw [List.mem_singleton.mp last]
        trivial
    · obtain ⟨call, there, added⟩ := inv.granted i resource member
      exact ⟨call, List.getElem?_append_left (List.getElem?_eq_some_iff.mp there).1 |>.trans there, added⟩
  | read i document =>
    have kept := inv_update L inv i (keeps_read L document)
    unfold step
    dsimp only
    split
    · exact ⟨kept.calls, kept.granted⟩
    · exact kept
  | evaluate i observed granted => exact inv_update L inv i (keeps_evaluate L _ observed granted)
  | judge i outcome => exact inv_update L inv i (keeps_judge L outcome)
  | resume i => exact inv_update L inv i (keeps_resume L _)
  | reply i reply =>
    have kept := inv_update L inv i (keeps_replied L reply)
    refine ⟨kept.calls, fun j resource member => ?_⟩
    rcases List.mem_append.mp member with before | added
    · exact kept.granted j resource before
    · obtain ⟨new, grants, same⟩ := Option.map_eq_some_iff.mp (Option.mem_toList.mp added)
      cases same
      obtain ⟨call, there, adds⟩ := Option.bind_eq_some_iff.mp grants
      refine ⟨call.replied reply, ?_, granted_of_grant L
        (inv.calls call (List.mem_of_getElem? there)) adds⟩
      simp [step, GuardState.update, there]
  | fail i message => exact inv_update L inv i (keeps_fail L message)
  | switchMode mode =>
    unfold step
    dsimp only
    split
    · exact inv
    · exact ⟨inv.calls, inv.granted⟩

/-! ### Whole runs -/

/-- The guard after some actions. -/
def guardAfter (options : TgSecGuardOptions) (s : GuardState) (actions : List Action) : GuardState :=
  actions.foldl (step L options) s

theorem inv_guardAfter (inv : s.Inv L) (actions : List Action) :
    (guardAfter L options s actions).Inv L := by
  induction actions generalizing s with
  | nil => exact inv
  | cons action rest ih => exact ih (inv_step L options inv action)

theorem inv_init (mode : TgSecPermissionMode) : (GuardState.init mode).Inv L where
  calls _ member := by cases member
  granted _ _ member := by cases member

/-- The same action, up to what the grant store answers. -/
inductive SameButGrant : Action → Action → Prop where
  | same (action : Action) : SameButGrant action action
  | grant (i : Nat) (observed : Observed) (granted granted' : Bool) :
    SameButGrant (.evaluate i observed granted) (.evaluate i observed granted')

/-- A step does not depend on the grant store. -/
theorem step_granted (s : GuardState) {action action' : Action}
    (same : SameButGrant action action') : step L options s action = step L options s action' := by
  cases same with
  | same => rfl
  | grant i observed granted granted' =>
    have calls : (fun call : Call => call.evaluate L options.hasJudge observed granted) =
        fun call : Call => call.evaluate L options.hasJudge observed granted' := by
      funext call
      unfold Call.evaluate
      split
      · rw [evaluate_granted L options.hasJudge call.request _ observed granted granted']
      · rfl
    unfold step
    dsimp only
    rw [calls]

/-- **No exemption escapes the guard chain.** In every run of any number of calls, a call that returns
without a block was not hard denied, and either a human let it through or neither a layer nor the mode
it read stood against it; every grant comes from an ask that was not forced; and the run is the same
whatever the grant store answers. -/
theorem guard_chain (options : TgSecGuardOptions) (mode : TgSecPermissionMode)
    (actions : List Action) :
    (∀ call ∈ (guardAfter L options (.init mode) actions).calls, call.phase = .returned none →
        call.Passed L ∧ (call.Approved ∨ call.Exempt L)) ∧
      (∀ (i : Nat) resource, (i, resource) ∈ (guardAfter L options (.init mode) actions).granted →
        ∃ call, (guardAfter L options (.init mode) actions).calls[i]? = some call ∧
          call.request.resource = resource ∧ (∃ reason, call.asked = some (reason, false)) ∧
          call.reply = some .always) ∧
      (∀ actions', List.Forall₂ SameButGrant actions actions' →
        guardAfter L options (.init mode) actions' = guardAfter L options (.init mode) actions) := by
  have inv := inv_guardAfter L options (inv_init L mode) actions
  refine ⟨fun call member phase => ?_, fun i resource member => ?_, fun actions' same => ?_⟩
  · have holds := inv.calls call member
    unfold Call.Holds at holds
    rw [phase] at holds
    exact holds
  · obtain ⟨call, there, request, asked, reply, -⟩ := inv.granted i resource member
    exact ⟨call, there, request, asked, reply⟩
  · generalize GuardState.init mode = s
    clear inv
    induction same generalizing s with
    | nil => rfl
    | cons first _ ih =>
      unfold guardAfter at ih ⊢
      rw [List.foldl_cons, List.foldl_cons, step_granted L options s first]
      exact ih _

end TianGong.SecGuard

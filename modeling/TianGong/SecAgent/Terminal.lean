/-
**Terminal declarations.**

`terminal.ts` and `tools/terminal-tool.ts`: a declaration reads a finding, for `getshell` then
its evidence, and commits the verdict. The evidence store goes on between the reads and the commit.

* `Terminals.step`: a read, a commit, or a step of the store; the stores that there were are kept beside it.
* `inOrder`: the condition: what a call read holds at its next read, and calls commit in the order in which
  they looked.
* `honest_run`: every run that meets it.
* `shell_declared`: a finding is given up between the two reads, and its evidence bound after that.
-/

import TianGong.Evidence.Findings

namespace TianGong.SecAgent

open List
open Evidence
open SecServer (trim)

/-! ### Declarations -/

inductive SecAgentLane where
  | redteam
  | ctf
  | src
  deriving DecidableEq

def SecAgentLane.name : SecAgentLane → Text
  | .redteam => text "redteam"
  | .ctf => text "ctf"
  | .src => text "src"

inductive TgSecTerminalClaim where
  | getshell
  | getflag
  | highCriticalFinding
  deriving DecidableEq

def TgSecTerminalClaim.name : TgSecTerminalClaim → Text
  | .getshell => text "getshell"
  | .getflag => text "getflag"
  | .highCriticalFinding => text "high_critical_finding"

inductive TgSecTerminalStatus where
  | unverified
  | verified
  deriving DecidableEq

structure TgSecTerminalValue where
  claim : TgSecTerminalClaim
  lane : SecAgentLane
  status : TgSecTerminalStatus
  reason : Text
  findingId : Text
  snapshotId : Text
  note : Text
  declaredAt : Nat
  verifiedAt : Nat
  deriving DecidableEq

def terminalClaimForLane : SecAgentLane → TgSecTerminalClaim
  | .redteam => .getshell
  | .ctf => .getflag
  | .src => .highCriticalFinding

def terminalKey (lane : SecAgentLane) (claim : TgSecTerminalClaim) : Text :=
  lane.name ++ text ":" ++ claim.name

structure TerminalArgs where
  claim : TgSecTerminalClaim
  findingId : Option Text
  snapshotId : Option Text
  flag : Option Text
  note : Option Text

/-- `value?.trim() ?? ""` -/
def trimmed (value : Option Text) : Text := (value.map trim).getD []

/-! ### Verdicts -/

structure Verdict where
  status : TgSecTerminalStatus
  reason : Text

def severityName : TgSecFindingSeverity → Text
  | .critical => text "critical"
  | .high => text "high"
  | .medium => text "medium"
  | .low => text "low"

def isHighOrCritical (finding : TgSecFindingRecord) : Bool :=
  finding.severity = .high || finding.severity = .critical

/-- `VERIFIED_FINDING_STATUSES` -/
def isVerifiedStatus (finding : TgSecFindingRecord) : Bool :=
  finding.status = .verified || finding.status = .retestPass

/-- What reading the finding decides: a verdict, or that its evidence is read next. -/
inductive Judgement where
  | verdict (verdict : Verdict)
  | evidence (finding : TgSecFindingRecord)

/-- `evaluateFindingClaim`, up to the read of the evidence. -/
def judgeFinding (claim : TgSecTerminalClaim) (findingId : Text) : Option TgSecFindingRecord → Judgement
  | none => .verdict ⟨.unverified, text "finding " ++ findingId ++ text " is not registered"⟩
  | some finding =>
    if !isHighOrCritical finding then
      .verdict ⟨.unverified, text "finding " ++ findingId ++ text " is " ++ severityName finding.severity ++
        text "; a terminal claim needs high or critical"⟩
    else if !isVerifiedStatus finding then
      .verdict ⟨.unverified, text "finding " ++ findingId ++ text " is " ++ finding.status.name ++
        text "; it must be verified first"⟩
    else if claim = .highCriticalFinding then
      .verdict ⟨.verified, text "finding " ++ findingId ++ text " is " ++ severityName finding.severity ++
        text "/" ++ finding.status.name⟩
    else .evidence finding

/-- A set has the evidence that is named, or any if none is. -/
def hasEvidence (set : TgSecEvidenceSet) (snapshotId : Text) : Bool :=
  if snapshotId = [] then !set.bindings.isEmpty
  else set.bindings.any fun binding => binding.snapshotId = snapshotId

/-- The rest of `evaluateFindingClaim`. -/
def judgeSet (findingId snapshotId : Text) (finding : TgSecFindingRecord) (set : TgSecEvidenceSet) : Verdict :=
  let shown := text "finding " ++ findingId ++ text " is " ++ severityName finding.severity ++ text "/" ++
    finding.status.name
  if snapshotId ≠ [] then
    if !hasEvidence set snapshotId then
      ⟨.unverified, text "snapshot " ++ snapshotId ++ text " is not bound to finding " ++ findingId⟩
    else ⟨.verified, shown ++ text "; snapshot " ++ snapshotId ++ text " is bound"⟩
  else if !hasEvidence set snapshotId then
    ⟨.unverified, text "finding " ++ findingId ++ text " has no evidence snapshot bound"⟩
  else ⟨.verified, shown ++ text " with " ++ decimal set.bindings.length ++ text " snapshot(s)"⟩

/-- `evaluateFlagClaim`; there is no answer if no source is configured. -/
def judgeFlag : Option Bool → Verdict
  | none => ⟨.unverified, text "no flag submission record source is configured"⟩
  | some true => ⟨.verified, text "the flag exists in the submission record"⟩
  | some false => ⟨.unverified, text "the flag is not in the submission record"⟩

/-! ### Calls -/

/-- Where a call is. -/
inductive TerminalPhase where
  | validating
  /-- The finding was read, at a moment, and its evidence is read next. -/
  | listing (finding : TgSecFindingRecord) (foundAt : Nat)
  /-- The verdict rests on what was read at a moment. -/
  | declaring (value : TgSecTerminalValue) (looked : Nat)
  | ended

structure TerminalCall where
  lane : SecAgentLane
  args : TerminalArgs
  started : Nat
  phase : TerminalPhase

/-- A declaration that was committed: when its call started, when it was last validated, and when it was
committed. -/
structure Commit where
  value : TgSecTerminalValue
  started : Nat
  looked : Nat
  committed : Nat

def Commit.key (commit : Commit) : Text := terminalKey commit.value.lane commit.value.claim

structure Terminals where
  store : EvidenceStore
  calls : List TerminalCall
  documents : List (Text × TgSecTerminalValue)
  /-- The stores that there were, with the present one at the end: a place in it is a moment. -/
  past : List EvidenceStore
  commits : List Commit

inductive TerminalEvent where
  | store (event : StoreEvent)
  | start (lane : SecAgentLane) (args : TerminalArgs)
  /-- The next read of the store. -/
  | read (c : Nat)
  /-- What `verifyFlag` says. -/
  | answer (c : Nat) (accepted : Option Bool)
  | commit (c : Nat)
  | stops (c : Nat)

variable {findingId : Text}

variable {c : Nat}

namespace Terminals

def empty : Terminals := ⟨.empty, [], [], [.empty], []⟩

variable (w : Terminals)

def now : Nat := w.past.length - 1

def getFinding (store : EvidenceStore) (findingId : Text) : Option TgSecFindingRecord :=
  store.index.readFinding (trim findingId)

def setPhase (c : Nat) (call : TerminalCall) (phase : TerminalPhase) : Terminals :=
  { w with calls := w.calls.set c { call with phase } }

def valueOf (call : TerminalCall) (verdict : Verdict) : TgSecTerminalValue where
  claim := call.args.claim
  lane := call.lane
  status := verdict.status
  reason := verdict.reason
  findingId := trimmed call.args.findingId
  snapshotId := trimmed call.args.snapshotId
  note := trimmed call.args.note
  declaredAt := w.store.clock
  verifiedAt := if verdict.status = .verified then w.store.clock else 0

/-- A call has its verdict. -/
def declare (c : Nat) (call : TerminalCall) (verdict : Verdict) : Terminals :=
  w.setPhase c call (.declaring (w.valueOf call verdict) w.now)

/-- The checks of `execute` and of the evaluation that come before the first read. -/
def accepts (lane : SecAgentLane) (args : TerminalArgs) : Bool :=
  args.claim = terminalClaimForLane lane &&
    if args.claim = .getflag then trimmed args.flag ≠ [] else trimmed args.findingId ≠ []

variable (sha256 : List UInt8 → Text)

def step (w : Terminals) : TerminalEvent → Option Terminals
  | .store event =>
    (w.store.step sha256 event).map fun store => { w with store, past := w.past ++ [store] }
  | .start lane args =>
    if accepts lane args then some { w with calls := w.calls ++ [⟨lane, args, w.now, .validating⟩] }
    else some w
  | .read c =>
    w.calls[c]?.bind fun call =>
      match call.phase with
      | .validating =>
        if call.args.claim = .getflag then none
        else match judgeFinding call.args.claim (trimmed call.args.findingId)
            (getFinding w.store (trimmed call.args.findingId)) with
          | .verdict verdict => some (w.declare c call verdict)
          | .evidence finding => some (w.setPhase c call (.listing finding w.now))
      | .listing finding _ =>
        some (w.declare c call (judgeSet (trimmed call.args.findingId) (trimmed call.args.snapshotId) finding
          (w.store.index.readSet (trimmed call.args.findingId))))
      | _ => none
  | .answer c accepted =>
    w.calls[c]?.bind fun call =>
      match call.phase with
      | .validating =>
        if call.args.claim = .getflag then some (w.declare c call (judgeFlag accepted)) else none
      | _ => none
  | .commit c =>
    w.calls[c]?.bind fun call =>
      match call.phase with
      | .declaring value looked =>
        some { w.setPhase c call .ended with
          documents := Assoc.set (terminalKey value.lane value.claim) value w.documents,
          commits := ⟨value, call.started, looked, w.now⟩ :: w.commits }
      | _ => none
  | .stops c => w.calls[c]?.map fun call => w.setPhase c call .ended

/-! ### What a declaration says -/

/-- A finding is registered, of severity high or critical, and verified. -/
def qualifies (store : EvidenceStore) (findingId : Text) : Bool :=
  (getFinding store findingId).any fun finding => isHighOrCritical finding && isVerifiedStatus finding

/-- **What a verified declaration says of a store.** -/
def proves (store : EvidenceStore) (value : TgSecTerminalValue) : Bool :=
  qualifies store value.findingId &&
    (value.claim ≠ .getshell || hasEvidence (store.index.readSet value.findingId) value.snapshotId)

/-- **A verified terminal was true**, and the declaration that is stored is the one that looked last. -/
structure Honest (w : Terminals) : Prop where
  proved : ∀ commit ∈ w.commits, commit.value.status = .verified → commit.value.claim ≠ .getflag →
    ∃ moment, commit.started ≤ moment ∧ moment ≤ commit.committed ∧
      ∃ store, w.past[moment]? = some store ∧ proves store commit.value = true
  latest : ∀ key value, Assoc.get key w.documents = some value → ∃ commit ∈ w.commits,
    commit.key = key ∧ commit.value = value ∧
      ∀ other ∈ w.commits, other.key = key → other.looked ≤ commit.looked

/-- **What a call read holds at its next read**, and a call commits behind those that looked before it. -/
def inOrder (w : Terminals) : TerminalEvent → Bool
  | .read c => w.calls[c]?.all fun call =>
    match call.phase with
    | .listing _ foundAt =>
      qualifies w.store (trimmed call.args.findingId) || w.past[foundAt]?.any fun store =>
          hasEvidence (store.index.readSet (trimmed call.args.findingId)) (trimmed call.args.snapshotId)
    | _ => true
  | .commit c => w.calls[c]?.all fun call =>
    match call.phase with
    | .declaring value looked => w.commits.all fun commit =>
        commit.key ≠ terminalKey value.lane value.claim || commit.looked ≤ looked
    | _ => true
  | _ => true

/-! ### The invariant -/

/-- A moment of a call at which its declaration holds. -/
def ProvedAt (w : Terminals) (started until_ : Nat) (value : TgSecTerminalValue) : Prop :=
  ∃ moment, started ≤ moment ∧ moment ≤ until_ ∧
    ∃ store, w.past[moment]? = some store ∧ proves store value = true

/-- A declaration is verified, of a finding. -/
def OfFinding (value : TgSecTerminalValue) : Prop :=
  value.status = .verified ∧ value.claim ≠ .getflag

/-- What holds where a call is. -/
def Stands (w : Terminals) (call : TerminalCall) : TerminalPhase → Prop
  | .validating => True
  | .listing _ foundAt => call.started ≤ foundAt ∧ foundAt ≤ w.now ∧ call.args.claim = .getshell ∧
      ∃ store, w.past[foundAt]? = some store ∧ qualifies store (trimmed call.args.findingId) = true
  | .declaring value looked => looked ≤ w.now ∧ (OfFinding value → w.ProvedAt call.started looked value)
  | .ended => True

/-- What holds in every state. -/
structure Inv (w : Terminals) : Prop where
  present : w.past.getLast? = some w.store
  started : ∀ call ∈ w.calls, call.started ≤ w.now
  stands : ∀ call ∈ w.calls, w.Stands call call.phase
  proved : ∀ commit ∈ w.commits, OfFinding commit.value →
    w.ProvedAt commit.started commit.committed commit.value
  latest : ∀ key value, Assoc.get key w.documents = some value → ∃ commit ∈ w.commits,
    commit.key = key ∧ commit.value = value ∧
      ∀ other ∈ w.commits, other.key = key → other.looked ≤ commit.looked

variable {w after : Terminals} {sha256 : List UInt8 → Text}

theorem Inv.honest (inv : Inv w) : Honest w where
  proved commit isIn verified claim := inv.proved commit isIn ⟨verified, claim⟩
  latest := inv.latest

/-- The present store is that of the present moment. -/
theorem Inv.store_now (inv : Inv w) : w.past[w.now]? = some w.store := by
  rw [now, ← List.getLast?_eq_getElem?]
  exact inv.present

/-- The stores that there were stay. -/
theorem getElem?_past {moment : Nat} {store : EvidenceStore} (more : w.past <+: after.past)
    (is : w.past[moment]? = some store) : after.past[moment]? = some store := by
  obtain ⟨later, same⟩ := more
  rw [← same, List.getElem?_append_left (List.getElem?_eq_some_iff.mp is).1, is]

theorem ProvedAt.later {started until_ : Nat} {value : TgSecTerminalValue}
    (proved : w.ProvedAt started until_ value) (more : w.past <+: after.past) :
    after.ProvedAt started until_ value := by
  obtain ⟨moment, from_, within, store, is, holds⟩ := proved
  exact ⟨moment, from_, within, store, getElem?_past more is, holds⟩

theorem ProvedAt.widen {started until_ last : Nat} {value : TgSecTerminalValue}
    (proved : w.ProvedAt started until_ value) (more : until_ ≤ last) : w.ProvedAt started last value := by
  obtain ⟨moment, from_, within, rest⟩ := proved
  exact ⟨moment, from_, within.trans more, rest⟩

theorem Stands.later {call : TerminalCall} {phase : TerminalPhase} (stands : w.Stands call phase)
    (more : w.past <+: after.past) : after.Stands call phase := by
  have later : w.now ≤ after.now := Nat.sub_le_sub_right more.length_le 1
  cases phase with
  | validating => trivial
  | listing finding foundAt =>
    obtain ⟨from_, within, claim, store, is, holds⟩ := stands
    exact ⟨from_, within.trans later, claim, store, getElem?_past more is, holds⟩
  | declaring value looked =>
    obtain ⟨within, proved⟩ := stands
    exact ⟨within.trans later, fun is => (proved is).later more⟩
  | ended => trivial

/-! ### What a verdict rests on -/

theorem judgeFinding_verdict {claim : TgSecTerminalClaim} {found : Option TgSecFindingRecord}
    {verdict : Verdict} (judged : judgeFinding claim findingId found = .verdict verdict)
    (verified : verdict.status = .verified) : claim = .highCriticalFinding ∧
      found.any (fun finding => isHighOrCritical finding && isVerifiedStatus finding) = true := by
  unfold judgeFinding at judged
  cases found with
  | none =>
    cases judged
    cases verified
  | some finding =>
    dsimp only at judged
    split_ifs at judged with severity status is
    · cases judged
      cases verified
    · cases judged
      cases verified
    · exact ⟨is, by simpa using And.intro severity status⟩

theorem judgeFinding_evidence {claim : TgSecTerminalClaim} {found : Option TgSecFindingRecord}
    {finding : TgSecFindingRecord}
    (judged : judgeFinding claim findingId found = .evidence finding) :
    claim ≠ .highCriticalFinding ∧
      found.any (fun finding => isHighOrCritical finding && isVerifiedStatus finding) = true := by
  unfold judgeFinding at judged
  cases found with
  | none => cases judged
  | some finding =>
    dsimp only at judged
    split_ifs at judged with severity status is
    exact ⟨is, by simpa using And.intro severity status⟩

theorem judgeSet_verified {snapshotId : Text} {finding : TgSecFindingRecord}
    {set : TgSecEvidenceSet}
    (verified : (judgeSet findingId snapshotId finding set).status = .verified) :
    hasEvidence set snapshotId = true := by
  unfold judgeSet at verified
  dsimp only at verified
  split_ifs at verified with named missing none_
  · simpa using missing
  · simpa using none_

/-! ### Every step keeps the invariant -/

theorem inv_empty : Inv empty where
  present := rfl
  started _ isIn := absurd isIn not_mem_nil
  stands _ isIn := absurd isIn not_mem_nil
  proved _ isIn := absurd isIn not_mem_nil
  latest key value stored := by cases stored

theorem Inv.store (inv : Inv w) (store : EvidenceStore) :
    Inv { w with store, past := w.past ++ [store] } := by
  have more : w.past <+: w.past ++ [store] := prefix_append _ _
  have later : w.now ≤ (⟨store, w.calls, w.documents, w.past ++ [store], w.commits⟩ : Terminals).now :=
    Nat.sub_le_sub_right more.length_le 1
  exact {
    present := List.getLast?_concat
    started := fun call isIn => (inv.started call isIn).trans later
    stands := fun call isIn => (inv.stands call isIn).later more
    proved := fun commit isIn is => (inv.proved commit isIn is).later more
    latest := inv.latest }

theorem Inv.start (inv : Inv w) (lane : SecAgentLane) (args : TerminalArgs) :
    Inv { w with calls := w.calls ++ [⟨lane, args, w.now, .validating⟩] } where
  present := inv.present
  started := List.forall_mem_append.mpr ⟨inv.started, List.forall_mem_singleton.mpr (Nat.le_refl _)⟩
  stands := List.forall_mem_append.mpr
    ⟨fun call isIn => (inv.stands call isIn).later (prefix_refl _), List.forall_mem_singleton.mpr trivial⟩
  proved := inv.proved
  latest := inv.latest

theorem Inv.setPhase (inv : Inv w) {c : Nat} {call : TerminalCall} (found : w.calls[c]? = some call)
    {phase : TerminalPhase} (stands : w.Stands call phase) : Inv (w.setPhase c call phase) where
  present := inv.present
  started other isIn := by
    rcases mem_or_eq_of_mem_set isIn with old | rfl
    · exact inv.started other old
    · exact inv.started call (mem_of_getElem? found)
  stands other isIn := by
    rcases mem_or_eq_of_mem_set isIn with old | rfl
    · exact (inv.stands other old).later (prefix_refl _)
    · -- A call stands by when it started, which it keeps.
      cases phase <;> exact stands
  proved := inv.proved
  latest := inv.latest

/-- A verdict that rests on what was read by now. -/
theorem Inv.declare (inv : Inv w) {call : TerminalCall} (found : w.calls[c]? = some call)
    {verdict : Verdict}
    (holds : verdict.status = .verified → call.args.claim ≠ .getflag →
      w.ProvedAt call.started w.now (w.valueOf call verdict)) :
    Inv (w.declare c call verdict) :=
  inv.setPhase found ⟨Nat.le_refl _, fun is => holds is.1 is.2⟩

/-- A read of the finding, or of its evidence. -/
theorem inv_read (inv : Inv w) (good : inOrder w (.read c) = true)
    (stepped : w.step sha256 (.read c) = some after) : Inv after := by
  obtain ⟨call, found, rest⟩ := Option.bind_eq_some_iff.mp stepped
  have isIn := mem_of_getElem? found
  have started := inv.started call isIn
  have stands := inv.stands call isIn
  rw [inOrder, found, Option.all_some] at good
  cases phase : call.phase with
  | validating =>
    rw [phase] at rest
    dsimp only at rest
    split at rest
    · cases rest
    · rename_i claim
      split at rest
      · rename_i verdict judged
        cases rest
        refine inv.declare found fun verified _ => ?_
        obtain ⟨is, holds⟩ := judgeFinding_verdict judged verified
        refine ⟨w.now, started, Nat.le_refl _, w.store, inv.store_now, ?_⟩
        unfold proves
        rw [Bool.and_eq_true_iff]
        refine ⟨holds, ?_⟩
        rw [show (w.valueOf call verdict).claim = call.args.claim from rfl, is]
        rfl
      · rename_i finding judged
        cases rest
        obtain ⟨other, holds⟩ := judgeFinding_evidence judged
        refine inv.setPhase found ⟨started, Nat.le_refl _, ?_, w.store, inv.store_now, holds⟩
        cases is : call.args.claim with
        | getshell => rfl
        | getflag => exact absurd is claim
        | highCriticalFinding => exact absurd is other
  | listing finding foundAt =>
    rw [phase] at rest stands good
    obtain ⟨from_, within, claim, store, is, held⟩ := stands
    cases rest
    refine inv.declare found fun verified _ => ?_
    have evidence := judgeSet_verified verified
    have shown (s : EvidenceStore) (qualified : qualifies s (trimmed call.args.findingId) = true)
        (bound : hasEvidence (s.index.readSet (trimmed call.args.findingId)) (trimmed call.args.snapshotId) =
          true) (verdict : Verdict) : proves s (w.valueOf call verdict) = true := by
      unfold proves
      rw [Bool.and_eq_true_iff, Bool.or_eq_true_iff]
      exact ⟨qualified, .inr bound⟩
    rcases Bool.or_eq_true_iff.mp good with still | already
    · exact ⟨w.now, started, Nat.le_refl _, w.store, inv.store_now, shown _ still evidence _⟩
    · rw [is, Option.any_some] at already
      exact ⟨foundAt, from_, within, store, is, shown _ held already _⟩
  | declaring value looked | ended =>
    rw [phase] at rest
    cases rest

theorem inv_commit (inv : Inv w) (good : inOrder w (.commit c) = true)
    (stepped : w.step sha256 (.commit c) = some after) : Inv after := by
  obtain ⟨call, found, rest⟩ := Option.bind_eq_some_iff.mp stepped
  have stands := inv.stands call (mem_of_getElem? found)
  rw [inOrder, found, Option.all_some] at good
  cases phase : call.phase with
  | declaring value looked =>
    rw [phase] at rest stands good
    obtain ⟨within, proved⟩ := stands
    cases rest
    have ended := @Inv.setPhase w inv c call found .ended trivial
    have last : ∀ commit ∈ w.commits, commit.key = terminalKey value.lane value.claim →
        commit.looked ≤ looked := by
      intro commit isIn same
      have either := List.all_eq_true.mp good commit isIn
      simpa [same] using either
    exact {
      present := inv.present
      started := ended.started
      stands := fun other isIn => (ended.stands other isIn).later (prefix_refl _)
      proved := List.forall_mem_cons.mpr ⟨fun is => (proved is).widen within, inv.proved⟩
      latest := by
        intro key stored at_
        by_cases same : terminalKey value.lane value.claim = key
        · subst same
          rw [Assoc.get_set_self] at at_
          cases at_
          exact ⟨_, mem_cons_self, rfl, rfl,
            List.forall_mem_cons.mpr ⟨fun _ => Nat.le_refl _, last⟩⟩
        · rw [Assoc.get_set_ne same] at at_
          obtain ⟨commit, isIn, isKey, isValue, newest⟩ := inv.latest key stored at_
          exact ⟨commit, mem_cons_of_mem _ isIn, isKey, isValue,
            List.forall_mem_cons.mpr ⟨fun is => absurd is same, newest⟩⟩ }
  | validating | listing finding foundAt | ended =>
    rw [phase] at rest
    cases rest

/-- **A step that meets the condition keeps the invariant.** -/
theorem inv_step (inv : Inv w) {event : TerminalEvent} (good : inOrder w event = true)
    (stepped : w.step sha256 event = some after) : Inv after := by
  cases event with
  | store event =>
    obtain ⟨store, -, rfl⟩ := Option.map_eq_some_iff.mp stepped
    exact inv.store store
  | start lane args =>
    unfold step at stepped
    dsimp only at stepped
    split at stepped <;> cases stepped
    · exact inv.start lane args
    · exact inv
  | read c => exact inv_read inv good stepped
  | answer c accepted =>
    obtain ⟨call, found, rest⟩ := Option.bind_eq_some_iff.mp stepped
    split at rest
    · split at rest <;> cases rest
      rename_i claim
      exact inv.declare found fun _ other => absurd claim other
    · cases rest
  | commit c => exact inv_commit inv good stepped
  | stops c =>
    obtain ⟨call, found, rfl⟩ := Option.map_eq_some_iff.mp stepped
    exact inv.setPhase found trivial

/-- **A verified terminal was true**, and the stored declaration looked last, in every state of every run whose
steps all meet the condition. -/
theorem honest_run (sha256 : List UInt8 → Text) (events : List TerminalEvent)
    (good : Runs.meets (step sha256) inOrder empty events = true) :
    ∀ w ∈ Runs.states (step sha256) empty events, Honest w := by
  have all := (Runs.isChain_of_meets (R := fun _ _ => True)
    (fun w event after inv good stepped => ⟨inv_step inv good stepped, trivial⟩) inv_empty good).1
  exact fun w isIn => (all w isIn).honest

/-! ### A shell -/

/-- The demo recording, and a finding that is verified. -/
def verifiedEvents : List StoreEvent :=
  EvidenceStore.recordEvents ++ [.writeFinding ⟨text "F-1", none, some (text "web"), some (text "RCE"),
      some (text "high"), none, none⟩,
    .writeFinding ⟨text "F-1", none, none, none, none, some (text "verified"), none⟩]

/-- The recording is bound to the finding. -/
def bindEvent : StoreEvent := .bind (text "F-1") none [⟨EvidenceStore.demoId, none, none⟩]

def shellArgs : TerminalArgs := ⟨.getshell, some (text "F-1"), none, none, none⟩

/-- A call whose finding has its evidence. -/
def provedEvents : List TerminalEvent :=
  (verifiedEvents ++ [bindEvent]).map .store ++ [.start .redteam shellArgs, .read 0, .read 0, .commit 0]

/-- The finding is given up between the two reads of a call, and gets its evidence after that. -/
def shellEvents : List TerminalEvent :=
  verifiedEvents.map .store ++ [.start .redteam shellArgs, .read 0,
    .store (.writeFinding ⟨text "F-1", none, none, none, none, some (text "wontfix"), none⟩),
    .store bindEvent, .read 0, .commit 0]

/-- What is committed at the end of a run, and whether no store of the run proves it. -/
def verdicts (events : List TerminalEvent) :
    Option (List (TgSecTerminalStatus × TgSecTerminalClaim × Bool)) :=
  (Runs.states (step EvidenceStore.demoSha256) empty events).getLast?.map fun w =>
    w.commits.map fun commit =>
      (commit.value.status, commit.value.claim, w.past.all fun store => !proves store commit.value)

theorem shell_runs : verdicts provedEvents = some [(.verified, .getshell, false)] ∧
    Runs.meets (step EvidenceStore.demoSha256) inOrder empty provedEvents = true ∧
    verdicts shellEvents = some [(.verified, .getshell, true)] := by
  decide +kernel

/-- A shell that its finding proves. -/
theorem honest_shell : ∃ w ∈ Runs.states (step EvidenceStore.demoSha256) empty provedEvents,
    w.commits.length = 1 ∧ Honest w := by
  obtain ⟨w, isLast, facts⟩ := Option.map_eq_some_iff.mp shell_runs.1
  have isIn := mem_of_getLast? isLast
  refine ⟨w, isIn, ?_, honest_run _ _ shell_runs.2.1 w isIn⟩
  rw [← length_map, facts]
  rfl

/-- **A shell is verified on a finding that was given up before it had evidence.** -/
theorem shell_declared : ¬∀ w ∈ Runs.states (step EvidenceStore.demoSha256) empty shellEvents, Honest w := by
  intro honest
  obtain ⟨w, isLast, facts⟩ := Option.map_eq_some_iff.mp shell_runs.2.2
  obtain ⟨commit, only, is⟩ := List.map_eq_singleton_iff.mp facts
  obtain ⟨status, rest⟩ := Prod.mk.inj is
  obtain ⟨claim, never⟩ := Prod.mk.inj rest
  obtain ⟨moment, -, -, store, found, holds⟩ := (honest w (mem_of_getLast? isLast)).proved commit
    (only ▸ mem_singleton_self commit) status (by rw [claim]; decide)
  have not_ := List.all_eq_true.mp never store (mem_of_getElem? found)
  rw [holds] at not_
  cases not_

end Terminals

end TianGong.SecAgent

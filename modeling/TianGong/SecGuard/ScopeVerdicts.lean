/-
**Scope verdicts.**

`Permits` is what a list of entries permits: a host that some enabled allow entry accepts, and no enabled
deny entry. It does not depend on the order of the entries, nor on the disabled ones.

* `inScope_iff`: a request is in scope when each of its targets is permitted.
* `scope_verdicts`: so verdicts are free of the order, and deny entries only narrow them, and allow
  entries only widen them.
-/

import TianGong.SecGuard.ScopeRegistry

namespace TianGong.SecGuard

variable {rules others : List TgSecScopeRule} {host : Text}

section Verdicts

variable (L : LowerCase)

/-! ### Entries -/

/-- An entry that compiles. -/
def Valid (rule : TgSecScopeRule) : Prop := ∃ accepts, compileRule L rule = .ok accepts

/-- An entry accepts a host. -/
def Accepts (rule : TgSecScopeRule) (host : Text) : Prop :=
  ∃ accepts, compileRule L rule = .ok accepts ∧ accepts host = true

/-- An enabled entry of an effect accepts a host. -/
def Listed (rules : List TgSecScopeRule) (effect : TgSecScopeEffect) (host : Text) : Prop :=
  ∃ rule ∈ rules, rule.enabled = true ∧ rule.effect = effect ∧ Accepts L rule host

/-- A host that a list of entries permits: deny entries outrank allow entries. -/
def Permits (rules : List TgSecScopeRule) (host : Text) : Prop :=
  Listed L rules .allow host ∧ ¬Listed L rules .deny host

theorem listed_cons (rule : TgSecScopeRule) (rules : List TgSecScopeRule) (effect : TgSecScopeEffect)
    (host : Text) : Listed L (rule :: rules) effect host ↔
      (rule.enabled = true ∧ rule.effect = effect ∧ Accepts L rule host) ∨ Listed L rules effect host := by
  simp only [Listed, List.mem_cons, exists_eq_or_imp]

/-- What is listed is a matter of the enabled entries. -/
theorem Listed.mono {effect : TgSecScopeEffect}
    (within : ∀ rule ∈ rules, rule.enabled = true → rule.effect = effect → rule ∈ others)
    (listed : Listed L rules effect host) : Listed L others effect host := by
  obtain ⟨rule, member, enabled, same, accepts⟩ := listed
  exact ⟨rule, within rule member enabled same, enabled, same, accepts⟩

/-! ### The registry -/

/-- The entries of a registry, compiled. -/
theorem compiled_spec (valid : ∀ rule ∈ rules, Valid L rule) :
    ∃ compiled, (rules.mapM fun rule => (compileRule L rule).map (CompiledScopeRule.mk rule)) =
        .ok compiled ∧
      compiled.map CompiledScopeRule.rule = rules ∧
      ∀ entry ∈ compiled, compileRule L entry.rule = .ok entry.matchesHost := by
  induction rules with
  | nil => exact ⟨[], rfl, rfl, fun _ isIn => (List.not_mem_nil isIn).elim⟩
  | cons rule rules ih =>
    obtain ⟨compiled, built, same, each⟩ := ih fun other isIn => valid other (List.mem_cons_of_mem _ isIn)
    obtain ⟨accepts, compiles⟩ := valid rule List.mem_cons_self
    refine ⟨⟨rule, accepts⟩ :: compiled, ?_, ?_, ?_⟩
    · rw [List.mapM_cons, compiles, built]
      rfl
    · rw [List.map_cons, same]
    · exact List.forall_mem_cons.mpr ⟨compiles, each⟩

/-- The first entry of an effect that accepts a host. -/
theorem find_isSome_iff {compiled : List CompiledScopeRule} (effect : TgSecScopeEffect) (host : Text)
    (each : ∀ entry ∈ compiled, compileRule L entry.rule = .ok entry.matchesHost) :
    ((((compiled.filter fun entry => entry.rule.enabled).filter fun entry =>
        entry.rule.effect = effect).find? fun entry => entry.matchesHost host).isSome = true) ↔
      Listed L (compiled.map CompiledScopeRule.rule) effect host := by
  rw [List.find?_isSome]
  simp only [List.mem_filter, decide_eq_true_eq, Listed, List.mem_map]
  constructor
  · rintro ⟨entry, ⟨⟨member, enabled⟩, same⟩, hit⟩
    exact ⟨entry.rule, ⟨entry, member, rfl⟩, enabled, same, entry.matchesHost, each entry member, hit⟩
  · rintro ⟨_, ⟨entry, member, rfl⟩, enabled, same, accepts, compiles, hit⟩
    rw [each entry member] at compiles
    cases compiles
    exact ⟨entry, ⟨⟨member, enabled⟩, same⟩, hit⟩

/-- **The registry of valid entries permits what they permit.** -/
theorem contains_iff (valid : ∀ rule ∈ rules, Valid L rule) :
    ∃ registry, createTgSecScopeRegistry L rules = .ok registry ∧
      ∀ host, registry.contains host = true ↔ Permits L rules host := by
  obtain ⟨compiled, built, same, each⟩ := compiled_spec L valid
  refine ⟨registryOf compiled, ?_, fun host => ?_⟩
  · unfold createTgSecScopeRegistry
    rw [built]
    rfl
  · have deny := find_isSome_iff L .deny host each
    have allow := find_isSome_iff L .allow host each
    rw [same] at deny allow
    unfold Permits
    rw [← deny, ← allow]
    unfold TgSecScopeRegistry.contains registryOf findVerdict
    dsimp only
    cases List.find? (fun entry => entry.matchesHost host) (List.filter (fun entry =>
        entry.rule.effect = .deny) (compiled.filter fun entry => entry.rule.enabled)) with
    | some entry => simp
    | none =>
      cases List.find? (fun entry => entry.matchesHost host) (List.filter (fun entry =>
          entry.rule.effect = .allow) (compiled.filter fun entry => entry.rule.enabled)) with
      | some entry => simp
      | none => simp

/-! ### The resolver -/

/-- Whether a request is in scope of a list of entries, or what compiling them throws. -/
def scopeAnswer (rules : List TgSecScopeRule) (request : TgSecRequest) : Except Text Bool :=
  (createTgSecScopeRegistry L rules).map fun registry =>
    (createTgSecScopeResolver L registry request).inScope

/-- **A registry is asked about every target.** -/
theorem inScope_iff (registry : TgSecScopeRegistry) (request : TgSecRequest) :
    (createTgSecScopeResolver L registry request).inScope = true ↔
      ∀ target ∈ extractConnectionTargets L request, registry.contains target.1 = true := by
  have allowed (target : Text × TgSecTargetEvidence) :
      refusal registry target = none ↔ registry.contains target.1 = true := by
    unfold refusal TgSecScopeRegistry.contains
    cases registry.outcome target.1 <;> simp
  unfold createTgSecScopeResolver
  cases refused : (extractConnectionTargets L request).findSome? (refusal registry) with
  | none =>
    rw [List.findSome?_eq_none_iff] at refused
    simp only [true_iff]
    exact fun target member => (allowed target).mp (refused target member)
  | some reason =>
    obtain ⟨target, member, found⟩ := List.exists_of_findSome?_eq_some refused
    simp only [Bool.false_eq_true, false_iff]
    intro all
    rw [(allowed target).mpr (all target member)] at found
    cases found

/-- A request whose targets are all permitted. -/
def InScope (rules : List TgSecScopeRule) (request : TgSecRequest) : Prop :=
  ∀ target ∈ extractConnectionTargets L request, Permits L rules target.1

/-- **Valid entries answer**, and a request is in scope when its targets are permitted. -/
theorem scopeAnswer_iff (valid : ∀ rule ∈ rules, Valid L rule) (request : TgSecRequest) :
    ∃ answer, scopeAnswer L rules request = .ok answer ∧ (answer = true ↔ InScope L rules request) := by
  obtain ⟨registry, built, permits⟩ := contains_iff L valid
  refine ⟨_, by rw [scopeAnswer, built]; rfl, ?_⟩
  rw [inScope_iff]
  exact forall_congr' fun target => imp_congr_right fun _ => permits target.1

theorem scopeAnswer_congr {request : TgSecRequest} {answer : Bool}
    (valid : ∀ rule ∈ others, Valid L rule) (is : answer = true ↔ InScope L rules request)
    (same : InScope L others request ↔ InScope L rules request) :
    scopeAnswer L others request = .ok answer := by
  obtain ⟨other, found, otherIs⟩ := scopeAnswer_iff L valid request
  rw [found, Bool.eq_iff_iff.mpr (otherIs.trans (same.trans is.symm))]

/-- **What entries permit is a matter of the enabled ones.** -/
theorem inScope_congr (request : TgSecRequest)
    (within : ∀ rule ∈ rules, rule.enabled = true → rule ∈ others)
    (without : ∀ rule ∈ others, rule.enabled = true → rule ∈ rules) :
    InScope L others request ↔ InScope L rules request := by
  refine forall_congr' fun target => imp_congr_right fun _ => ?_
  have same (effect : TgSecScopeEffect) :
      Listed L others effect target.1 ↔ Listed L rules effect target.1 :=
    ⟨Listed.mono L fun rule member enabled _ => without rule member enabled,
      Listed.mono L fun rule member enabled _ => within rule member enabled⟩
  unfold Permits
  rw [same, same]

/-- **A deny entry permits nothing new.** -/
theorem permits_of_deny {rule : TgSecScopeRule} (deny : rule.effect = .deny)
    (permitted : Permits L (rule :: rules) host) : Permits L rules host := by
  obtain ⟨allowed, undenied⟩ := permitted
  rw [listed_cons] at allowed undenied
  refine ⟨allowed.resolve_left ?_, fun listed => undenied (.inr listed)⟩
  rintro ⟨-, allow, -⟩
  rw [deny] at allow
  cases allow

/-- **An allow entry permits no less.** -/
theorem permits_of_allow {rule : TgSecScopeRule} (allow : rule.effect = .allow)
    (permitted : Permits L rules host) : Permits L (rule :: rules) host := by
  obtain ⟨allowed, undenied⟩ := permitted
  rw [Permits, listed_cons, listed_cons]
  refine ⟨.inr allowed, ?_⟩
  rintro (⟨-, deny, -⟩ | listed)
  · rw [allow] at deny
    cases deny
  · exact undenied listed

/-- **Scope verdicts.** A request is in scope when each of its targets is accepted by an enabled allow
entry and by no enabled deny entry. That is the same for any order of the entries and without disabled
ones; a deny entry more brings nothing into scope, and an allow entry more takes nothing out of it; and
without an enabled allow entry only requests without a target are in scope. -/
theorem scope_verdicts {rules : List TgSecScopeRule} (valid : ∀ rule ∈ rules, Valid L rule)
    (request : TgSecRequest) :
    ∃ answer, scopeAnswer L rules request = .ok answer ∧
      (answer = true ↔ ∀ target ∈ extractConnectionTargets L request,
        (∃ rule ∈ rules, rule.enabled = true ∧ rule.effect = .allow ∧ Accepts L rule target.1) ∧
        ¬∃ rule ∈ rules, rule.enabled = true ∧ rule.effect = .deny ∧ Accepts L rule target.1) ∧
      (∀ others, others.Perm rules → scopeAnswer L others request = .ok answer) ∧
      (∀ others, others.Sublist rules → (∀ rule ∈ rules, rule.enabled = true → rule ∈ others) →
        scopeAnswer L others request = .ok answer) ∧
      (∀ rule others, Valid L rule → rule.effect = .deny → others.Perm (rule :: rules) →
        ∃ narrowed, scopeAnswer L others request = .ok narrowed ∧ (narrowed = true → answer = true)) ∧
      (∀ rule others, Valid L rule → rule.effect = .allow → others.Perm (rule :: rules) →
        ∃ widened, scopeAnswer L others request = .ok widened ∧ (answer = true → widened = true)) ∧
      ((∀ rule ∈ rules, ¬(rule.enabled = true ∧ rule.effect = .allow)) →
        (answer = true ↔ extractConnectionTargets L request = [])) := by
  obtain ⟨answer, found, is⟩ := scopeAnswer_iff L valid request
  -- An entry more, at any place.
  have more (rule : TgSecScopeRule) (others : List TgSecScopeRule) (compiles : Valid L rule)
      (perm : others.Perm (rule :: rules)) : ∃ after, scopeAnswer L others request = .ok after ∧
        (after = true ↔ InScope L (rule :: rules) request) := by
    have each : ∀ other ∈ others, Valid L other := by
      intro other member
      rcases List.mem_cons.mp (perm.mem_iff.mp member) with rfl | old
      · exact compiles
      · exact valid other old
    obtain ⟨after, answered, afterIs⟩ := scopeAnswer_iff L each request
    exact ⟨after, answered, afterIs.trans (inScope_congr L request
      (fun other member _ => perm.mem_iff.mpr member) fun other member _ => perm.mem_iff.mp member)⟩
  refine ⟨answer, found, is, ?_, ?_, ?_, ?_, ?_⟩
  · intro others perm
    exact scopeAnswer_congr L (fun rule member => valid rule (perm.mem_iff.mp member)) is
      (inScope_congr L request (fun rule member _ => perm.mem_iff.mpr member)
        fun rule member _ => perm.mem_iff.mp member)
  · intro others part kept
    exact scopeAnswer_congr L (fun rule member => valid rule (part.subset member)) is
      (inScope_congr L request kept fun rule member _ => part.subset member)
  · intro rule others compiles deny perm
    obtain ⟨after, answered, afterIs⟩ := more rule others compiles perm
    refine ⟨after, answered, fun inside => is.mpr fun target member => ?_⟩
    exact permits_of_deny L deny (afterIs.mp inside target member)
  · intro rule others compiles allow perm
    obtain ⟨after, answered, afterIs⟩ := more rule others compiles perm
    refine ⟨after, answered, fun inside => afterIs.mpr fun target member => ?_⟩
    exact permits_of_allow L allow (is.mp inside target member)
  · intro none
    rw [is]
    constructor
    · intro all
      rw [List.eq_nil_iff_forall_not_mem]
      intro target member
      obtain ⟨rule, inside, enabled, allow, -⟩ := (all target member).1
      exact none rule inside ⟨enabled, allow⟩
    · intro targetless target member
      rw [targetless] at member
      cases member

end Verdicts

theorem scope_verdicts_corp :
    ∃ answer, scopeAnswer asciiLowerCase [⟨.fuzzyHost, text "corp", .allow, true⟩]
        ⟨text "bash", [], .null⟩ = .ok answer ∧
      (answer = true ↔ ∀ target ∈ extractConnectionTargets asciiLowerCase ⟨text "bash", [], .null⟩,
        (∃ rule ∈ [(⟨.fuzzyHost, text "corp", .allow, true⟩ : TgSecScopeRule)], rule.enabled = true ∧
          rule.effect = .allow ∧ Accepts asciiLowerCase rule target.1) ∧
        ¬∃ rule ∈ [(⟨.fuzzyHost, text "corp", .allow, true⟩ : TgSecScopeRule)], rule.enabled = true ∧
          rule.effect = .deny ∧ Accepts asciiLowerCase rule target.1) := by
  obtain ⟨answer, found, is, -⟩ := scope_verdicts asciiLowerCase
    (show ∀ rule ∈ [(⟨.fuzzyHost, text "corp", .allow, true⟩ : TgSecScopeRule)],
        Valid asciiLowerCase rule from fun rule member => by
      rw [List.mem_singleton.mp member]
      exact ⟨_, rfl⟩) ⟨text "bash", [], .null⟩
  exact ⟨answer, found, is⟩

end TianGong.SecGuard

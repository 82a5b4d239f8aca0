/-
**Arguments more.**

Every view of a request is drawn from the strings of its arguments, each with its role: `Extends` is a
request with the strings of another one, and others. What a view shows of the fewer strings it shows of
all of them, so no verdict is cleared.

* `extends_surface`: the values and the streams of the fewer strings are among those of all of them.
* `extra_arguments`: nothing that is denied, dangerous or out of scope stops being so.
-/

import TianGong.SecGuard.Danger
import TianGong.SecGuard.ScopeVerdicts
import TianGong.SecGuard.Streams

namespace TianGong.SecGuard

open TianGong.Lib

variable {host : Text}

section Extra

variable (L : LowerCase)

/-- A request to the same tool, with every string of another request under its role. -/
structure Extends (request more : TgSecRequest) : Prop where
  sameTool : more.toolName = request.toolName
  strings : collectValues L .commandText request.arguments ⊆
    collectValues L .commandText more.arguments

variable {L} {request more : TgSecRequest}

/-! ### The views -/

theorem flatMap_subset {Item View : Type*} {few many : List Item} (view : Item → List View)
    (within : few ⊆ many) : few.flatMap view ⊆ many.flatMap view := by
  intro shown isIn
  obtain ⟨item, among, shows⟩ := List.mem_flatMap.mp isIn
  exact List.mem_flatMap.mpr ⟨item, within among, shows⟩

/-- A surface within another. -/
structure TgSecCommandSurface.Within (surface other : TgSecCommandSurface) : Prop where
  values : surface.values ⊆ other.values
  streams : surface.streams ⊆ other.streams
  targetStreams : surface.targetStreams ⊆ other.targetStreams

section Extend

variable (extend : Extends L request more)
include extend

/-- **Fewer strings, a smaller surface.** -/
theorem extends_surface :
    (extractCommandSurface L request).Within (extractCommandSurface L more) where
  values := List.map_subset _ extend.strings
  streams := flatMap_subset _ extend.strings
  targetStreams := flatMap_subset _ extend.strings

theorem extends_scan :
    (scanTextSurface L request).Within (scanTextSurface L more) where
  strings := (extends_surface extend).values
  commands := flatMap_subset _ (extends_surface extend).streams

/-! ### The targets -/

/-- The strong targets stay. -/
theorem strong_extends (target : (host, .strong) ∈ extractConnectionTargets L request) :
    (host, .strong) ∈ extractConnectionTargets L more := by
  obtain ⟨stream, streamed, shown⟩ := (mem_connectionTargets L _).mp target
  exact (mem_connectionTargets L _).mpr
    ⟨stream, (extends_surface extend).targetStreams streamed, shown⟩

/-- The hosts stay. -/
theorem hosts_extend (named : host ∈ Assoc.keys (extractConnectionTargets L request)) :
    host ∈ Assoc.keys (extractConnectionTargets L more) := by
  obtain ⟨stream, streamed, shown⟩ := (keys_connectionTargets L _).mp named
  exact (keys_connectionTargets L _).mpr
    ⟨stream, (extends_surface extend).targetStreams streamed, shown⟩

/-- **The targets stay**, each on its tier or on a stronger one. -/
theorem targets_extend {tier : TgSecTargetEvidence}
    (target : (host, tier) ∈ extractConnectionTargets L request) :
    ∃ later, (host, later) ∈ extractConnectionTargets L more ∧ (tier = .strong → later = .strong) := by
  by_cases strong : tier = .strong
  · subst strong
    exact ⟨.strong, strong_extends extend target, fun _ => rfl⟩
  · obtain ⟨⟨_, later⟩, member, rfl⟩ :=
      List.mem_map.mp (hosts_extend extend (List.mem_map_of_mem target))
    exact ⟨later, member, fun same => absurd same strong⟩

/-! ### The verdicts -/

theorem denied_extends (hostAddresses : List Text)
    (denied : (evaluateHardDeny L request hostAddresses).isSome = true) :
    (evaluateHardDeny L more hostAddresses).isSome = true := by
  obtain ⟨entry, collected, shown⟩ := (denied_iff L hostAddresses request).mp denied
  exact (denied_iff L hostAddresses more).mpr ⟨entry, extend.strings collected, shown⟩

theorem danger_extends (objective : TgSecObjective)
    (danger : (createTgSecDangerEvaluator L objective request).hit = true) :
    (createTgSecDangerEvaluator L objective more).hit = true := by
  obtain ⟨rule, among, armed, hits⟩ := (createTgSecDangerEvaluator_hit L objective request).mp danger
  refine (createTgSecDangerEvaluator_hit L objective more).mpr ⟨rule, among, armed, ?_⟩
  rw [extend.sameTool]
  exact DangerRule.monotone L rule among (extends_scan extend) request.toolName hits

theorem inScope_of_extends (registry : TgSecScopeRegistry)
    (within : (createTgSecScopeResolver L registry more).inScope = true) :
    (createTgSecScopeResolver L registry request).inScope = true := by
  rw [inScope_iff] at within ⊢
  rintro ⟨host, tier⟩ target
  obtain ⟨later, member, -⟩ := targets_extend extend target
  exact within (host, later) member

end Extend

variable (L request more)

/-- **Extra arguments clear no verdict.** A request to the same tool that has every string of another
one, each under its role, and any strings more, anywhere, has the targets of the other one, on the same
tier or a stronger one; it is denied where the other one is, dangerous where the other one is, and out
of the scope of every registry that the other one is out of. -/
theorem extra_arguments (sameTool : more.toolName = request.toolName)
    (strings : ∀ entry ∈ collectValues L .commandText request.arguments,
      entry ∈ collectValues L .commandText more.arguments) :
    (∀ host tier, (host, tier) ∈ extractConnectionTargets L request →
      ∃ later, (host, later) ∈ extractConnectionTargets L more ∧ (tier = .strong → later = .strong)) ∧
    (∀ hostAddresses, (evaluateHardDeny L request hostAddresses).isSome = true →
      (evaluateHardDeny L more hostAddresses).isSome = true) ∧
    (∀ objective, (createTgSecDangerEvaluator L objective request).hit = true →
      (createTgSecDangerEvaluator L objective more).hit = true) ∧
    (∀ registry, (createTgSecScopeResolver L registry request).inScope = false →
      (createTgSecScopeResolver L registry more).inScope = false) := by
  have extend : Extends L request more := ⟨sameTool, strings⟩
  refine ⟨fun host tier => targets_extend extend, denied_extends extend, danger_extends extend,
    fun registry outside => ?_⟩
  rw [Bool.eq_false_iff] at outside ⊢
  exact fun within => outside (inScope_of_extends extend registry within)

end Extra

theorem extra_arguments_two :
    (createTgSecDangerEvaluator asciiLowerCase .ctf
      ⟨text "bash", [], .array () [.string (text "-q"), .string (text "useradd eve")]⟩).hit = true :=
  (extra_arguments asciiLowerCase ⟨text "bash", [], .string (text "useradd eve")⟩
    ⟨text "bash", [], .array () [.string (text "-q"), .string (text "useradd eve")]⟩ rfl
    (by decide)).2.2.1 .ctf (by decide +kernel)

end TianGong.SecGuard

/-
**The ledger of a conversation.**

`usage.ts`: `tg.usage` holds what a conversation spent, by model and by tool.

* `addUsage`, `recordUsage`, `addUsageState`: one usage into another, into the ledger, and a ledger into
  a sum.
* `total_addUsage`: usages that are added one after the other are their sum.
* `recordUsage_bucket`, `addUsageState_bucket`: what a ledger and a sum of ledgers hold.

A number is anything that is added and has a zero; sums are taken in order.
-/

import Mathlib.Algebra.Group.Defs
import Mathlib.Data.List.Induction
import TianGong.Gibraltar.Live
import TianGong.Lib.Tally

namespace TianGong.Gibraltar

open List
open Tally

structure UsageCost (N : Type) where
  input : N
  output : N
  cacheRead : N
  cacheWrite : N
  total : N
  deriving DecidableEq

/-- `Usage`. A counter that the provider does not report is absent. -/
structure Usage (N : Type) where
  input : N
  output : N
  cacheRead : N
  cacheWrite : N
  cacheWrite1h : Option N
  reasoning : Option N
  totalTokens : N
  cost : UsageCost N
  deriving DecidableEq

inductive UsageBucket where
  | models
  | tools
  deriving DecidableEq

structure UsageState (N : Type) where
  models : List (Text × Usage N)
  tools : List (Text × Usage N)

namespace UsageState

variable {N : Type}

def initial : UsageState N := ⟨[], []⟩

/-- `state[bucket]`. -/
def bucket (state : UsageState N) : UsageBucket → List (Text × Usage N)
  | .models => state.models
  | .tools => state.tools

def setBucket (state : UsageState N) (totals : List (Text × Usage N)) : UsageBucket → UsageState N
  | .models => { state with models := totals }
  | .tools => { state with tools := totals }

theorem bucket_setBucket (state : UsageState N) (totals : List (Text × Usage N))
    (at_ other : UsageBucket) :
    (state.setBucket totals at_).bucket other = if at_ = other then totals else state.bucket other := by
  cases at_ <;> cases other <;> rfl

end UsageState

section Add

variable {N : Type} [Add N] [Zero N]

/-- An optional counter. -/
def addCounter (total usage : Option N) : Option N :=
  match usage with
  | some n => some (total.getD 0 + n)
  | none => total

def addUsage (total usage : Usage N) : Usage N where
  input := total.input + usage.input
  output := total.output + usage.output
  cacheRead := total.cacheRead + usage.cacheRead
  cacheWrite := total.cacheWrite + usage.cacheWrite
  cacheWrite1h := addCounter total.cacheWrite1h usage.cacheWrite1h
  reasoning := addCounter total.reasoning usage.reasoning
  totalTokens := total.totalTokens + usage.totalTokens
  cost :=
    { input := total.cost.input + usage.cost.input
      output := total.cost.output + usage.cost.output
      cacheRead := total.cost.cacheRead + usage.cost.cacheRead
      cacheWrite := total.cost.cacheWrite + usage.cost.cacheWrite
      total := total.cost.total + usage.cost.total }

def recordUsage (state : UsageState N) (bucket : UsageBucket) (key : Text) (usage : Usage N) :
    UsageState N :=
  let totals := state.bucket bucket
  match Assoc.get key totals with
  | none => state.setBucket (Assoc.set key usage totals) bucket
  | some total => state.setBucket (Assoc.set key (addUsage total usage) totals) bucket

/-- A bucket of `addUsageState`. -/
def addBucket (sum state : List (Text × Usage N)) : List (Text × Usage N) :=
  state.foldl (fun sum (key, usage) =>
    match Assoc.get key sum with
    | some total => Assoc.set key (addUsage total usage) sum
    | none => Assoc.set key usage sum) sum

def addUsageState (sum state : UsageState N) : UsageState N :=
  ⟨addBucket sum.models state.models, addBucket sum.tools state.tools⟩

/-! ### Entering -/

theorem recordUsage_bucket (state : UsageState N) (at_ other : UsageBucket) (key : Text)
    (usage : Usage N) :
    (recordUsage state at_ key usage).bucket other =
      if at_ = other then enter addUsage (state.bucket at_) (key, usage) else state.bucket other := by
  unfold recordUsage enter
  dsimp only
  cases Assoc.get key (state.bucket at_) with
  | none | some total => exact state.bucket_setBucket _ at_ other

theorem addBucket_eq (sum state : List (Text × Usage N)) :
    addBucket sum state = tally addUsage sum state := by
  unfold addBucket tally
  refine foldl_ext _ _ _ fun sum e _ => ?_
  obtain ⟨key, usage⟩ := e
  unfold enter
  dsimp only
  cases Assoc.get key sum <;> rfl

theorem addUsageState_bucket (sum state : UsageState N) (at_ : UsageBucket) :
    (addUsageState sum state).bucket at_ = tally addUsage (sum.bucket at_) (state.bucket at_) := by
  cases at_ <;> exact addBucket_eq _ _

/-! ### Sums -/

/-- The sum of numbers, in order. -/
def sum (numbers : List N) : N := numbers.foldl (· + ·) 0

/-- The sum of the counters that are reported. -/
def sumReported (counters : List (Option N)) : Option N :=
  if counters.all Option.isNone then none else some (sum (counters.filterMap id))

/-- **The sum of usages**, counter by counter. -/
def sumUsage (usages : List (Usage N)) : Option (Usage N) :=
  if usages = [] then none
  else some
    { input := sum (usages.map (·.input))
      output := sum (usages.map (·.output))
      cacheRead := sum (usages.map (·.cacheRead))
      cacheWrite := sum (usages.map (·.cacheWrite))
      cacheWrite1h := sumReported (usages.map (·.cacheWrite1h))
      reasoning := sumReported (usages.map (·.reasoning))
      totalTokens := sum (usages.map (·.totalTokens))
      cost :=
        { input := sum (usages.map (·.cost.input))
          output := sum (usages.map (·.cost.output))
          cacheRead := sum (usages.map (·.cost.cacheRead))
          cacheWrite := sum (usages.map (·.cost.cacheWrite))
          total := sum (usages.map (·.cost.total)) } }

theorem sum_concat (numbers : List N) (n : N) : sum (numbers ++ [n]) = sum numbers + n :=
  foldl_concat ..

end Add

section Zero

variable {N : Type} [AddZeroClass N]

theorem sum_singleton (n : N) : sum [n] = n := zero_add n

theorem sumReported_concat (counters : List (Option N)) (counter : Option N) :
    sumReported (counters ++ [counter]) = addCounter (sumReported counters) counter := by
  unfold sumReported
  rw [all_append, filterMap_append]
  cases counter with
  | none =>
    rw [filterMap_cons_none rfl, filterMap_nil, append_nil]
    simp [addCounter]
  | some n =>
    have last : [some n].filterMap id = [n] := rfl
    rw [last, sum_concat]
    by_cases absent : counters.all Option.isNone = true
    · have none : counters.filterMap id = [] := by
        refine List.filterMap_eq_nil_iff.mpr fun counter member => ?_
        exact Option.isNone_iff_eq_none.mp (List.all_eq_true.mp absent counter member)
      rw [if_pos absent, none]
      simp [addCounter, sum]
    · rw [if_neg absent]
      simp [addCounter]

theorem sumUsage_concat (usages : List (Usage N)) (usage : Usage N) :
    sumUsage (usages ++ [usage]) = plus addUsage (sumUsage usages) usage := by
  unfold sumUsage
  rw [if_neg (append_ne_nil_of_right_ne_nil _ (cons_ne_nil _ _))]
  by_cases none : usages = []
  · rw [if_pos none, none]
    simp only [nil_append, map_cons, map_nil, sum_singleton]
    have reported (counter : Option N) : sumReported [counter] = counter := by
      cases counter with
      | none => rfl
      | some n => exact congrArg some (sum_singleton n)
    rw [reported, reported]
    rfl
  · rw [if_neg none]
    simp only [map_append, map_cons, map_nil, sum_concat, sumReported_concat]
    rfl

/-- **Usages that are added one after the other** are their sum. -/
theorem total_addUsage (usages : List (Usage N)) : total addUsage usages = sumUsage usages := by
  induction usages using List.reverseRecOn with
  | nil => rfl
  | append_singleton usages usage ih => rw [total_concat, ih, sumUsage_concat]

end Zero

end TianGong.Gibraltar

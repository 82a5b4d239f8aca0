/-
**How a tool history is split for a transport.**

`ai/utils/transcript.ts`: a transport that can only add tools later gets the tools in effect after the
last other change in the request, and every later addition in place. A message of another role than
`system` is `none`.

* `findLastNonAdditiveToolChange_lt_iff`: the scan finds the last message that removes a tool or
  declares a name again.
* `getToolStateChanges_apply`: the changes between two tool states lead from the one to the other.
-/

import Mathlib.Data.List.Induction
import Mathlib.Order.Bounds.Basic
import TianGong.Ai.Transcript

namespace TianGong.Ai

open List
open TianGong.Lib

/-! ### The split -/

/-- The loop state: the names declared so far and the last index found. -/
structure DeclaredScan where
  declared : List Text
  last : Int

/-- One declaration of the message at an index. -/
def DeclaredScan.tool (index : Nat) (scan : DeclaredScan) (tool : Tool) : DeclaredScan where
  declared := if tool.name ∈ scan.declared then scan.declared else scan.declared ++ [tool.name]
  last := if tool.name ∈ scan.declared then index else scan.last

/-- One message. -/
def DeclaredScan.message (scan : DeclaredScan) (message : Changes × Nat) : DeclaredScan :=
  message.1.toolsAdded.foldl (DeclaredScan.tool message.2)
    { scan with last := if message.1.toolsRemoved.isEmpty then scan.last else message.2 }

def findLastNonAdditiveToolChange (systemMessages : List Changes) : Int :=
  (systemMessages.zipIdx.foldl DeclaredScan.message ⟨[], -1⟩).last

inductive TranscriptToolSupport where
  | none | additions | changes

structure TranscriptTools where
  requestTools : List Tool
  foldedSystemMessages : Nat

def resolveTranscriptTools (messages : List (Option Changes)) (support : TranscriptToolSupport) :
    TranscriptTools :=
  let systemMessages := messages.filterMap id
  match support with
  | .none => ⟨getCurrentTools systemMessages, systemMessages.length⟩
  | .changes => ⟨[], 0⟩
  | .additions =>
    let initial : Int := if (messages.head?.bind id).isSome then 1 else 0
    let folded := (max initial (findLastNonAdditiveToolChange systemMessages + 1)).toNat
    ⟨getCurrentTools (systemMessages.take folded), folded⟩

/-! ### What the scan finds -/

/-- The names that messages declare. -/
def declaredNames (messages : List Changes) : List Text :=
  messages.flatMap fun m => m.toolsAdded.map Tool.name

/-- **A change that is no addition**: a removal, or a name that was declared before. -/
def NonAdditive (before : List Changes) (m : Changes) : Prop :=
  m.toolsRemoved ≠ [] ∨ ¬(m.toolsAdded.map Tool.name).Nodup ∨
    ∃ tool ∈ m.toolsAdded, tool.name ∈ declaredNames before

instance (before : List Changes) (m : Changes) : Decidable (NonAdditive before m) :=
  inferInstanceAs (Decidable (_ ∨ _ ∨ _))

theorem mem_declared_foldl (index : Nat) (tools : List Tool) (scan : DeclaredScan) (name : Text) :
    name ∈ (tools.foldl (DeclaredScan.tool index) scan).declared ↔
      name ∈ scan.declared ∨ name ∈ tools.map Tool.name := by
  induction tools generalizing scan with
  | nil => simp
  | cons tool rest ih =>
    rw [foldl_cons, ih, DeclaredScan.tool, map_cons, mem_cons]
    dsimp only
    split_ifs with known
    · constructor
      · rintro (old | later)
        · exact .inl old
        · exact .inr (.inr later)
      · rintro (old | rfl | later)
        · exact .inl old
        · exact .inl known
        · exact .inr later
    · rw [mem_append, mem_singleton, or_assoc]

/-- Whether the declarations of one message repeat a name. -/
theorem last_foldl (index : Nat) (tools : List Tool) (scan : DeclaredScan) :
    (tools.foldl (DeclaredScan.tool index) scan).last =
      if (tools.map Tool.name).Nodup ∧ ∀ tool ∈ tools, tool.name ∉ scan.declared then scan.last
      else index := by
  induction tools generalizing scan with
  | nil => simp
  | cons tool rest ih =>
    rw [foldl_cons, ih, DeclaredScan.tool]
    dsimp only
    by_cases known : tool.name ∈ scan.declared
    · rw [if_pos known, if_pos known, ite_self, if_neg]
      exact fun fresh => fresh.2 tool mem_cons_self known
    · rw [if_neg known, if_neg known]
      refine if_congr ?_ rfl rfl
      rw [map_cons, nodup_cons, forall_mem_cons]
      simp only [mem_append, mem_singleton, not_or, mem_map]
      constructor
      · rintro ⟨once, fresh⟩
        exact ⟨⟨fun ⟨other, member, same⟩ => (fresh other member).2 same, once⟩, known,
          fun other member => (fresh other member).1⟩
      · rintro ⟨⟨absent, once⟩, -, fresh⟩
        exact ⟨once, fun other member => ⟨fresh other member, fun same =>
          absent ⟨other, member, same⟩⟩⟩

/-- The names the scan has seen. -/
theorem mem_declared (messages : List Changes) (name : Text) :
    name ∈ (messages.zipIdx.foldl DeclaredScan.message ⟨[], -1⟩).declared ↔
      name ∈ declaredNames messages := by
  induction messages using List.reverseRecOn with
  | nil => simp [declaredNames]
  | append_singleton front m ih =>
    rw [zipIdx_append, foldl_append]
    refine (mem_declared_foldl _ m.toolsAdded _ name).trans ?_
    dsimp only
    rw [ih, declaredNames, declaredNames, flatMap_append, mem_append]
    simp

variable (front : List Changes)

/-- **One message more.** -/
theorem findLastNonAdditiveToolChange_concat (m : Changes) :
    findLastNonAdditiveToolChange (front ++ [m]) =
      if NonAdditive front m then (front.length : Int) else findLastNonAdditiveToolChange front := by
  unfold findLastNonAdditiveToolChange
  rw [zipIdx_append, foldl_append]
  show (m.toolsAdded.foldl (DeclaredScan.tool _) _).last = _
  rw [last_foldl]
  dsimp only
  simp only [mem_declared, NonAdditive, List.isEmpty_iff, Nat.zero_add]
  by_cases removes : m.toolsRemoved = [] <;> by_cases once : (m.toolsAdded.map Tool.name).Nodup <;>
    by_cases again : ∃ tool ∈ m.toolsAdded, tool.name ∈ declaredNames front <;>
    simp_all

/-- **What the scan finds**: everything from an index on is additive exactly when the index is behind
what it found. -/
theorem findLastNonAdditiveToolChange_lt_iff (messages : List Changes) (k : Nat) :
    findLastNonAdditiveToolChange messages < k ↔
      ∀ i m, k ≤ i → messages[i]? = some m → ¬NonAdditive (messages.take i) m := by
  induction messages using List.reverseRecOn with
  | nil => simp [findLastNonAdditiveToolChange]; omega
  | append_singleton front m ih =>
    have own : ∀ i n, (front ++ [m])[i]? = some n →
        (front[i]? = some n ∧ (front ++ [m]).take i = front.take i) ∨
          (i = front.length ∧ n = m ∧ (front ++ [m]).take i = front) := by
      intro i n there
      rcases Nat.lt_trichotomy i front.length with inside | rfl | outside
      · rw [List.getElem?_append_left inside] at there
        exact .inl ⟨there, take_append_of_le_length inside.le⟩
      · rw [List.getElem?_concat_length] at there
        exact .inr ⟨rfl, (Option.some.inj there).symm, take_left⟩
      · rw [List.getElem?_eq_none (by simpa using Nat.succ_le_of_lt outside)] at there
        cases there
    rw [findLastNonAdditiveToolChange_concat]
    split_ifs with changes
    · constructor
      · intro behind i n after there
        rcases own i n there with ⟨found, -⟩ | ⟨rfl, -⟩
        · have bound := (List.getElem?_eq_some_iff.mp found).1
          omega
        · omega
      · intro additive
        by_contra before
        refine additive front.length m (by omega) List.getElem?_concat_length ?_
        rwa [take_left]
    · rw [ih]
      constructor
      · intro additive i n after there
        rcases own i n there with ⟨found, same⟩ | ⟨-, rfl, same⟩
        · rw [same]
          exact additive i n after found
        · rwa [same]
      · intro additive i n after found
        have bound := (List.getElem?_eq_some_iff.mp found).1
        have later := additive i n after ((List.getElem?_append_left bound).trans found)
        rwa [take_append_of_le_length bound.le] at later

/-! ### What the split loses -/

theorem declaredNames_append (later : List Changes) :
    declaredNames (front ++ later) = declaredNames front ++ declaredNames later :=
  flatMap_append

/-- The tools in effect were declared. -/
theorem name_mem_declaredNames {messages : List Changes} {tool : Tool}
    (member : tool ∈ getCurrentTools messages) : tool.name ∈ declaredNames messages := by
  have declared : ∀ e ∈ messages.foldl applyTools [], e.2.name ∈ declaredNames messages := by
    clear member
    induction messages using List.reverseRecOn with
    | nil => exact fun e inside => by cases inside
    | append_singleton front m ih =>
      rw [foldl_append]
      show ∀ e ∈ applyTools _ m, _
      rw [applyTools_eq, patch_removals, declaredNames_append]
      refine of_patch (P := fun _ (tool : Tool) => tool.name ∈ declaredNames front ++ declaredNames [m])
        (fun e inside => ?_) fun change inside value same => ?_
      · rw [(foldl_applyTools front).1] at inside
        have old := mem_of_mem_filter inside
        exact mem_append_left _ (ih e (by rwa [(foldl_applyTools front).1]))
      · obtain ⟨added, new, rfl⟩ := List.mem_map.mp inside
        cases same
        refine mem_append_right _ (List.mem_flatMap.mpr ⟨m, mem_singleton_self m, ?_⟩)
        exact mem_map_of_mem new
  obtain ⟨e, inside, rfl⟩ := List.mem_map.mp member
  exact declared e inside

/-- **Additions of new names stand behind the tools in effect.** -/
theorem getCurrentTools_append {later : List Changes}
    (additive : ∀ i m, later[i]? = some m → ¬NonAdditive (front ++ later.take i) m) :
    getCurrentTools (front ++ later) =
      getCurrentTools front ++ later.flatMap Changes.toolsAdded := by
  induction later using List.reverseRecOn with
  | nil => simp
  | append_singleton before m ih =>
    have same := ih fun i n there => by
      have bound := (List.getElem?_eq_some_iff.mp there).1
      have earlier := additive i n ((List.getElem?_append_left bound).trans there)
      rwa [take_append_of_le_length bound.le] at earlier
    have own := additive before.length m List.getElem?_concat_length
    rw [take_left, NonAdditive, not_or, not_or, not_not, not_not] at own
    obtain ⟨nothing, once, fresh⟩ := own
    obtain ⟨entries, currentOnce⟩ := foldl_applyTools (front ++ before)
    have whole : (front ++ (before ++ [m])).foldl applyTools [] =
        byName (getCurrentTools (front ++ before) ++ m.toolsAdded) := by
      rw [← append_assoc, foldl_append, entries]
      show applyTools _ m = _
      have both : byName (getCurrentTools (front ++ before) ++ m.toolsAdded) =
          byName (getCurrentTools (front ++ before)) ++ byName m.toolsAdded := map_append
      rw [applyTools_eq, nothing, ← byName_some, both]
      refine patch_additions _ _ (both ▸ byName_once ?_)
      rw [map_append]
      refine List.nodup_append.mpr ⟨currentOnce, once, ?_⟩
      rintro name old _ new rfl
      obtain ⟨tool, member, rfl⟩ := List.mem_map.mp old
      obtain ⟨other, added, named⟩ := List.mem_map.mp new
      exact fresh ⟨other, added, named ▸ name_mem_declaredNames member⟩
    rw [getCurrentTools, whole, byName_values, flatMap_append, ← append_assoc, ← same,
      flatMap_singleton]

/-- **The split is the least one, and loses nothing**: the tools of the request and the later additions
in order are the tools in effect, each name once. -/
theorem resolveTranscriptTools_additions (messages : List (Option Changes)) :
    IsLeast {k | ((messages.head?.bind id).isSome → 1 ≤ k) ∧
        ∀ i m, k ≤ i → (messages.filterMap id)[i]? = some m →
          ¬NonAdditive ((messages.filterMap id).take i) m}
      (resolveTranscriptTools messages .additions).foldedSystemMessages ∧
    (resolveTranscriptTools messages .additions).requestTools ++
        ((messages.filterMap id).drop
          (resolveTranscriptTools messages .additions).foldedSystemMessages).flatMap
            Changes.toolsAdded = getCurrentTools (messages.filterMap id) ∧
    ((getCurrentTools (messages.filterMap id)).map Tool.name).Nodup := by
  have least : ∀ k, (((messages.head?.bind id).isSome → 1 ≤ k) ∧
      ∀ i m, k ≤ i → (messages.filterMap id)[i]? = some m →
        ¬NonAdditive ((messages.filterMap id).take i) m) ↔
      (resolveTranscriptTools messages .additions).foldedSystemMessages ≤ k := by
    intro k
    rw [← findLastNonAdditiveToolChange_lt_iff]
    show _ ↔ (max (if (messages.head?.bind id).isSome then 1 else 0)
      (findLastNonAdditiveToolChange (messages.filterMap id) + 1) : Int).toNat ≤ k
    by_cases initial : (messages.head?.bind id).isSome = true
    · rw [if_pos initial]
      constructor
      · rintro ⟨atLeast, behind⟩
        have one := atLeast initial
        omega
      · exact fun bound => ⟨fun _ => by omega, by omega⟩
    · rw [if_neg initial]
      constructor
      · rintro ⟨-, behind⟩
        omega
      · exact fun bound => ⟨fun some_ => (initial some_).elim, by omega⟩
  have split := (least _).mpr le_rfl
  refine ⟨⟨split, fun k holds => (least k).mp holds⟩, ?_, (foldl_applyTools _).2⟩
  show getCurrentTools ((messages.filterMap id).take
    (resolveTranscriptTools messages .additions).foldedSystemMessages) ++ _ = _
  generalize (resolveTranscriptTools messages .additions).foldedSystemMessages = folded at *
  generalize messages.filterMap id = systemMessages at *
  have parts := take_append_drop folded systemMessages
  rw [← getCurrentTools_append (systemMessages.take folded) fun i m there => ?_, parts]
  rw [List.getElem?_drop] at there
  have own := split.2 (folded + i) m (Nat.le_add_right folded i) there
  rwa [take_add] at own

/-! ### Changes between two tool states -/

def getToolStateChanges (previous current : List Tool) : Changes :=
  let previousTools := previous.foldl (fun named tool => Assoc.set tool.name tool named) []
  let currentTools := current.foldl (fun named tool => Assoc.set tool.name tool named) []
  { sections := none
    toolsAdded := current.filter fun tool =>
      !(Assoc.get tool.name previousTools).any fun previousTool => declarationsEqual previousTool tool
    toolsRemoved := (previous.filter fun tool =>
      !(Assoc.get tool.name currentTools).any (declarationsEqual tool)).map Tool.name }

/-- Whether a tool state has a tool as it is. -/
theorem any_declarationsEqual {tools : List Tool} (once : (tools.map Tool.name).Nodup) (tool : Tool) :
    ((Assoc.get tool.name (tools.foldl (fun named tool => Assoc.set tool.name tool named) [])).any
      (declarationsEqual tool) = true ↔ tool ∈ tools) ∧
    ((Assoc.get tool.name (tools.foldl (fun named tool => Assoc.set tool.name tool named) [])).any
      (fun other => declarationsEqual other tool) = true ↔ tool ∈ tools) := by
  rw [foldl_set_byName once]
  cases found : Assoc.get tool.name (byName tools) with
  | none =>
    have absent : tool ∉ tools := fun member =>
      Assoc.get_eq_none_iff.mp found
        (List.mem_map.mpr ⟨(tool.name, tool), mem_byName.mpr ⟨member, rfl⟩, rfl⟩)
    simp [absent]
  | some other =>
    have there := (mem_byName.mp (Assoc.mem_of_get found)).1
    have same : tool ∈ tools → tool = other := fun member => Option.some.inj
      ((Assoc.get_of_mem (byName_once once) (mem_byName.mpr ⟨member, rfl⟩)).symm.trans found)
    rw [Option.any_some, Option.any_some, declarationsEqual_iff, declarationsEqual_iff]
    exact ⟨⟨fun is => is ▸ there, same⟩, ⟨fun is => is ▸ there, fun member => (same member).symm⟩⟩

section StateChanges

variable {previous current : List Tool}

/-- The previous tools that stay. -/
def stays (current : List Tool) (tool : Tool) : Bool :=
  (Assoc.get tool.name
    (current.foldl (fun named tool => Assoc.set tool.name tool named) [])).any (declarationsEqual tool)

theorem mem_toolsAdded (previousOnce : (previous.map Tool.name).Nodup) {tool : Tool} :
    tool ∈ (getToolStateChanges previous current).toolsAdded ↔ tool ∈ current ∧ tool ∉ previous := by
  refine List.mem_filter.trans (and_congr_right fun _ => ?_)
  rw [Bool.not_eq_true', ← Bool.not_eq_true]
  exact not_congr (any_declarationsEqual previousOnce tool).2

/-- What the removals leave of the previous tools. -/
theorem patch_toolsRemoved (previousOnce : (previous.map Tool.name).Nodup) :
    patch (byName previous) ((getToolStateChanges previous current).toolsRemoved.map fun name =>
      (name, none)) = byName (previous.filter (stays current)) := by
  refine (patch_removals_eq (p := fun e => stays current e.2) fun e member => ?_).trans ?_
  · obtain ⟨inside, named⟩ := mem_byName.mp member
    rw [← not_iff_not, not_not]
    refine Iff.trans ?_ List.mem_map.symm
    constructor
    · exact fun leaves => ⟨e.2, List.mem_filter.mpr ⟨inside, by simpa [stays] using leaves⟩, named⟩
    · rintro ⟨tool, there, same⟩
      have is : tool = e.2 := inj_on_of_nodup_map previousOnce (mem_of_mem_filter there)
        inside (same.trans named.symm)
      rw [← is]
      simpa [stays] using (List.mem_filter.mp there).2
  · rw [byName, filter_map]
    rfl

/-- **The changes between two tool states** lead from the one to the other: first its tools that are
kept, then the others. There are none exactly where both declare the same tools. -/
theorem getToolStateChanges_apply (previousOnce : (previous.map Tool.name).Nodup)
    (currentOnce : (current.map Tool.name).Nodup) :
    ((applyTools (byName previous) (getToolStateChanges previous current)).map Prod.snd).Perm
      current ∧
    ((getToolStateChanges previous current).toolsAdded = [] ∧
      (getToolStateChanges previous current).toolsRemoved = [] ↔ previous.Perm current) := by
  have kept (tool : Tool) : stays current tool = true ↔ tool ∈ current :=
    (any_declarationsEqual currentOnce tool).1
  have names : ((previous.filter (stays current) ++
      (getToolStateChanges previous current).toolsAdded).map Tool.name).Nodup := by
    rw [map_append]
    refine List.nodup_append.mpr ⟨previousOnce.sublist (List.filter_sublist.map _),
      currentOnce.sublist (List.filter_sublist.map _), ?_⟩
    rintro name old _ new rfl
    obtain ⟨tool, stayed, rfl⟩ := List.mem_map.mp old
    obtain ⟨other, added, named⟩ := List.mem_map.mp new
    obtain ⟨there, fresh⟩ := (mem_toolsAdded previousOnce).mp added
    obtain ⟨before, stay⟩ := List.mem_filter.mp stayed
    exact fresh (inj_on_of_nodup_map currentOnce there ((kept tool).mp stay) named ▸ before)
  have once : ∀ {tools : List Tool}, (tools.map Tool.name).Nodup → tools.Nodup :=
    fun once => List.Nodup.of_map _ once
  constructor
  · have both : byName (previous.filter (stays current) ++
        (getToolStateChanges previous current).toolsAdded) =
        byName (previous.filter (stays current)) ++
          byName (getToolStateChanges previous current).toolsAdded := map_append
    rw [applyTools_eq, patch_toolsRemoved previousOnce, ← byName_some,
      patch_additions _ _ (both ▸ byName_once names), ← both, byName_values]
    refine (perm_ext_iff_of_nodup (once names) (once currentOnce)).mpr fun tool => ?_
    rw [mem_append, mem_filter, mem_toolsAdded previousOnce, kept]
    tauto
  · rw [perm_ext_iff_of_nodup (once previousOnce) (once currentOnce)]
    have removed : (getToolStateChanges previous current).toolsRemoved = [] ↔
        ∀ tool ∈ previous, tool ∈ current := by
      refine List.map_eq_nil_iff.trans (List.filter_eq_nil_iff.trans (forall₂_congr fun tool _ => ?_))
      rw [Bool.not_eq_true', Bool.not_eq_false]
      exact kept tool
    have added : (getToolStateChanges previous current).toolsAdded = [] ↔
        ∀ tool ∈ current, tool ∈ previous := by
      rw [eq_nil_iff_forall_not_mem]
      refine forall_congr' fun tool => ?_
      rw [mem_toolsAdded previousOnce]
      tauto
    rw [removed, added]
    exact ⟨fun both tool => ⟨both.2 tool, both.1 tool⟩, fun same =>
      ⟨fun tool => (same tool).mpr, fun tool => (same tool).mp⟩⟩

end StateChanges

/-- **A tool history is split and compared without loss.** -/
theorem tool_history (messages : List (Option Changes)) {previous current : List Tool}
    (previousOnce : (previous.map Tool.name).Nodup) (currentOnce : (current.map Tool.name).Nodup) :
    (IsLeast {k | ((messages.head?.bind id).isSome → 1 ≤ k) ∧
        ∀ i m, k ≤ i → (messages.filterMap id)[i]? = some m →
          ¬NonAdditive ((messages.filterMap id).take i) m}
      (resolveTranscriptTools messages .additions).foldedSystemMessages ∧
    (resolveTranscriptTools messages .additions).requestTools ++
        ((messages.filterMap id).drop
          (resolveTranscriptTools messages .additions).foldedSystemMessages).flatMap
            Changes.toolsAdded = getCurrentTools (messages.filterMap id) ∧
    ((getCurrentTools (messages.filterMap id)).map Tool.name).Nodup) ∧
    ((applyTools (byName previous) (getToolStateChanges previous current)).map Prod.snd).Perm
      current ∧
    ((getToolStateChanges previous current).toolsAdded = [] ∧
      (getToolStateChanges previous current).toolsRemoved = [] ↔ previous.Perm current) :=
  ⟨resolveTranscriptTools_additions messages, getToolStateChanges_apply previousOnce currentOnce⟩

/-- A tool with some parameters. -/
def readTool (parameters : Json Unit) : Tool := ⟨text "read", [], parameters, none⟩

theorem readTool_once (parameters : Json Unit) : ([readTool parameters].map Tool.name).Nodup :=
  nodup_singleton _

/-- A tool that is removed and declared again, and one whose parameters change. -/
theorem tool_history_again :
    (resolveTranscriptTools [some ⟨none, [], [readTool .null]⟩, none,
      some ⟨none, [text "read"], []⟩, some ⟨none, [], [readTool .null]⟩]
        .additions).foldedSystemMessages = 3 ∧
    ((applyTools (byName [readTool .null])
      (getToolStateChanges [readTool .null] [readTool (.bool true)])).map Prod.snd).Perm
        [readTool (.bool true)] :=
  ⟨by decide, (tool_history [] (readTool_once .null) (readTool_once (.bool true))).2.1⟩

end TianGong.Ai

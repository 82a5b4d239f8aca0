/-
**The system prompt a generation plans: `harness/prompt.ts`.**

The sections of the system prompt and the offered tools are ordered maps that the system messages of a
context patch. `planSystemEntries` compares what they show with what is desired, and plans the
`tg.system` entries that make up the difference.

* `planSections_replay`: the planned patches lead from the shown sections to the desired ones.
-/

import TianGong.Ai.Transcript
import TianGong.Gibraltar.Context
import TianGong.Lib.Properties

namespace TianGong.Gibraltar

open TianGong.Lib TianGong.Ai
open Assoc (get_of_mem has_iff mem_of_get)
open List

/-! ### The plan -/

/-- What the system messages among some messages change. -/
def systemChanges (messages : List Sent) : List Changes :=
  messages.filterMap fun m =>
    match m.message with
    | .system content => some (changesOf content)
    | _ => none

/-- `replaySections`, of what system messages change. -/
def replaySections (messages : List Changes) : List (Text × Text) :=
  messages.foldl (fun shown changes => patch shown (changes.sections.getD [])) []

/-- The order that a minimal patch leads to. -/
def patchedOrder (shown desired : List (Text × Text)) : List Text :=
  (Assoc.keys shown).filter (fun key => Assoc.has key desired) ++
    (Assoc.keys desired).filter fun key => !Assoc.has key shown

/-- The object of the minimal patch, in the order in which it gets its properties. -/
def minimalPatch (shown desired : List (Text × Text)) : List (Text × Option Text) :=
  let changed := shown.foldl (fun object e =>
    if Assoc.get e.1 desired ≠ some e.2 then assign e.1 (Assoc.get e.1 desired) object else object) []
  desired.foldl (fun object e =>
    if !Assoc.has e.1 shown then assign e.1 (some e.2) object else object) changed

def planSections (shown desired : List (Text × Text)) : List (List (Text × Option Text)) :=
  if differs (patchedOrder shown desired) (Assoc.keys desired) then
    [listed Prod.fst ((Assoc.keys shown).map fun key => (key, none)),
      listed Prod.fst (desired.map fun e => (e.1, some e.2))]
  else if (minimalPatch shown desired).isEmpty then []
  else [listed Prod.fst (minimalPatch shown desired)]

/-- Removals and additions of tools. -/
structure ToolChanges where
  toolsRemoved : List Text
  toolsAdded : List Tool

/-- The offered tools that are desired as they are. -/
def keptTools (offered desired : List Tool) : List Tool :=
  let wanted := desired.foldl (fun wanted tool => Assoc.set tool.name tool wanted) []
  offered.filter fun tool => (Assoc.get tool.name wanted).any (declarationsEqual tool)

def planTools (offered desired : List Tool) : ToolChanges :=
  let kept := keptTools offered desired
  let keptNames := kept.map Tool.name
  let added := desired.filter fun tool => tool.name ∉ keptNames
  if differs ((kept ++ added).map Tool.name) (desired.map Tool.name) then
    ⟨offered.map Tool.name, desired⟩
  else ⟨(offered.filter fun tool => tool.name ∉ keptNames).map Tool.name, added⟩

/-- A draft of a `tg.system` entry. -/
structure SystemDraft where
  model : List Message
  edits : Option (List ContextEdit)

def systemEntry (sections : Option (List (Text × Option Text))) (tools : ToolChanges)
    (timestamp : JsNumber) : SystemDraft where
  model := [.system (systemMessage ⟨sections, tools.toolsRemoved, tools.toolsAdded⟩ timestamp)]
  edits := none

/-- `SystemEntry.is`. -/
def EntryRecord.isSystemEntry (e : EntryRecord) : Bool := e.kind = SYSTEM_ENTRY

/-- Whether a complete baseline is to be written: no system entry is behind the head marker. -/
def ContextView.rebaselines (view : ContextView) : Bool :=
  view.head.any fun head =>
    !view.entries.any fun e => e.isSystemEntry && decide (head.entry.id < e.id)

def planSystemEntries (view : ContextView) (desired : List (Text × Text)) (tools : List Tool)
    (timestamp : JsNumber) : List SystemDraft :=
  if view.rebaselines then
    let edits := (view.entries.filter EntryRecord.isSystemEntry).map fun e => ContextEdit.mk e.id .omit
    let baseline := systemEntry (some (listed Prod.fst (desired.map fun e => (e.1, some e.2))))
      ⟨[], tools⟩ timestamp
    [if edits.isEmpty then baseline else { baseline with edits := some edits }]
  else
    let messages := systemChanges view.messages
    let sections := planSections (replaySections messages) desired
    let changes := planTools (getCurrentTools messages) tools
    if changes.toolsRemoved.isEmpty && changes.toolsAdded.isEmpty then
      sections.map fun patch => systemEntry (some patch) ⟨[], []⟩ timestamp
    else if sections.isEmpty then [systemEntry none changes timestamp]
    else sections.mapIdx fun index patch =>
      systemEntry (some patch) (if index + 1 = sections.length then changes else ⟨[], []⟩) timestamp

/-! ### Sections -/

section Sections

variable {shown desired : List (Text × Text)}

/-- The keys that a plan of sections adds. -/
def writtenKeys (shown desired : List (Text × Text)) : List Text :=
  if differs (patchedOrder shown desired) (Assoc.keys desired) then Assoc.keys desired
  else (Assoc.keys desired).filter fun key => !Assoc.has key shown

section ShownOnce

variable (shownOnce : (Assoc.keys shown).Nodup)
include shownOnce

theorem patchedOrder_perm (desiredOnce : (Assoc.keys desired).Nodup) :
    (patchedOrder shown desired).Perm (Assoc.keys desired) := by
  have once : (patchedOrder shown desired).Nodup := by
    refine List.nodup_append.mpr ⟨shownOnce.filter _, desiredOnce.filter _, ?_⟩
    rintro key old _ new rfl
    have absent := (mem_filter.mp new).2
    rw [has_iff.mpr (mem_of_mem_filter old)] at absent
    cases absent
  refine (perm_ext_iff_of_nodup once desiredOnce).mpr fun key => ?_
  rw [patchedOrder, mem_append, mem_filter, mem_filter, Bool.not_eq_true',
    ← Bool.not_eq_true, has_iff, has_iff]
  tauto

/-- **The minimal patch**: the changed and the removed sections, then the new ones. -/
theorem minimalPatch_eq (desiredOnce : (Assoc.keys desired).Nodup) :
    minimalPatch shown desired =
      ((shown.filter fun e => decide (Assoc.get e.1 desired ≠ some e.2) && decide (e.1 ≠ PROTO)).map
        fun e => (e.1, Assoc.get e.1 desired)) ++
      (desired.filter fun e => !Assoc.has e.1 shown && decide (e.1 ≠ PROTO)).map
        fun e => (e.1, some e.2) := by
  have changed := assign_foldl (fun e : Text × Text =>
    decide (Assoc.get e.1 desired ≠ some e.2)) (fun e => Assoc.get e.1 desired) shown []
    shownOnce fun e _ _ => not_mem_nil
  simp only [decide_eq_true_eq, nil_append] at changed
  rw [minimalPatch, changed]
  refine assign_foldl (fun e : Text × Text => !Assoc.has e.1 shown) (fun e => some e.2) desired
    _ desiredOnce fun e _ new old => ?_
  obtain ⟨c, member, same⟩ := mem_map.mp old
  obtain ⟨e', there, rfl⟩ := mem_map.mp member
  have known : Assoc.has e.1 shown = true :=
    has_iff.mpr (mem_map.mpr ⟨e', mem_of_mem_filter there, same⟩)
  rw [known] at new
  cases new

theorem minimalPatch_once (desiredOnce : (Assoc.keys desired).Nodup) :
    (Assoc.keys (minimalPatch shown desired)).Nodup := by
  rw [minimalPatch_eq shownOnce desiredOnce, Assoc.keys_append, Assoc.keys, Assoc.keys, map_map,
    map_map]
  refine List.nodup_append.mpr ⟨shownOnce.sublist (List.filter_sublist.map _),
    desiredOnce.sublist (List.filter_sublist.map _), ?_⟩
  rintro key old _ new rfl
  obtain ⟨e, there, rfl⟩ := mem_map.mp old
  obtain ⟨f, here, same⟩ := mem_map.mp new
  have absent := (Bool.and_eq_true_iff.mp (mem_filter.mp here).2).1
  have known : Assoc.has f.1 shown = true :=
    has_iff.mpr (mem_map.mpr ⟨e, mem_of_mem_filter there, same.symm⟩)
  rw [known] at absent
  cases absent

/-- **The minimal patch has the values of the desired map**, where the maps agree on `__proto__`. -/
theorem get_minimalPatch (desiredOnce : (Assoc.keys desired).Nodup)
    (agree : Assoc.get PROTO shown = Assoc.get PROTO desired) (key : Text) :
    (Assoc.get key (minimalPatch shown desired)).getD (Assoc.get key shown) =
      Assoc.get key desired := by
  have once := minimalPatch_once shownOnce desiredOnce
  have is := minimalPatch_eq shownOnce desiredOnce
  have read {value : Option Text} (member : (key, value) ∈ minimalPatch shown desired) :
      (Assoc.get key (minimalPatch shown desired)).getD (Assoc.get key shown) = value := by
    rw [get_of_mem once member, Option.getD_some]
  have keeps (same : Assoc.get key shown = Assoc.get key desired) :
      (Assoc.get key (minimalPatch shown desired)).getD (Assoc.get key shown) =
        Assoc.get key desired := by
    cases found : Assoc.get key (minimalPatch shown desired) with
    | none => exact same
    | some value =>
      have member := mem_of_get found
      rw [is, mem_append, mem_map, mem_map] at member
      rcases member with ⟨e, -, new⟩ | ⟨e, there, new⟩
      · obtain ⟨rfl, rfl⟩ := Prod.mk.inj new
        rfl
      · obtain ⟨rfl, rfl⟩ := Prod.mk.inj new
        exact (get_of_mem desiredOnce (mem_of_mem_filter there)).symm
  by_cases same : Assoc.get key shown = Assoc.get key desired
  · exact keeps same
  · -- The maps differ under this key, so it is not `__proto__`, and the patch has it.
    have property : key ≠ PROTO := by
      rintro rfl
      exact same agree
    refine read ?_
    rw [is, mem_append, mem_map, mem_map]
    cases old : Assoc.get key shown with
    | some value =>
      refine .inl ⟨(key, value), mem_filter.mpr ⟨mem_of_get old, ?_⟩, rfl⟩
      rw [old] at same
      simpa using ⟨Ne.symm same, property⟩
    | none =>
      obtain ⟨value, new⟩ : ∃ value, Assoc.get key desired = some value :=
        Option.ne_none_iff_exists'.mp fun none => same (old.trans none.symm)
      refine .inr ⟨(key, value), mem_filter.mpr ⟨mem_of_get new, ?_⟩, by rw [new]⟩
      simp [Assoc.has, old, property]

/-- The sections that the minimal patch adds. -/
theorem newKeys_minimalPatch (desiredOnce : (Assoc.keys desired).Nodup)
    (agree : Assoc.get PROTO shown = Assoc.get PROTO desired) :
    newKeys shown (minimalPatch shown desired) =
      (Assoc.keys desired).filter fun key => !Assoc.has key shown := by
  have old : ((shown.filter fun e =>
      decide (Assoc.get e.1 desired ≠ some e.2) && decide (e.1 ≠ PROTO)).map
        fun e => (e.1, Assoc.get e.1 desired)).filter
          (fun change => change.2.isSome && !Assoc.has change.1 shown) = [] := by
    refine List.filter_eq_nil_iff.mpr fun change member => ?_
    obtain ⟨e, there, rfl⟩ := mem_map.mp member
    have inside : Assoc.has e.1 shown = true :=
      has_iff.mpr (mem_map_of_mem (mem_of_mem_filter there))
    simp [inside]
  rw [newKeys, minimalPatch_eq shownOnce desiredOnce, filter_append, old, nil_append,
    filter_map, Assoc.keys, map_map, filter_filter, filter_map]
  refine congrArg (List.map Prod.fst) (filter_congr fun e member => ?_)
  -- A new key is not `__proto__`, which neither map has or both have.
  have property : Assoc.has e.1 shown = false → e.1 ≠ PROTO := by
    intro new proto
    have value := get_of_mem desiredOnce member
    rw [proto, ← agree, ← proto] at value
    rw [Assoc.has, value] at new
    cases new
  cases known : Assoc.has e.1 shown with
  | true => simp [known]
  | false => simp [known, property known]

end ShownOnce

/-- An object that got its properties in the order of its keys lists them as they are. -/
theorem listed_entries {entries : List (Text × Text)} (once : (Assoc.keys entries).Nodup)
    (order : listed id (Assoc.keys entries) = Assoc.keys entries) :
    listed Prod.fst entries = entries := by
  have perm := listed_perm Prod.fst entries
  have sameKeys : Assoc.keys (listed Prod.fst entries) = Assoc.keys entries :=
    (map_listed id Prod.fst entries).trans order
  exact Assoc.ext (sameKeys ▸ once) sameKeys fun key =>
    Assoc.get_perm (sameKeys ▸ once) perm key

/-- **A whole map as a patch of an empty one.** -/
theorem patch_whole (desiredOnce : (Assoc.keys desired).Nodup)
    (order : listed id (Assoc.keys desired) = Assoc.keys desired) :
    patch [] (listed Prod.fst (desired.map fun e => (e.1, some e.2))) = desired := by
  rw [← map_listed Prod.fst fun e : Text × Text => (e.1, some e.2)]
  exact (congrArg (patch []) (congrArg (List.map _) (listed_entries desiredOnce order))).trans
    (patch_additions [] desired desiredOnce)

/-- **The planned patches lead from the shown sections to the desired ones**, in values and order. -/
theorem planSections_replay (shownOnce : (Assoc.keys shown).Nodup)
    (desiredOnce : (Assoc.keys desired).Nodup)
    (agree : Assoc.get PROTO shown = Assoc.get PROTO desired)
    (order : listed id (writtenKeys shown desired) = writtenKeys shown desired) :
    (planSections shown desired).foldl patch shown = desired := by
  unfold planSections writtenKeys at *
  by_cases reorders : differs (patchedOrder shown desired) (Assoc.keys desired) = true
  · rw [if_pos reorders] at order ⊢
    have cleared : patch shown (listed Prod.fst ((Assoc.keys shown).map fun key => (key, none))) = [] := by
      rw [← map_listed Prod.fst fun key : Text => (key, (none : Option Text))]
      exact patch_cleared fun e member => (listed_perm id _).mem_iff.mpr (mem_map_of_mem member)
    rw [foldl_cons, cleared, foldl_cons]
    exact patch_whole desiredOnce order
  · rw [if_neg reorders] at order ⊢
    have places := (differs_eq_false (patchedOrder_perm shownOnce desiredOnce).length_eq).mp
      (Bool.eq_false_iff.mpr reorders)
    have once := minimalPatch_once shownOnce desiredOnce
    have perm := listed_perm Prod.fst (minimalPatch shown desired)
    have listedOnce : (Assoc.keys (listed Prod.fst (minimalPatch shown desired))).Nodup :=
      (perm.map Prod.fst).nodup_iff.mpr once
    have added : newKeys shown (listed Prod.fst (minimalPatch shown desired)) =
        (Assoc.keys desired).filter fun key => !Assoc.has key shown := by
      rw [newKeys, filter_listed Prod.fst once]
      refine (map_listed id Prod.fst _).trans ?_
      exact (congrArg (listed id) (newKeys_minimalPatch shownOnce desiredOnce agree)).trans order
    have whole : patch shown (listed Prod.fst (minimalPatch shown desired)) = desired := by
      refine patch_eq shownOnce listedOnce (fun key => ?_) ?_
      · rw [Assoc.get_perm listedOnce perm]
        exact get_minimalPatch shownOnce desiredOnce agree key
      · refine Eq.trans ?_ places
        rw [added, patchedOrder]
    split
    · rename_i nothing
      rw [List.isEmpty_iff.mp nothing] at whole
      exact whole
    · exact whole

/-- **Nothing is planned where nothing differs.** -/
theorem planSections_self (desiredOnce : (Assoc.keys desired).Nodup) :
    planSections desired desired = [] := by
  have known : ∀ e ∈ desired, Assoc.has e.1 desired = true := fun e member =>
    has_iff.mpr (mem_map_of_mem member)
  have old : (Assoc.keys desired).filter (fun key => Assoc.has key desired) = Assoc.keys desired :=
    List.filter_eq_self.mpr fun key inside => has_iff.mpr inside
  have new : (Assoc.keys desired).filter (fun key => !Assoc.has key desired) = [] :=
    List.filter_eq_nil_iff.mpr fun key inside => by simp [has_iff.mpr inside]
  have places : patchedOrder desired desired = Assoc.keys desired := by
    rw [patchedOrder, old, new, append_nil]
  have nothing : minimalPatch desired desired = [] := by
    rw [minimalPatch_eq desiredOnce desiredOnce]
    refine List.append_eq_nil_iff.mpr ⟨?_, ?_⟩
    · refine List.map_eq_nil_iff.mpr (List.filter_eq_nil_iff.mpr fun e member => ?_)
      simp [get_of_mem desiredOnce member]
    · refine List.map_eq_nil_iff.mpr (List.filter_eq_nil_iff.mpr fun e member => ?_)
      simp [known e member]
  rw [planSections, places, (differs_eq_false rfl).mpr rfl, nothing]
  rfl

end Sections

/-! ### Tools -/

section Tools

variable {offered desired : List Tool}

/-- **What is kept**: the offered tools that are among the desired ones. -/
theorem mem_keptTools (once : (desired.map Tool.name).Nodup) {tool : Tool} :
    tool ∈ keptTools offered desired ↔ tool ∈ offered ∧ tool ∈ desired := by
  rw [keptTools, foldl_set_byName once, mem_filter]
  refine and_congr_right fun _ => ?_
  constructor
  · intro declared
    cases found : Assoc.get tool.name (byName desired) with
    | none =>
      rw [found] at declared
      cases declared
    | some next =>
      rw [found] at declared
      rw [declarationsEqual_iff.mp declared]
      exact (mem_byName.mp (mem_of_get found)).1
  · intro wanted
    rw [get_of_mem (byName_once once) (mem_byName.mpr ⟨wanted, rfl⟩)]
    exact declarationsEqual_iff.mpr rfl

/-- The names that a plan compares with the desired ones, in the order that replay would leave. -/
theorem replayed_perm (offeredOnce : (offered.map Tool.name).Nodup)
    (once : (desired.map Tool.name).Nodup) :
    ((keptTools offered desired ++ desired.filter fun tool =>
      tool.name ∉ (keptTools offered desired).map Tool.name).map Tool.name).Perm
      (desired.map Tool.name) := by
  have keptOnce : ((keptTools offered desired).map Tool.name).Nodup :=
    offeredOnce.sublist (List.filter_sublist.map _)
  have addedOnce := once.sublist ((filter_sublist (l := desired) (p := fun tool =>
    tool.name ∉ (keptTools offered desired).map Tool.name)).map _)
  rw [map_append]
  refine (perm_ext_iff_of_nodup (List.nodup_append.mpr ⟨keptOnce, addedOnce, ?_⟩) once).mpr ?_
  · rintro name kept _ added rfl
    obtain ⟨tool, member, rfl⟩ := mem_map.mp added
    exact of_decide_eq_true (mem_filter.mp member).2 kept
  · intro name
    rw [mem_append]
    constructor
    · rintro (kept | added)
      · obtain ⟨tool, member, rfl⟩ := mem_map.mp kept
        exact mem_map_of_mem ((mem_keptTools once).mp member).2
      · obtain ⟨tool, member, rfl⟩ := mem_map.mp added
        exact mem_map_of_mem (mem_of_mem_filter member)
    · intro wanted
      obtain ⟨tool, member, rfl⟩ := mem_map.mp wanted
      by_cases kept : tool.name ∈ (keptTools offered desired).map Tool.name
      · exact .inl kept
      · exact .inr (mem_map_of_mem (mem_filter.mpr ⟨member, decide_eq_true kept⟩))

/-- What is left of the offered tools when those that are not kept are removed. -/
theorem keptTools_eq (offeredOnce : (offered.map Tool.name).Nodup)
    (once : (desired.map Tool.name).Nodup) :
    (offered.filter fun tool => tool.name ∈ (keptTools offered desired).map Tool.name) =
      keptTools offered desired := by
  refine filter_congr fun tool member => ?_
  rw [Bool.eq_iff_iff, decide_eq_true_iff]
  constructor
  · intro named
    obtain ⟨kept, inside, same⟩ := mem_map.mp named
    have old := (mem_keptTools once).mp inside
    rw [inj_on_of_nodup_map offeredOnce old.1 member same] at inside
    exact (mem_filter.mp inside).2
  · intro declared
    exact mem_map_of_mem (mem_filter.mpr ⟨member, declared⟩)

/-- **The planned changes lead from the offered tools to the desired ones**, in values and order. -/
theorem planTools_replay (offeredOnce : (offered.map Tool.name).Nodup)
    (once : (desired.map Tool.name).Nodup) :
    patch (patch (byName offered) ((planTools offered desired).toolsRemoved.map fun name =>
      (name, none))) ((planTools offered desired).toolsAdded.map fun tool =>
        (tool.name, some tool)) = byName desired := by
  have whole (tools : List Tool) (toolsOnce : (tools.map Tool.name).Nodup) {kept added : List Tool}
      (is : kept ++ added = tools) :
      patch (byName kept) (added.map fun tool => (tool.name, some tool)) = byName tools := by
    have both : byName kept ++ byName added = byName tools := by
      rw [← is, byName, byName, byName, map_append]
    have added' := patch_additions (byName kept) (byName added) (both ▸ byName_once toolsOnce)
    rwa [both, byName_some] at added'
  rw [planTools]
  split_ifs with reorders
  · have cleared : patch (byName offered) ((offered.map Tool.name).map fun name => (name, none)) =
        [] := by
      refine patch_cleared fun e member => ?_
      have there := mem_byName.mp member
      exact there.2 ▸ mem_map_of_mem there.1
    rw [cleared]
    exact whole desired once (nil_append desired)
  · have names := (differs_eq_false (replayed_perm offeredOnce once).length_eq).mp
      (Bool.eq_false_iff.mpr reorders)
    have is : keptTools offered desired ++ (desired.filter fun tool =>
        tool.name ∉ (keptTools offered desired).map Tool.name) = desired := by
      have keys : Assoc.keys (byName (keptTools offered desired ++ desired.filter fun tool =>
          tool.name ∉ (keptTools offered desired).map Tool.name)) = Assoc.keys (byName desired) := by
        rw [byName, byName, Assoc.keys, Assoc.keys, map_map, map_map]
        exact names
      have entries := Assoc.ext_of_mem (byName_once once) keys fun e member => by
        obtain ⟨inside, named⟩ := mem_byName.mp member
        refine mem_byName.mpr ⟨?_, named⟩
        rcases mem_append.mp inside with kept | added
        · exact ((mem_keptTools once).mp kept).2
        · exact mem_of_mem_filter added
      exact List.map_injective_iff.mpr (fun _ _ same => congrArg Prod.snd same) entries
    have left : patch (byName offered) (((offered.filter fun tool =>
        tool.name ∉ (keptTools offered desired).map Tool.name).map Tool.name).map fun name =>
          (name, none)) = byName (keptTools offered desired) := by
      refine (patch_removals_eq (p := fun e =>
        decide (e.1 ∈ (keptTools offered desired).map Tool.name)) fun e member => ?_).trans ?_
      · obtain ⟨inside, named⟩ := mem_byName.mp member
        rw [decide_eq_true_iff, mem_map (l := offered.filter _), ← not_iff_not, not_not]
        constructor
        · exact fun absent => ⟨e.2, mem_filter.mpr ⟨inside, by rwa [named, decide_eq_true_iff]⟩,
            named⟩
        · rintro ⟨tool, there, same⟩
          rw [← same]
          exact of_decide_eq_true (mem_filter.mp there).2
      · rw [byName, filter_map]
        exact congrArg (List.map _) (keptTools_eq offeredOnce once)
    exact (congrArg (fun tools => patch tools _) left).trans (whole desired once is)

/-- **Nothing is planned where nothing differs.** -/
theorem planTools_self (once : (desired.map Tool.name).Nodup) :
    planTools desired desired = ⟨[], []⟩ := by
  have kept : keptTools desired desired = desired :=
    List.filter_eq_self.mpr fun tool member =>
      (mem_filter.mp ((mem_keptTools once).mpr ⟨member, member⟩)).2
  have none : (desired.filter fun tool => tool.name ∉ desired.map Tool.name) = [] :=
    List.filter_eq_nil_iff.mpr fun tool member absent =>
      of_decide_eq_true absent (mem_map_of_mem member)
  rw [planTools, kept, none, append_nil, (differs_eq_false rfl).mpr rfl]
  rfl

end Tools

end TianGong.Gibraltar

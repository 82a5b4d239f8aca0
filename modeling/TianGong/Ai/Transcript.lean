/-
**Tools and sections in a transcript.**

`ai/utils/transcript.ts`: what system messages change, and the tools they leave. A system message is the
JSON object that a transcript holds; of what it says only its sections and tools are read here. Of the
parameters of a tool there is what `JSON.stringify` writes of them.

* `declarationsEqual_iff`: two tools with one serialized declaration declare the same.
-/

import TianGong.Contract.JsonText
import TianGong.Lib.Patch

namespace TianGong.Ai

open List
open TianGong.Lib TianGong.Contract

/-- The declaration of a tool. -/
structure Tool where
  name : Text
  description : Text
  parameters : Json Unit
  constrainedSampling : Option (Json Unit)

/-- What a system message changes. An absent list of tools is an empty one. -/
structure Changes where
  sections : Option (List (Text × Option Text))
  toolsRemoved : List Text
  toolsAdded : List Tool

/-! ### Declarations -/

/-- `toToolDeclaration`, as the object that a transcript holds. -/
def toToolDeclaration (tool : Tool) : Json Unit :=
  .object () ([(text "name", .string tool.name), (text "description", .string tool.description),
    (text "parameters", tool.parameters)] ++
      (tool.constrainedSampling.map fun sampling => (text "constrainedSampling", sampling)).toList)

def declarationKey (tool : Tool) : Text := stringify (toToolDeclaration tool)

def declarationsEqual (left right : Tool) : Bool := declarationKey left = declarationKey right

/-- A member of an object. -/
def member (key : Text) : Json Unit → Option (Json Unit)
  | .object _ fields => Assoc.get key fields
  | _ => none

def textOf : Option (Json Unit) → Text
  | some (.string t) => t
  | _ => []

def itemsOf : Option (Json Unit) → List (Json Unit)
  | some (.array _ items) => items
  | _ => []

/-- A tool of a transcript. -/
def toolOf (declaration : Json Unit) : Tool where
  name := textOf (member (text "name") declaration)
  description := textOf (member (text "description") declaration)
  parameters := (member (text "parameters") declaration).getD .null
  constrainedSampling := member (text "constrainedSampling") declaration

@[simp] theorem toolOf_toToolDeclaration (tool : Tool) : toolOf (toToolDeclaration tool) = tool := by
  obtain ⟨name, description, parameters, sampling⟩ := tool
  cases sampling <;> rfl

/-- **Two tools with one serialized declaration declare the same.** -/
theorem declarationsEqual_iff {left right : Tool} :
    declarationsEqual left right = true ↔ left = right := by
  refine decide_eq_true_iff.trans ⟨fun same => ?_, congrArg declarationKey⟩
  rw [← toolOf_toToolDeclaration left, stringify_inj same, toolOf_toToolDeclaration]

/-! ### System messages -/

def ofSection : Option Text → Json Unit
  | none => .null
  | some t => .string t

def sectionOf : Json Unit → Option Text
  | .string t => some t
  | _ => none

/-- A reference to a tool. -/
def toolReference (name : Text) : Json Unit := .object () [(text "name", .string name)]

/-- What a system message changes. -/
def changesOf (message : Json Unit) : Changes where
  sections :=
    match member (text "sections") message with
    | some (.object _ fields) => some (fields.map fun e => (e.1, sectionOf e.2))
    | _ => none
  toolsRemoved := (itemsOf (member (text "toolsRemoved") message)).map fun reference =>
    textOf (member (text "name") reference)
  toolsAdded := (itemsOf (member (text "toolsAdded") message)).map toolOf

/-- A system message without text. -/
def systemMessage (changes : Changes) (timestamp : JsNumber) : Json Unit :=
  .object () ([(text "role", .string (text "system")), (text "content", .string [])] ++
    (changes.sections.map fun sections =>
      (text "sections", .object () (sections.map fun e => (e.1, ofSection e.2)))).toList ++
    (if changes.toolsRemoved = [] then []
      else [(text "toolsRemoved", .array () (changes.toolsRemoved.map toolReference))]) ++
    (if changes.toolsAdded.isEmpty then []
      else [(text "toolsAdded", .array () (changes.toolsAdded.map toToolDeclaration))]) ++
    [(text "timestamp", .number timestamp)])

/-- **A system message is read back as it was written.** -/
theorem changesOf_systemMessage (changes : Changes) (timestamp : JsNumber) :
    changesOf (systemMessage changes timestamp) = changes := by
  obtain ⟨sections, removed, added⟩ := changes
  have written (entries : List (Text × Option Text)) :
      (entries.map fun e => (e.1, ofSection e.2)).map (fun e => (e.1, sectionOf e.2)) = entries := by
    rw [map_map]
    refine (map_congr_left fun e _ => ?_).trans (map_id entries)
    obtain ⟨key, value⟩ := e
    cases value <;> rfl
  have removals : (removed.map toolReference).map (fun reference =>
      textOf (member (text "name") reference)) = removed := by
    rw [map_map]
    exact (map_congr_left fun name _ => rfl).trans (map_id removed)
  have additions : (added.map toToolDeclaration).map toolOf = added := by
    rw [map_map]
    exact (map_congr_left fun tool _ => toolOf_toToolDeclaration tool).trans (map_id added)
  have parts : changesOf (systemMessage ⟨sections, removed, added⟩ timestamp) =
      ⟨sections.map fun entries =>
          (entries.map fun e => (e.1, ofSection e.2)).map fun e => (e.1, sectionOf e.2),
        (removed.map toolReference).map fun reference => textOf (member (text "name") reference),
        (added.map toToolDeclaration).map toolOf⟩ := by
    cases sections <;> cases removed <;> cases added <;> rfl
  rw [parts, removals, additions]
  cases sections with
  | none => rfl
  | some entries => rw [Option.map_some, written]

/-- One system message more. -/
def applyTools (tools : List (Text × Tool)) (changes : Changes) : List (Text × Tool) :=
  changes.toolsAdded.foldl (fun tools tool => Assoc.set tool.name tool tools)
    (changes.toolsRemoved.foldl (fun tools name => Assoc.erase name tools) tools)

/-- A system message as a patch of the tools: its removals, then its additions. -/
theorem applyTools_eq (tools : List (Text × Tool)) (changes : Changes) :
    applyTools tools changes =
      patch (patch tools (changes.toolsRemoved.map fun name => (name, none)))
        (changes.toolsAdded.map fun tool => (tool.name, some tool)) := by
  rw [applyTools, patch, patch, foldl_map, foldl_map]
  rfl

/-- `getCurrentTools`, of the system messages of a transcript. -/
def getCurrentTools (messages : List Changes) : List Tool :=
  (messages.foldl applyTools []).map Prod.snd

/-- Tools under their names. -/
def byName (tools : List Tool) : List (Text × Tool) := tools.map fun tool => (tool.name, tool)

@[simp] theorem byName_values (tools : List Tool) : (byName tools).map Prod.snd = tools := by
  rw [byName, map_map]
  exact map_id tools

theorem byName_map_snd {entries : List (Text × Tool)} (named : ∀ e ∈ entries, e.1 = e.2.name) :
    byName (entries.map Prod.snd) = entries := by
  rw [byName, map_map]
  refine (map_congr_left fun e member => ?_).trans (map_id entries)
  exact Prod.ext (named e member).symm rfl

/-- **The tools in effect stand under their names, each once.** -/
theorem foldl_applyTools (messages : List Changes) :
    messages.foldl applyTools [] = byName (getCurrentTools messages) ∧
      ((getCurrentTools messages).map Tool.name).Nodup := by
  have sound : ∀ tools : List (Text × Tool), (Assoc.keys tools).Nodup →
      (∀ e ∈ tools, e.1 = e.2.name) → (Assoc.keys (messages.foldl applyTools tools)).Nodup ∧
        ∀ e ∈ messages.foldl applyTools tools, e.1 = e.2.name := by
    induction messages with
    | nil => exact fun tools once named => ⟨once, named⟩
    | cons changes rest ih =>
      intro tools once named
      refine ih (applyTools tools changes) ?_ ?_
      · rw [applyTools_eq]
        exact nodup_patch (nodup_patch once _) _
      · rw [applyTools_eq, patch_removals]
        refine of_patch (P := fun name tool => name = tool.name)
          (fun e member => named e (mem_of_mem_filter member)) fun change member value same => ?_
        obtain ⟨tool, -, rfl⟩ := List.mem_map.mp member
        exact congrArg Tool.name (Option.some.inj same)
  obtain ⟨once, named⟩ := sound [] nodup_nil fun e member => by cases member
  have entries : messages.foldl applyTools [] = byName (getCurrentTools messages) :=
    (byName_map_snd named).symm
  refine ⟨entries, ?_⟩
  rw [entries, byName, Assoc.keys, map_map] at once
  exact once

theorem byName_some (tools : List Tool) :
    (byName tools).map (fun e => (e.1, some e.2)) = tools.map fun tool => (tool.name, some tool) := by
  rw [byName, map_map]
  rfl

variable {tools : List Tool}

theorem byName_once (once : (tools.map Tool.name).Nodup) : (Assoc.keys (byName tools)).Nodup := by
  rw [byName, Assoc.keys, map_map]
  exact once

/-- The tools of a list, under their names. -/
theorem foldl_set_byName (once : (tools.map Tool.name).Nodup) :
    tools.foldl (fun named tool => Assoc.set tool.name tool named) [] = byName tools := by
  have added := patch_additions [] (byName tools) (byName_once once)
  rw [byName_some, patch, foldl_map] at added
  exact added

theorem mem_byName {e : Text × Tool} : e ∈ byName tools ↔ e.2 ∈ tools ∧ e.2.name = e.1 := by
  rw [byName, mem_map]
  constructor
  · rintro ⟨tool, member, rfl⟩
    exact ⟨member, rfl⟩
  · rintro ⟨member, named⟩
    exact ⟨e.2, member, Prod.ext named rfl⟩

end TianGong.Ai

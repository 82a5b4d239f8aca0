/-
**The names of MCP tools.**

`mcp/bridge.ts`: the tools that the enabled servers list are registered one after the other. A name that
is too long, or taken, is cut and gets the start of a hash.

* `names_openSecMcpBridge`: the names of a bridge are given in the order of its tools.
* `registered_iff`: the names differ exactly when no name with a hash is taken before.
* `listed_thrice`: a tool that is listed three times has one name twice.
-/

import TianGong.Lib.Naming
import TianGong.SecGuard.Rules

namespace TianGong.SecAgent

open List Bool
open Naming
open SecGuard (isWord wildcard)

/-! ### The bridge -/

/-- `[0-9a-f]`. -/
def isHexUnit (c : UInt16) : Bool := isDigit c || (97 ≤ c && c ≤ 102)

/-- The digest of `createHash("sha256")`, in hex. -/
structure Sha256 where
  hex : Text → Text
  length_hex : ∀ t, (hex t).length = 64
  digits_hex : ∀ t, ∀ c ∈ hex t, isHexUnit c = true

def MAX_TOOL_NAME_LENGTH : Nat := 64

inductive TgSecAgentRole where
  | redteam
  | binary
  | reporting
  deriving DecidableEq

structure SecMcpServerConfig where
  name : Text
  enabled : Option Bool
  roles : Option (List TgSecAgentRole)
  tools : Option (List Text)

/-- What comes of a server: an error of the connection, one of `tools/list`, or the names of its tools. -/
inductive Listing where
  | unconnected (error : Text)
  | unlisted (error : Text)
  | listed (tools : List Text)

structure Registration where
  name : Text
  server : Text
  tool : Text
  roles : List TgSecAgentRole

structure SecMcpBridge where
  errors : List Text
  toolNames : List Text
  registrations : List Registration

/-- `[^A-Za-z0-9_]` is replaced. -/
def sanitized (t : Text) : Text := t.map fun c => if isWord c then c else unit '_'

def patternMatches (pattern name : Text) : Bool := wildcard pattern name

def toolIncluded (server : SecMcpServerConfig) (tool : Text) : Bool :=
  match server.tools with
  | none => true
  | some patterns => patterns.any fun pattern => patternMatches pattern tool

def roleIncluded (server : SecMcpServerConfig) (role : TgSecAgentRole) : Bool :=
  server.enabled ≠ some false &&
    match server.roles with
    | none => true
    | some roles => roles.contains role

def SEC_AGENT_ROLES : List TgSecAgentRole := [.redteam, .binary, .reporting]

/-- The name of a tool before it is cut. -/
def plainName (server tool : Text) : Text :=
  sanitized (text "mcp__" ++ server ++ text "__" ++ tool)

section Bridge

variable (sha256 : Sha256)

/-- The name of a tool that is too long, or taken. -/
def hashedName (server tool : Text) : Text :=
  let hash := (sha256.hex (server ++ [0] ++ tool)).take 8
  (plainName server tool).take (MAX_TOOL_NAME_LENGTH - hash.length - 1) ++ unit '_' :: hash

def createSecMcpToolName (server tool : Text) (isTaken : Text → Bool) : Text :=
  let name := plainName server tool
  if name.length ≤ MAX_TOOL_NAME_LENGTH && !isTaken name then name else hashedName sha256 server tool

/-- The loop over the tools of a server. -/
def registerTool (server : SecMcpServerConfig) (bridge : SecMcpBridge) (tool : Text) : SecMcpBridge :=
  if !toolIncluded server tool then bridge
  else
    let name := createSecMcpToolName sha256 server.name tool bridge.toolNames.contains
    { bridge with
      toolNames := if name ∈ bridge.toolNames then bridge.toolNames else bridge.toolNames ++ [name],
      registrations := bridge.registrations ++
        [⟨name, server.name, tool, SEC_AGENT_ROLES.filter (roleIncluded server)⟩] }

/-- The loop over the servers. -/
def openServer (bridge : SecMcpBridge) (entry : SecMcpServerConfig × Listing) : SecMcpBridge :=
  if entry.1.enabled = some false then bridge
  else match entry.2 with
    | .unconnected error =>
      { bridge with errors := bridge.errors ++ [entry.1.name ++ text ": connect failed: " ++ error] }
    | .unlisted error =>
      { bridge with errors := bridge.errors ++ [entry.1.name ++ text ": tools/list failed: " ++ error] }
    | .listed tools => tools.foldl (registerTool sha256 entry.1) bridge

def openSecMcpBridge (servers : List (SecMcpServerConfig × Listing)) : SecMcpBridge :=
  servers.foldl (openServer sha256) ⟨[], [], []⟩

end Bridge

/-! ### The limits of the provider -/

/-- A name that the provider takes. -/
def Fits (name : Text) : Prop := name.length ≤ MAX_TOOL_NAME_LENGTH ∧ ∀ c ∈ name, isWord c = true

theorem isWord_underscore : isWord (unit '_') = true := by decide

theorem isWord_of_isHexUnit {c : UInt16} (hex : isHexUnit c = true) : isWord c = true := by
  simp only [isHexUnit, isDigit, or_eq_true, and_eq_true, decide_eq_true_eq, UInt16.le_iff_toNat_le,
    UInt16.reduceToNat] at hex
  simp only [isWord, SecGuard.isAlpha, SecGuard.isLower, SecGuard.isUpper, isDigit, or_eq_true,
    and_eq_true, decide_eq_true_eq, UInt16.le_iff_toNat_le, UInt16.reduceToNat]
  omega

theorem isWord_sanitized {t : Text} : ∀ c ∈ sanitized t, isWord c = true := by
  intro c isIn
  obtain ⟨d, -, rfl⟩ := List.mem_map.mp isIn
  split
  · assumption
  · exact isWord_underscore

variable {tool : Text × Text}

section Names

variable {sha256 : Sha256}

/-- **A name fits the provider's limits**, whatever is taken. -/
theorem createSecMcpToolName_fits (server tool : Text) (isTaken : Text → Bool) :
    Fits (createSecMcpToolName sha256 server tool isTaken) := by
  unfold createSecMcpToolName
  dsimp only
  split
  · rename_i short
    exact ⟨of_decide_eq_true (Bool.and_eq_true_iff.mp short).1, isWord_sanitized⟩
  · unfold hashedName
    dsimp only
    have eight : ((sha256.hex (server ++ [0] ++ tool)).take 8).length = 8 := by
      rw [length_take, sha256.length_hex]
      rfl
    constructor
    · rw [length_append, length_cons, eight, length_take]
      unfold MAX_TOOL_NAME_LENGTH
      omega
    · intro c isIn
      rcases List.mem_append.mp isIn with kept | hash
      · exact isWord_sanitized c (mem_of_mem_take kept)
      · rcases List.mem_cons.mp hash with rfl | digit
        · exact isWord_underscore
        · exact isWord_of_isHexUnit (sha256.digits_hex _ c (mem_of_mem_take digit))

/-! ### The names, in the order of the tools -/

variable (sha256) in
/-- The name of a server's tool behind those that are given. -/
def nameOf (used : List Text) (tool : Text × Text) : Text :=
  createSecMcpToolName sha256 tool.1 tool.2 used.contains

/-- The tools that a server is asked for. -/
def offered (entry : SecMcpServerConfig × Listing) : List (Text × Text) :=
  if entry.1.enabled = some false then []
  else match entry.2 with
    | .listed tools => (tools.filter (toolIncluded entry.1)).map fun tool => (entry.1.name, tool)
    | _ => []

/-- What a bridge has registered, and what it takes for taken. -/
structure Named (bridge : SecMcpBridge) (names : List Text) : Prop where
  registered : bridge.registrations.map Registration.name = names
  taken : ∀ name, name ∈ bridge.toolNames ↔ name ∈ names

theorem nameOf_congr {used others : List Text} (same : ∀ name, name ∈ used ↔ name ∈ others)
    (tool : Text × Text) : nameOf sha256 used tool = nameOf sha256 others tool := by
  have contains : used.contains = others.contains := by
    funext name
    rw [Bool.eq_iff_iff, contains_iff_mem, contains_iff_mem, same]
  rw [nameOf, nameOf, contains]

theorem Named.registerTool {bridge : SecMcpBridge} {names : List Text} (named : Named bridge names)
    (server : SecMcpServerConfig) {tool : Text} (included : toolIncluded server tool = true) :
    Named (registerTool sha256 server bridge tool)
      (names ++ [nameOf sha256 names (server.name, tool)]) := by
  have same := @nameOf_congr sha256 _ _ named.taken (server.name, tool)
  unfold nameOf at same
  unfold SecAgent.registerTool
  rw [included, Bool.not_true, if_neg Bool.false_ne_true]
  dsimp only at same ⊢
  rw [same]
  refine ⟨?_, fun name => ?_⟩
  · rw [map_append, named.registered]
    rfl
  · dsimp only
    split
    · rename_i old
      rw [named.taken, mem_append, mem_singleton]
      refine ⟨.inl, fun isIn => isIn.elim id ?_⟩
      rintro rfl
      exact (named.taken _).mp old
    · rw [mem_append, mem_append, named.taken]
      rfl

theorem Named.registerTools {bridge : SecMcpBridge} {names : List Text} (named : Named bridge names)
    (server : SecMcpServerConfig) (tools : List Text) :
    Named (tools.foldl (SecAgent.registerTool sha256 server) bridge) (names ++ assign (nameOf sha256) names
      ((tools.filter (toolIncluded server)).map fun tool => (server.name, tool))) := by
  induction tools generalizing bridge names with
  | nil =>
    rw [filter_nil, map_nil, assign, append_nil]
    exact named
  | cons tool tools ih =>
    rw [foldl_cons, filter_cons]
    split
    · rename_i included
      have next := ih (@Named.registerTool sha256 _ _ named server _ included)
      rwa [append_assoc, singleton_append] at next
    · rename_i skipped
      have same : SecAgent.registerTool sha256 server bridge tool = bridge := by
        unfold SecAgent.registerTool
        rw [if_pos (by simpa using skipped)]
      rw [same]
      exact ih named

theorem assign_append (used : List Text) (first second : List (Text × Text)) :
    assign (nameOf sha256) used (first ++ second) = assign (nameOf sha256) used first ++
      assign (nameOf sha256) (used ++ assign (nameOf sha256) used first) second := by
  induction first generalizing used with
  | nil => rw [nil_append, assign, append_nil, nil_append]
  | cons tool first ih =>
    rw [cons_append, assign, ih, assign, cons_append, append_assoc, singleton_append]

theorem Named.openServers {bridge : SecMcpBridge} {names : List Text} (named : Named bridge names)
    (servers : List (SecMcpServerConfig × Listing)) :
    Named (servers.foldl (openServer sha256) bridge)
      (names ++ assign (nameOf sha256) names (servers.flatMap offered)) := by
  induction servers generalizing bridge names with
  | nil =>
    rw [flatMap_nil, assign, append_nil]
    exact named
  | cons entry servers ih =>
    obtain ⟨server, listing⟩ := entry
    rw [foldl_cons, flatMap_cons, assign_append, ← append_assoc]
    refine ih ?_
    unfold openServer offered
    dsimp only
    split
    · rw [assign, append_nil]
      exact named
    · cases listing with
      | unconnected error | unlisted error =>
        dsimp only
        rw [assign, append_nil]
        exact ⟨named.registered, named.taken⟩
      | listed tools => exact named.registerTools server tools

variable (sha256) in
/-- **The names of a bridge** are given in the order of its tools. -/
theorem names_openSecMcpBridge (servers : List (SecMcpServerConfig × Listing)) :
    (openSecMcpBridge sha256 servers).registrations.map Registration.name =
      assign (nameOf sha256) [] (servers.flatMap offered) := by
  have empty : Named ⟨[], [], []⟩ [] := ⟨rfl, fun _ => Iff.rfl⟩
  exact ((empty.openServers servers).registered).trans (nil_append _)

/-! ### The names that are taken -/

/-- The plain name of a tool has no more units than the provider takes. -/
def Short (tool : Text × Text) : Prop := (plainName tool.1 tool.2).length ≤ MAX_TOOL_NAME_LENGTH

instance (tool : Text × Text) : Decidable (Short tool) :=
  inferInstanceAs (Decidable (_ ≤ _))

variable (sha256) in
/-- The names that some tools take: a plain one that is short, and the one with a hash of a tool whose plain
name is long, or was taken before. -/
inductive Taken : List (Text × Text) → Text → Prop
  | plain (tools : List (Text × Text)) {tool : Text × Text} (short : Short tool) :
    Taken (tools ++ [tool]) (plainName tool.1 tool.2)
  | hashed {tools : List (Text × Text)} {tool : Text × Text}
    (cut : Short tool → Taken tools (plainName tool.1 tool.2)) :
    Taken (tools ++ [tool]) (hashedName sha256 tool.1 tool.2)
  | earlier {tools : List (Text × Text)} {name : Text} (tool : Text × Text) (taken : Taken tools name) :
    Taken (tools ++ [tool]) name

theorem taken_nil {name : Text} : ¬Taken sha256 [] name := by
  intro taken
  generalize none_ : ([] : List (Text × Text)) = tools at taken
  cases taken <;> simp at none_

theorem taken_snoc {tools : List (Text × Text)} {name : Text} :
    Taken sha256 (tools ++ [tool]) name ↔ Taken sha256 tools name ∨
      (Short tool ∧ name = plainName tool.1 tool.2) ∨
      ((Short tool → Taken sha256 tools (plainName tool.1 tool.2)) ∧
        name = hashedName sha256 tool.1 tool.2) := by
  constructor
  · intro taken
    generalize same : tools ++ [tool] = all at taken
    cases taken with
    | plain others short =>
      obtain ⟨-, last⟩ := append_inj' same rfl
      obtain rfl := List.singleton_inj.mp last
      exact .inr (.inl ⟨short, rfl⟩)
    | hashed cut =>
      obtain ⟨rfl, last⟩ := append_inj' same rfl
      obtain rfl := List.singleton_inj.mp last
      exact .inr (.inr ⟨cut, rfl⟩)
    | earlier other taken =>
      obtain ⟨rfl, -⟩ := append_inj' same rfl
      exact .inl taken
  · rintro (taken | ⟨short, rfl⟩ | ⟨cut, rfl⟩)
    · exact .earlier tool taken
    · exact .plain tools short
    · exact .hashed cut

theorem nameOf_plain {used : List Text} (short : Short tool)
    (free : plainName tool.1 tool.2 ∉ used) :
    nameOf sha256 used tool = plainName tool.1 tool.2 := by
  unfold nameOf createSecMcpToolName
  dsimp only
  rw [if_pos]
  rw [and_eq_true_iff, not_eq_true', ← not_eq_true, contains_iff_mem]
  exact ⟨decide_eq_true short, free⟩

theorem nameOf_hashed {used : List Text} (cut : Short tool → plainName tool.1 tool.2 ∈ used) :
    nameOf sha256 used tool = hashedName sha256 tool.1 tool.2 := by
  unfold nameOf createSecMcpToolName
  dsimp only
  rw [if_neg]
  rw [and_eq_true_iff, not_eq_true', ← not_eq_true, contains_iff_mem]
  rintro ⟨short, free⟩
  exact free (cut (of_decide_eq_true short))

/-- **The names that some tools are given** are those that they take. -/
theorem mem_names_iff (tools : List (Text × Text)) (name : Text) :
    name ∈ assign (nameOf sha256) [] tools ↔ Taken sha256 tools name := by
  induction tools using List.reverseRecOn generalizing name with
  | nil => exact iff_of_false not_mem_nil taken_nil
  | append_singleton tools tool ih =>
    rw [assign_snoc, nil_append, mem_append, mem_singleton, ih, taken_snoc]
    refine or_congr_right' fun free => ?_
    by_cases plain : Short tool ∧ plainName tool.1 tool.2 ∉ assign (nameOf sha256) [] tools
    · rw [nameOf_plain plain.1 plain.2]
      refine ⟨fun same => .inl ⟨plain.1, same⟩, ?_⟩
      rintro (⟨-, same⟩ | ⟨cut, -⟩)
      · exact same
      · exact absurd ((ih _).mpr (cut plain.1)) plain.2
    · have cut : Short tool → plainName tool.1 tool.2 ∈ assign (nameOf sha256) [] tools :=
        fun short => not_not.mp fun new => plain ⟨short, new⟩
      rw [nameOf_hashed cut]
      refine ⟨fun same => .inr ⟨fun short => (ih _).mp (cut short), same⟩, ?_⟩
      rintro (⟨short, rfl⟩ | ⟨-, same⟩)
      · exact absurd ((ih _).mp (cut short)) free
      · exact same

/-! ### Names that differ -/

/-- **MCP tool names are unique**, and the provider takes them; what is called under a name is what is
registered for it. -/
structure Registered (bridge : SecMcpBridge) : Prop where
  unique : (bridge.registrations.map Registration.name).Nodup
  fits : ∀ registration ∈ bridge.registrations, Fits registration.name
  reached : ∀ first ∈ bridge.registrations, ∀ second ∈ bridge.registrations,
    first.name = second.name → first = second

variable (sha256) in
/-- A tool whose plain name is long, or taken before, has a name with a hash that is not. -/
def HashesFree (tools : List (Text × Text)) : Prop :=
  ∀ i tool, tools[i]? = some tool →
    (Short tool → Taken sha256 (tools.take i) (plainName tool.1 tool.2)) →
      ¬Taken sha256 (tools.take i) (hashedName sha256 tool.1 tool.2)

/-- **The names of a bridge differ** exactly when no name with a hash is taken before. -/
theorem registered_iff (sha256 : Sha256) (servers : List (SecMcpServerConfig × Listing)) :
    Registered (openSecMcpBridge sha256 servers) ↔ HashesFree sha256 (servers.flatMap offered) := by
  have names := names_openSecMcpBridge sha256 servers
  have unique : ((openSecMcpBridge sha256 servers).registrations.map Registration.name).Nodup ↔
      HashesFree sha256 (servers.flatMap offered) := by
    rw [names, nodup_assign_iff]
    refine forall₃_congr fun i tool _ => ?_
    by_cases plain : Short tool ∧ plainName tool.1 tool.2 ∉
        assign (nameOf sha256) [] ((servers.flatMap offered).take i)
    · rw [nameOf_plain plain.1 plain.2]
      exact iff_of_true plain.2 fun cut => absurd ((mem_names_iff _ _).mpr (cut plain.1)) plain.2
    · have cut : Short tool →
          plainName tool.1 tool.2 ∈ assign (nameOf sha256) [] ((servers.flatMap offered).take i) :=
        fun short => not_not.mp fun new => plain ⟨short, new⟩
      rw [nameOf_hashed cut, mem_names_iff]
      exact ⟨fun free _ => free, fun free => free fun short => (mem_names_iff _ _).mp (cut short)⟩
  refine ⟨fun registered => unique.mp registered.unique, fun free => ⟨unique.mpr free, ?_, ?_⟩⟩
  · intro registration isIn
    have named : registration.name ∈ assign (nameOf sha256) [] (servers.flatMap offered) :=
      names ▸ mem_map_of_mem isIn
    obtain ⟨i, at_⟩ := mem_iff_getElem?.mp named
    rw [getElem?_assign] at at_
    obtain ⟨tool, -, same⟩ := Option.map_eq_some_iff.mp at_
    rw [← same]
    exact createSecMcpToolName_fits _ _ _
  · intro first isFirst second isSecond same
    exact inj_on_of_nodup_map (unique.mpr free) isFirst isSecond same

end Names

/-- The digest of `kali`, a zero byte and `nmap`. -/
def nmapDigest : Text := text "cc9139830619c660e698edcab8ecb71bcd9fec633e27501ecb950ef9729ccc77"

/-- A digest that is right for one tool. -/
def nmapSha256 : Sha256 where
  hex _ := nmapDigest
  length_hex _ := by decide
  digits_hex _ := List.all_eq_true.mp (by decide)

/-- **A tool that is listed three times** has one name twice. -/
theorem listed_thrice : ¬Registered (openSecMcpBridge nmapSha256
    [(⟨text "kali", none, none, none⟩, .listed [text "nmap", text "nmap", text "nmap"])]) := by
  intro registered
  exact absurd registered.unique (by decide)

end TianGong.SecAgent

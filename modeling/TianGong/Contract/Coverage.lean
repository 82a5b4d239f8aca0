/-
**Coverage: when a provider serves a consumer's contract.**

`coverage` compares two descriptions member by member: the consumer's arguments with the provider's,
the provider's results and states with the consumer's. What a consumer sends is cleaned under its own
schema, what it receives is not.

* `Sent`, `Received`: the schemas a value passes between, with the sender's first.
* `compatible_iff`: when `fits` and `coverage` keep their promise.
-/

import TianGong.Contract.Unread

namespace TianGong.Contract

/-! ### Descriptions -/

inductive ContractScope
  | remote
  | local
deriving DecidableEq

/-- A member's description: absent `args`, the method takes none; absent `result`, it returns nothing.
A native object is named by its id. -/
inductive MemberDescription
  | method (args result : Option JsonValue)
  | state (schema : JsonValue)
  | native (id : Text)

structure Description where
  name : Text
  scope : ContractScope
  input : JsonValue
  host : Option JsonValue
  variants : List (Text × List (Text × MemberDescription))

/-- `variants[kind]`: what every object inherits describes no member. -/
def variantOf (variants : List (Text × List (Text × MemberDescription))) (kind : Text) :
    Option (List (Text × MemberDescription)) :=
  match Assoc.get kind variants with
  | some members => some members
  | none => if kind ∈ INHERITED then some [] else none

section Coverage

variable (tests : Text → Text → Bool)

/-- Why a member that is offered does not serve as the one that is wanted. -/
def coverMember (member : Text) (offered : Option MemberDescription) (wanted : MemberDescription) :
    Option Text :=
  match offered, wanted with
  | some (.method args result), .method wantedArgs wantedResult =>
    if wantedArgs.isNone ≠ args.isNone then some (member ++ text " arguments")
    else if wantedArgs.isSome ∧ args.isSome ∧ fits tests wantedArgs args = false then
      some (member ++ text " arguments")
    else if wantedResult.isSome ∧ (result.isNone ∨ fits tests result wantedResult = false) then
      some (member ++ text " result")
    else none
  | some (.state schema), .state wantedSchema =>
    if fits tests (some schema) (some wantedSchema) = false then some (member ++ text " state") else none
  | some (.native id), .native wantedId =>
    if id ≠ wantedId then some (member ++ text " opaque " ++ id ++ text " != " ++ wantedId) else none
  | _, _ => some (member ++ text " missing or of another kind")

/-- `coverage`: why `provider` does not cover `consumer`, or none when it does. -/
def coverage (provider consumer : Description) : Option Text :=
  if provider.name ≠ consumer.name ∨ provider.scope ≠ consumer.scope then some (text "different type")
  else if deepEqual provider.host consumer.host = false then some (text "host")
  else if fits tests (some consumer.input) (some provider.input) = false then some (text "input")
  else consumer.variants.findSome? fun variant =>
    match variantOf provider.variants variant.1 with
    | none => some (text "variant " ++ variant.1 ++ text " missing")
    | some offered => variant.2.findSome? fun wanted =>
        coverMember tests (variant.1 ++ text "." ++ wanted.1) (Assoc.get wanted.1 offered) wanted.2

end Coverage

/-! ### What passes between the two -/

/-- The member a consumer wants, and the one a provider offers for it. -/
def Offers (provider consumer : Description) (wanted offered : MemberDescription) : Prop :=
  ∃ kind members name others, (kind, members) ∈ consumer.variants ∧ (name, wanted) ∈ members ∧
    variantOf provider.variants kind = some others ∧ Assoc.get name others = some offered

/-- A value valid under the first schema, the consumer's, is sent to the second, the provider's. -/
inductive Sent (provider consumer : Description) : JsonValue → JsonValue → Prop where
  | input : Sent provider consumer consumer.input provider.input
  | args {mine theirs : JsonValue} {result result' : Option JsonValue}
      (offers : Offers provider consumer (.method (some mine) result) (.method (some theirs) result')) :
      Sent provider consumer mine theirs

/-- A value valid under the first schema, the provider's, comes to the second, the consumer's. -/
inductive Received (provider consumer : Description) : JsonValue → JsonValue → Prop where
  | result {theirs mine : JsonValue} {args args' : Option JsonValue}
      (offers : Offers provider consumer (.method args (some mine)) (.method args' (some theirs))) :
      Received provider consumer theirs mine
  | state {theirs mine : JsonValue} (offers : Offers provider consumer (.state mine) (.state theirs)) :
      Received provider consumer theirs mine

section Covers

variable {tests : Text → Text → Bool} {provider consumer : Description}

section Covers

variable (covers : coverage tests provider consumer = none)
include covers

theorem input_of_coverage :
    fits tests (some consumer.input) (some provider.input) = true := by
  unfold coverage at covers
  split_ifs at covers with type host input
  simpa using input

theorem member_of_coverage {wanted offered : MemberDescription}
    (offers : Offers provider consumer wanted offered) :
    ∃ member, coverMember tests member (some offered) wanted = none := by
  obtain ⟨kind, members, name, others, inside, member, found, there⟩ := offers
  unfold coverage at covers
  split_ifs at covers
  rw [List.findSome?_eq_none_iff] at covers
  have one := covers (kind, members) inside
  rw [found] at one
  dsimp only at one
  rw [List.findSome?_eq_none_iff] at one
  have two := one (name, wanted) member
  rw [there] at two
  exact ⟨_, two⟩

theorem fits_of_sent {mine theirs : JsonValue} (sent : Sent provider consumer mine theirs) :
    fits tests (some mine) (some theirs) = true := by
  cases sent with
  | input => exact input_of_coverage covers
  | args offers =>
    obtain ⟨member, covered⟩ := member_of_coverage covers offers
    rw [coverMember] at covered
    split_ifs at covered with presence unfit
    simpa using unfit

theorem fits_of_received {theirs mine : JsonValue}
    (received : Received provider consumer theirs mine) :
    fits tests (some theirs) (some mine) = true := by
  cases received with
  | result offers =>
    obtain ⟨member, covered⟩ := member_of_coverage covers offers
    rw [coverMember] at covered
    split_ifs at covered with presence unfit result
    simpa using result
  | state offers =>
    obtain ⟨member, covered⟩ := member_of_coverage covers offers
    rw [coverMember] at covered
    split_ifs at covered with unfit
    simpa using unfit

end Covers

end Covers

/-! ### Compatibility -/

/-- Every value of the first schema, read closed or not, is a value of the second. -/
def Within (r : Reading) (closed : Bool) (sub sup : Option JsonValue) : Prop :=
  ∀ value, Valid r closed sub value → Valid r false sup value

/-- No value of the first schema fails a check of the second that `fits` compares with nothing. -/
def NothingUnread (r : Reading) (closed : Bool) (sub sup : Option JsonValue) : Prop :=
  ∀ value, Valid r closed sub value → Unread r closed sub sup value

theorem within_iff {r : Reading} {closed : Bool} {sub sup : Option JsonValue}
    (fit : fits r.tests sub sup = true) : Within r closed sub sup ↔ NothingUnread r closed sub sup :=
  forall_congr' fun _ => imp_congr_right fun holds => valid_iff_unread fit holds

/-- A schema of values of some types. -/
def ofTypes (types : List Text) : JsonValue :=
  .object () [(text "type", .array () (types.map .string))]

/-- A schema of arrays whose first item is a string. -/
def openTuple : JsonValue :=
  .object () [(text "type", .string (text "array")), (text "items", .array () [ofTypes [text "string"]])]

/-- The same with no further item. -/
def closedTuple : JsonValue :=
  .object () [(text "type", .string (text "array")), (text "items", .array () [ofTypes [text "string"]]),
    (text "additionalItems", .bool false)]

/-- A reading in which every constraint holds. -/
def plain : Reading where
  tests := fun _ _ => false
  isInteger := fun _ => false
  holds := fun _ _ _ => True

theorem strings_map (types : List Text) : strings (types.map .string) = types := by
  induction types with
  | nil => rfl
  | cons type types ih =>
    rw [strings, List.map_cons, List.filterMap_cons]
    exact congrArg (type :: ·) ih

theorem typesOf_ofTypes (types : List Text) : typesOf (keywords (some (ofTypes types))) = some types :=
  congrArg some (strings_map types)

/-- A string is valid under the schema of strings. -/
theorem valid_string (closed : Bool) (s : Text) :
    Valid plain closed (some (ofTypes [text "string"])) (.string s) := by
  rw [valid_iff]
  refine ⟨fun _ _ _ _ => trivial, fun types found => ?_, fun _ found => (by cases found),
    fun _ found => (by cases found), fun _ found => (by cases found), fun _ is => (by cases is),
    fun _ is => (by cases is)⟩
  rw [typesOf_ofTypes] at found
  cases found
  exact ⟨_, List.mem_singleton_self _, by simp only [hasType]; decide⟩

theorem valid_openTuple :
    Valid plain true (some openTuple) (.array () [.string (text "a"), .null]) := by
  rw [valid_iff]
  refine ⟨fun _ _ _ _ => trivial, fun types found => ?_, fun _ found => (by cases found),
    fun _ found => (by cases found), fun _ found => (by cases found), fun _ is => (by cases is),
    fun items is => ⟨fun schemas found i x at_ => ⟨fun part here => ?_, fun _ _ found => ?_⟩,
      fun none => (by cases none)⟩⟩
  · cases found
    exact ⟨_, List.mem_singleton_self _, by decide⟩
  · cases is
    cases found
    cases i with
    | zero =>
      cases at_
      cases here
      exact valid_string true _
    | succ i => cases here
  · cases found

/-- A contract of one method that takes a string, or also `null`, and returns nothing. -/
def speaker (types : List Text) : Description where
  name := text "t.speaker"
  scope := .local
  input := .object () []
  host := none
  variants := [([], [(text "say", .method (some (ofTypes types)) none)])]

theorem nothingUnread_string : NothingUnread plain true (some (ofTypes [text "string"]))
    (some (ofTypes [text "string", text "null"])) := by
  intro value holds
  obtain ⟨_, typed, _⟩ := valid_iff.mp holds
  obtain ⟨type, member, has⟩ := typed _ (typesOf_ofTypes _)
  cases List.mem_singleton.mp member
  rw [Unread, UnreadStep, if_neg (by decide +kernel)]
  show NullConstraints plain _ value ∧ UnreadNames plain _ _ _ value ∧ UnreadItems plain _ _ _ value
  refine ⟨fun _ _ _ => trivial, fun fields is => ?_, fun items is => ?_⟩
  · subst is
    exact absurd has (by simp only [hasType]; decide)
  · subst is
    exact absurd has (by simp only [hasType]; decide)

end TianGong.Contract

/-
**What a schema means.**

`Valid` reads a schema as a validator does. What only a validator knows is given by a `Reading`: which
names a pattern matches, which numbers are integers, and what the other keywords ask, so that every
constraint is an arbitrary predicate. Read `closed`, an object schema admits only the names it knows:
this is a value cleaned under its own schema.

* `Valid.mono`: what is valid without other names is valid.
* `valid_of_same`: the order of a schema's keys, and its annotations, mean nothing.
-/

import TianGong.Contract.Schema

namespace TianGong.Contract

/-- What a validator makes of patterns, of numbers and of the keywords that are not about shape; the
parameter of such a keyword is read up to the order of keys. -/
structure Reading where
  tests : Text → Text → Bool
  isInteger : JsNumber → Bool
  holds : Text → JsonValue → JsonValue → Prop

/-- Whether a value is of a type. No JSON value is a function. -/
def hasType (r : Reading) (type : Text) : JsonValue → Bool
  | .null => type = text "null"
  | .bool _ => type = text "boolean"
  | .number n => type = text "number" || (type = text "integer" && r.isInteger n)
  | .string _ => type = text "string"
  | .array _ _ => type = text "array"
  | .object _ _ => type = text "object"

section Groups

variable (r : Reading) (closed : Bool) (valid : JsonValue → JsonValue → Prop)

/-- The keywords that are not about shape. -/
def Constrained (schema : List (Text × JsonValue)) (value : JsonValue) : Prop :=
  ∀ key parameter, Assoc.get key schema = some parameter → key ∉ STRUCTURE →
    r.holds key (canonicalJson parameter) value

/-- `type`. -/
def Typed (schema : List (Text × JsonValue)) (value : JsonValue) : Prop :=
  ∀ types, typesOf schema = some types → ∃ type ∈ types, hasType r type value = true

/-- `const`. -/
def Constant (schema : List (Text × JsonValue)) (value : JsonValue) : Prop :=
  ∀ constant, Assoc.get (text "const") schema = some constant →
    canonicalJson value = canonicalJson constant

/-- `enum`. -/
def Enumerated (schema : List (Text × JsonValue)) (value : JsonValue) : Prop :=
  ∀ values, arrayOf (text "enum") schema = some values →
    ∃ item ∈ values, canonicalJson value = canonicalJson item

/-- `anyOf`. -/
def Branched (schema : List (Text × JsonValue)) (value : JsonValue) : Prop :=
  ∀ branches, arrayOf (text "anyOf") schema = some branches →
    ∃ branch ∈ branches, valid branch value

/-- No property and no pattern names the key. -/
def Unnamed (schema : List (Text × JsonValue)) (key : Text) : Prop :=
  Assoc.get key (namedOf (text "properties") schema) = none ∧
    ∀ pattern property, Assoc.get pattern (namedOf (text "patternProperties") schema) = some property →
      r.tests pattern key = false

/-- An object schema that is read closed and gives other names no schema has no others. -/
def Closes (schema : List (Text × JsonValue)) : Prop :=
  closed = true ∧ text "object" ∈ (typesOf schema).getD [] ∧
    ∀ additional, Assoc.get (text "additionalProperties") schema = some additional →
      isTypeofObject additional = false

/-- What a schema asks of the value under a key. -/
structure Field (schema : List (Text × JsonValue)) (key : Text) (value : JsonValue) : Prop where
  property : ∀ property, Assoc.get key (namedOf (text "properties") schema) = some property →
    valid property value
  pattern : ∀ pattern property,
    Assoc.get pattern (namedOf (text "patternProperties") schema) = some property →
      r.tests pattern key = true → valid property value
  additional : Unnamed r schema key → ∀ additional,
    Assoc.get (text "additionalProperties") schema = some additional →
      additional ≠ .bool false ∧ valid additional value
  known : Unnamed r schema key → ¬Closes closed schema

/-- The keywords about objects. -/
def Named (schema : List (Text × JsonValue)) (value : JsonValue) : Prop :=
  ∀ fields, value = .object () fields →
    (∀ key ∈ requiredOf schema, Assoc.has key fields = true) ∧
      ∀ key x, Assoc.get key fields = some x → Field r closed valid schema key x

/-- The keywords about arrays: a tuple has a schema for each of its first items. -/
def Itemed (schema : List (Text × JsonValue)) (value : JsonValue) : Prop :=
  ∀ items, value = .array () items →
    (∀ schemas, arrayOf (text "items") schema = some schemas → ∀ i x, items[i]? = some x →
      (∀ part, schemas[i]? = some part → valid part x) ∧
      (schemas.length ≤ i → ∀ additional, Assoc.get (text "additionalItems") schema = some additional →
        additional ≠ .bool false ∧ valid additional x)) ∧
    (arrayOf (text "items") schema = none → ∀ part, Assoc.get (text "items") schema = some part →
      ∀ x ∈ items, valid part x)

end Groups

/-- **Whether a value is valid under a schema**, read closed or not. -/
def Valid (r : Reading) (closed : Bool) (schema : Option JsonValue) (value : JsonValue) : Prop :=
  let part := fun part x => ∃ _ : weight part < weightOf schema, Valid r closed (some part) x
  Constrained r (keywords schema) value ∧ Typed r (keywords schema) value ∧
    Constant (keywords schema) value ∧ Enumerated (keywords schema) value ∧
    Branched part (keywords schema) value ∧ Named r closed part (keywords schema) value ∧
    Itemed part (keywords schema) value
termination_by weightOf schema
decreasing_by exact ‹_›

/-! ### Schemas that mean the same -/

/-- The same value up to the order of keys, or none. -/
def Alike (a b : Option JsonValue) : Prop := a.map canonicalJson = b.map canonicalJson

/-- The same keywords, with the same values up to the order of keys. -/
def Same (schema schema' : List (Text × JsonValue)) : Prop :=
  ∀ key, Alike (Assoc.get key schema) (Assoc.get key schema')

variable {a b : JsonValue} {key : Text}

theorem alike_some (canonical : canonicalJson a = canonicalJson b) :
    Alike (some a) (some b) := congrArg some canonical

theorem Alike.of_some {a : Option JsonValue} (alike : Alike a (some b)) :
    ∃ a', a = some a' ∧ canonicalJson a' = canonicalJson b := by
  cases a with
  | none => cases alike
  | some a' => exact ⟨a', rfl, Option.some.inj alike⟩

theorem Alike.of_none {a : Option JsonValue} (alike : Alike a none) : a = none := by
  cases a with
  | none => rfl
  | some a' => cases alike

/-- A canonical object's fields. -/
theorem same_of_canonical (alike : canonicalJson a = canonicalJson b) :
    Same (asSchema (some a)) (asSchema (some b)) := by
  intro key
  cases a <;> cases b <;> simp only [canonicalJson, reduceCtorEq, Json.bool.injEq] at alike <;>
    try exact rfl
  · rw [alike]
    rfl
  · rename_i fields _ fields'
    obtain ⟨_, sorted⟩ := Json.object.inj alike
    have got := congrArg (Assoc.get key) sorted
    rw [get_canonical, get_canonical] at got
    exact got

theorem Alike.asSchema {a b : Option JsonValue} (alike : Alike a b) :
    Same (asSchema a) (asSchema b) := by
  cases b with
  | none =>
    rw [alike.of_none]
    exact fun _ => rfl
  | some b =>
    obtain ⟨a', rfl, same⟩ := alike.of_some
    exact same_of_canonical same

theorem get_keywords (schema : Option JsonValue) (key : Text) :
    Assoc.get key (keywords schema) =
      if key ∈ ANNOTATIONS then none else Assoc.get key (asSchema schema) := by
  unfold keywords withoutAnnotations
  induction asSchema schema with
  | nil =>
    split_ifs <;> rfl
  | cons e rest ih =>
    obtain ⟨k, x⟩ := e
    rw [List.filter_cons]
    by_cases here : k = key
    · subst here
      by_cases annotates : k ∈ ANNOTATIONS
      · rw [if_neg (by simpa using annotates), ih, if_pos annotates, if_pos annotates]
      · rw [if_pos (by simpa using annotates), if_neg annotates, Assoc.get_cons_self,
          Assoc.get_cons_self]
    · rw [Assoc.get_cons_ne here]
      split_ifs at ih ⊢ <;> first | exact ih | rw [Assoc.get_cons_ne here, ih]

theorem Alike.keywords {a b : Option JsonValue} (alike : Alike a b) :
    Same (keywords a) (keywords b) := by
  intro key
  rw [get_keywords, get_keywords]
  split_ifs
  · rfl
  · exact alike.asSchema key

namespace Same

variable {schema schema' : List (Text × JsonValue)}

theorem symm (same : Same schema schema') : Same schema' schema := fun key => (same key).symm

theorem namedOf (same : Same schema schema') (key : Text) :
    Same (namedOf key schema) (namedOf key schema') := (same key).asSchema

theorem arrayOf (same : Same schema schema') {items' : List JsonValue}
    (holds : arrayOf key schema' = some items') :
    ∃ items, Contract.arrayOf key schema = some items ∧
      items.map canonicalJson = items'.map canonicalJson := by
  unfold Contract.arrayOf at holds
  split at holds
  · rename_i id found
    cases holds
    have alike := same key
    rw [found] at alike
    obtain ⟨a, there, canonical⟩ := alike.of_some
    cases a <;> simp only [canonicalJson, reduceCtorEq] at canonical
    rename_i items
    refine ⟨items, by rw [Contract.arrayOf, there], ?_⟩
    rw [← canonicalItems_eq, ← canonicalItems_eq]
    exact (Json.array.inj canonical).2
  · cases holds

theorem arrayOf_none (same : Same schema schema') (missing : Contract.arrayOf key schema' = none) :
    Contract.arrayOf key schema = none := by
  cases found : Contract.arrayOf key schema with
  | none => rfl
  | some items =>
    obtain ⟨_, found', _⟩ := same.symm.arrayOf found
    rw [missing] at found'
    cases found'

theorem strings_canonical (items : List JsonValue) :
    strings (items.map canonicalJson) = strings items := by
  unfold strings
  rw [List.filterMap_map]
  refine List.filterMap_congr fun x _ => ?_
  cases x <;> rfl

theorem requiredOf (same : Same schema schema') : requiredOf schema = requiredOf schema' := by
  unfold Contract.requiredOf
  cases found : Contract.arrayOf (text "required") schema' with
  | none => rw [same.arrayOf_none found]
  | some items' =>
    obtain ⟨items, there, canonical⟩ := same.arrayOf found
    rw [there, Option.getD_some, Option.getD_some, ← strings_canonical, canonical, strings_canonical]

theorem typesOf (same : Same schema schema') : typesOf schema = typesOf schema' := by
  unfold Contract.typesOf
  have alike := same (text "type")
  cases found : Assoc.get (text "type") schema' with
  | none =>
    rw [found] at alike
    rw [alike.of_none]
  | some b =>
    rw [found] at alike
    obtain ⟨a, there, canonical⟩ := alike.of_some
    rw [there]
    cases a <;> cases b <;>
      simp only [canonicalJson, reduceCtorEq, Json.string.injEq, Json.array.injEq] at canonical ⊢
    · rw [canonical]
    · rw [← strings_canonical, ← canonicalItems_eq, canonical.2, canonicalItems_eq,
        strings_canonical]

end Same

theorem isTypeofObject_canonical (alike : canonicalJson a = canonicalJson b) :
    isTypeofObject a = isTypeofObject b := by
  cases a <;> cases b <;> simp only [canonicalJson, reduceCtorEq] at alike <;> rfl

theorem eq_bool_of_canonical {b : Bool} (alike : canonicalJson a = canonicalJson (.bool b)) :
    a = .bool b := by
  cases a <;> simp only [canonicalJson, reduceCtorEq] at alike
  exact alike

/-! ### The groups of keywords of alike schemas -/

section Transfer

variable {r : Reading} {closed closed' : Bool} {valid valid' : JsonValue → JsonValue → Prop}
  {schema schema' : List (Text × JsonValue)} {value : JsonValue}

/-- What is valid under a part is valid under an alike part of the other schema. -/
def Parts (valid valid' : JsonValue → JsonValue → Prop) (schema' : List (Text × JsonValue)) : Prop :=
  ∀ part part' x, canonicalJson part = canonicalJson part' → weight part' < fieldsWeight schema' →
    valid part x → valid' part' x

theorem Constrained.transfer (same : Same schema schema') (holds : Constrained r schema value) :
    Constrained r schema' value := by
  intro key parameter found shape
  have alike := same key
  rw [found] at alike
  obtain ⟨parameter', there, canonical⟩ := alike.of_some
  exact canonical ▸ holds key parameter' there shape

theorem Typed.transfer (same : Same schema schema') (holds : Typed r schema value) :
    Typed r schema' value := fun types found => holds types (same.typesOf.trans found)

theorem Constant.transfer (same : Same schema schema') (holds : Constant schema value) :
    Constant schema' value := by
  intro constant found
  have alike := same (text "const")
  rw [found] at alike
  obtain ⟨constant', there, canonical⟩ := alike.of_some
  exact (holds constant' there).trans canonical

/-- An item of a list has an alike item in an alike list. -/
theorem mem_of_canonical {items items' : List JsonValue}
    (canonical : items.map canonicalJson = items'.map canonicalJson) {x : JsonValue}
    (member : x ∈ items) : ∃ x' ∈ items', canonicalJson x = canonicalJson x' := by
  have inside : canonicalJson x ∈ items'.map canonicalJson :=
    canonical ▸ List.mem_map_of_mem member
  obtain ⟨x', member', equal⟩ := List.mem_map.mp inside
  exact ⟨x', member', equal.symm⟩

section Same

variable (same : Same schema schema')
include same

theorem Enumerated.transfer (holds : Enumerated schema value) :
    Enumerated schema' value := by
  intro values found
  obtain ⟨values', there, canonical⟩ := same.arrayOf found
  obtain ⟨item, member, equal⟩ := holds values' there
  obtain ⟨item', member', alike⟩ := mem_of_canonical canonical member
  exact ⟨item', member', equal.trans alike⟩

theorem Branched.transfer (parts : Parts valid valid' schema') (holds : Branched valid schema value)
    : Branched valid' schema' value := by
  intro branches found
  obtain ⟨branches', there, canonical⟩ := same.arrayOf found
  obtain ⟨branch, member, holds⟩ := holds branches' there
  obtain ⟨branch', member', alike⟩ := mem_of_canonical canonical member
  have smaller := weight_lt_arrayOf found member'
  rw [weightOf] at smaller
  exact ⟨branch', member', parts branch branch' value alike (by omega) holds⟩

theorem Closes.transfer (less : closed' = true → closed = true) (closes : Closes closed' schema') :
    Closes closed schema := by
  obtain ⟨is, object, none⟩ := closes
  refine ⟨less is, same.typesOf ▸ object, fun additional found => ?_⟩
  have alike := same.symm (text "additionalProperties")
  rw [found] at alike
  obtain ⟨additional', there, canonical⟩ := alike.of_some
  rw [← isTypeofObject_canonical canonical]
  exact none additional' there

theorem Unnamed.transfer (unnamed : Unnamed r schema' key) :
    Unnamed r schema key := by
  constructor
  · have alike := same.namedOf (text "properties") key
    rw [unnamed.1] at alike
    exact alike.of_none
  · intro pattern property found
    have alike := (same.namedOf (text "patternProperties")).symm pattern
    rw [found] at alike
    obtain ⟨property', there, _⟩ := alike.of_some
    exact unnamed.2 pattern property' there

theorem Field.transfer (less : closed' = true → closed = true) (parts : Parts valid valid' schema')
    {x : JsonValue} (field : Field r closed valid schema key x) :
    Field r closed' valid' schema' key x := by
  refine ⟨fun property found => ?_, fun pattern property found tests => ?_,
    fun unnamed additional found => ?_, fun unnamed closes => ?_⟩
  · have alike := same.namedOf (text "properties") key
    rw [found] at alike
    obtain ⟨property', there, canonical⟩ := alike.of_some
    exact parts _ _ _ canonical ((weight_lt_fields (Assoc.mem_of_get found)).trans_le
      (fieldsWeight_namedOf _ _)) (field.property property' there)
  · have alike := same.namedOf (text "patternProperties") pattern
    rw [found] at alike
    obtain ⟨property', there, canonical⟩ := alike.of_some
    exact parts _ _ _ canonical ((weight_lt_fields (Assoc.mem_of_get found)).trans_le
      (fieldsWeight_namedOf _ _)) (field.pattern pattern property' there tests)
  · have alike := same (text "additionalProperties")
    rw [found] at alike
    obtain ⟨additional', there, canonical⟩ := alike.of_some
    obtain ⟨allows, holds⟩ := field.additional (unnamed.transfer same) additional' there
    refine ⟨?_, parts _ _ _ canonical (weight_lt_fields (Assoc.mem_of_get found)) holds⟩
    rintro rfl
    exact allows (eq_bool_of_canonical canonical)
  · exact field.known (unnamed.transfer same) (closes.transfer same less)

theorem Named.transfer (less : closed' = true → closed = true) (parts : Parts valid valid' schema')
    (holds : Named r closed valid schema value) :
    Named r closed' valid' schema' value := by
  intro fields is
  obtain ⟨required, each⟩ := holds fields is
  exact ⟨fun key member => required key (same.requiredOf ▸ member),
    fun key x found => (each key x found).transfer same less parts⟩

theorem Itemed.transfer (parts : Parts valid valid' schema') (holds : Itemed valid schema value) :
    Itemed valid' schema' value := by
  intro items is
  obtain ⟨tuple, every⟩ := holds items is
  refine ⟨fun schemas' found i x at_ => ?_, fun missing part' found x member => ?_⟩
  · obtain ⟨schemas, there, canonical⟩ := same.arrayOf found
    obtain ⟨first, more⟩ := tuple schemas there i x at_
    have length : schemas.length = schemas'.length := by
      simpa using congrArg List.length canonical
    refine ⟨fun part' here => ?_, fun past additional named => ?_⟩
    · have alike := congrArg (fun list => list[i]?) canonical
      simp only [List.getElem?_map, here, Option.map_some, Option.map_eq_some_iff] at alike
      obtain ⟨part, before, canonical'⟩ := alike
      have smaller := weight_lt_arrayOf found (List.mem_of_getElem? here)
      rw [weightOf] at smaller
      exact parts part part' x canonical' (by omega) (first part before)
    · have alike := same (text "additionalItems")
      rw [named] at alike
      obtain ⟨additional', named', canonical'⟩ := alike.of_some
      obtain ⟨allows, holds⟩ := more (length ▸ past) additional' named'
      refine ⟨?_, parts _ _ _ canonical' (weight_lt_fields (Assoc.mem_of_get named)) holds⟩
      rintro rfl
      exact allows (eq_bool_of_canonical canonical')
  · have alike := same (text "items")
    rw [found] at alike
    obtain ⟨part, there, canonical⟩ := alike.of_some
    have none := same.arrayOf_none missing
    exact parts _ _ _ canonical (weight_lt_fields (Assoc.mem_of_get found))
      (every none part there x member)

end Same

end Transfer

/-! ### Validity by groups -/

variable {r : Reading}

/-- **Alike schemas have the same values**, and reading a schema closed has fewer. -/
theorem valid_of_same {closed closed' : Bool} (less : closed' = true → closed = true)
    {schema schema' : Option JsonValue} {value : JsonValue}
    (same : Same (keywords schema) (keywords schema')) (holds : Valid r closed schema value) :
    Valid r closed' schema' value := by
  -- Over the size of the second schema: its parts are smaller.
  generalize size : weightOf schema' = n
  induction n using Nat.strong_induction_on generalizing schema schema' value with
  | _ n ih =>
    subst size
    rw [Valid] at holds ⊢
    obtain ⟨constrained, typed, constant, enumerated, branched, named, itemed⟩ := holds
    have parts : Parts (fun part x => ∃ _ : weight part < weightOf schema,
          Valid r closed (some part) x)
        (fun part x => ∃ _ : weight part < weightOf schema', Valid r closed' (some part) x)
        (keywords schema') := by
      rintro part part' x alike smaller ⟨_, holds⟩
      have inside := smaller.trans_le (fieldsWeight_keywords_le schema')
      exact ⟨inside, ih (weightOf (some part')) inside (alike_some alike).keywords holds rfl⟩
    exact ⟨constrained.transfer same, typed.transfer same, constant.transfer same,
      enumerated.transfer same, branched.transfer same parts, named.transfer same less parts,
      itemed.transfer same parts⟩

/-- **Validity is that of the groups of keywords.** -/
theorem valid_iff {closed : Bool} {schema : Option JsonValue} {value : JsonValue} :
    Valid r closed schema value ↔
      Constrained r (keywords schema) value ∧ Typed r (keywords schema) value ∧
        Constant (keywords schema) value ∧ Enumerated (keywords schema) value ∧
        Branched (fun part => Valid r closed (some part)) (keywords schema) value ∧
        Named r closed (fun part => Valid r closed (some part)) (keywords schema) value ∧
        Itemed (fun part => Valid r closed (some part)) (keywords schema) value := by
  have alike : ∀ {part part' x}, canonicalJson part = canonicalJson part' →
      Valid r closed (some part) x → Valid r closed (some part') x := fun alike holds =>
    valid_of_same id (alike_some alike).keywords holds
  have same : Same (keywords schema) (keywords schema) := fun _ => rfl
  constructor
  · intro holds
    rw [Valid] at holds
    obtain ⟨constrained, typed, constant, enumerated, branched, named, itemed⟩ := holds
    have parts : Parts (fun part x => ∃ _ : weight part < weightOf schema,
          Valid r closed (some part) x) (fun part => Valid r closed (some part))
        (keywords schema) := fun part part' x equal _ holds => alike equal holds.2
    exact ⟨constrained, typed, constant, enumerated, branched.transfer same parts,
      named.transfer same id parts, itemed.transfer same parts⟩
  · rintro ⟨constrained, typed, constant, enumerated, branched, named, itemed⟩
    rw [Valid]
    have parts : Parts (fun part => Valid r closed (some part))
        (fun part x => ∃ _ : weight part < weightOf schema, Valid r closed (some part) x)
        (keywords schema) := fun part part' x equal smaller holds =>
      ⟨smaller.trans_le (fieldsWeight_keywords_le schema), alike equal holds⟩
    exact ⟨constrained, typed, constant, enumerated, branched.transfer same parts,
      named.transfer same id parts, itemed.transfer same parts⟩

end TianGong.Contract

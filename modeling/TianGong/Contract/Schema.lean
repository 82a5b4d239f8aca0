/-
**Schemas as data, and their structural subtyping: `schema.ts`.**

A schema is a JSON value: an object of keywords, or a boolean. `fits` compares two schemas keyword by
keyword; it is total, since every comparison it makes is of parts of the two.

* `canonicalJson`, `deepEqual`: equality of values up to the order of object keys.

A value `undefined` is `none`. A regular expression is known by what it matches (`matches`).
-/

import TianGong.Chord.Json

namespace TianGong.Contract

abbrev JsonValue := Json Unit

/-! ### Equality -/

mutual
/-- Whether two values are the same, key order included. -/
def same : JsonValue → JsonValue → Bool
  | .null, .null => true
  | .bool a, .bool b => a == b
  | .number a, .number b => a = b
  | .string a, .string b => a = b
  | .array _ a, .array _ b => sameItems a b
  | .object _ a, .object _ b => sameFields a b
  | _, _ => false

def sameItems : List JsonValue → List JsonValue → Bool
  | [], [] => true
  | x :: xs, y :: ys => same x y && sameItems xs ys
  | _, _ => false

def sameFields : List (Text × JsonValue) → List (Text × JsonValue) → Bool
  | [], [] => true
  | (k, x) :: xs, (l, y) :: ys => k = l && same x y && sameFields xs ys
  | _, _ => false
end

theorem sameItems_iff {xs : List JsonValue} (each : ∀ x ∈ xs, ∀ y, same x y = true ↔ x = y)
    (ys : List JsonValue) : sameItems xs ys = true ↔ xs = ys := by
  induction xs generalizing ys with
  | nil => cases ys <;> simp [sameItems]
  | cons x xs ih =>
    cases ys with
    | nil => simp [sameItems]
    | cons y ys =>
      rw [sameItems, Bool.and_eq_true, each x List.mem_cons_self,
        ih fun z later => each z (List.mem_cons_of_mem _ later), List.cons.injEq]

theorem sameFields_iff {xs : List (Text × JsonValue)}
    (each : ∀ e ∈ xs, ∀ y, same e.2 y = true ↔ e.2 = y) (ys : List (Text × JsonValue)) :
    sameFields xs ys = true ↔ xs = ys := by
  induction xs generalizing ys with
  | nil => cases ys <;> simp [sameFields]
  | cons e xs ih =>
    obtain ⟨k, x⟩ := e
    cases ys with
    | nil => simp [sameFields]
    | cons f ys =>
      obtain ⟨l, y⟩ := f
      have head : same x y = true ↔ x = y := each (k, x) List.mem_cons_self y
      have rest := ih (fun e later => each e (List.mem_cons_of_mem _ later)) ys
      simp [sameFields, head, rest]

theorem same_iff (a b : JsonValue) : same a b = true ↔ a = b := by
  induction a using Json.induction generalizing b with
  | null | bool | number | string => cases b <;> simp [same]
  | array id items ih => cases b <;> simp [same, sameItems_iff ih]
  | object id fields ih => cases b <;> simp [same, sameFields_iff ih]

instance : DecidableEq JsonValue := fun a b => decidable_of_iff _ (same_iff a b)

/-- Put a field in front of the first one whose key is not smaller. -/
def insertField (e : Text × JsonValue) : List (Text × JsonValue) → List (Text × JsonValue)
  | [] => [e]
  | f :: rest => if f.1 < e.1 then f :: insertField e rest else e :: f :: rest

/-- The fields by their keys' code units. -/
def sortFields (fields : List (Text × JsonValue)) : List (Text × JsonValue) :=
  fields.foldr insertField []

mutual
/-- `canonicalJson`: sorted object keys. The text the source makes is this value's JSON text, which
determines the value. -/
def canonicalJson : JsonValue → JsonValue
  | .null => .null
  | .bool b => .bool b
  | .number n => .number n
  | .string s => .string s
  | .array id items => .array id (canonicalItems items)
  | .object id fields => .object id (sortFields (canonicalFields fields))

def canonicalItems : List JsonValue → List JsonValue
  | [] => []
  | x :: xs => canonicalJson x :: canonicalItems xs

def canonicalFields : List (Text × JsonValue) → List (Text × JsonValue)
  | [] => []
  | (k, x) :: xs => (k, canonicalJson x) :: canonicalFields xs
end

/-- `deepEqual`; the canonical text of `undefined` is that of `null`. -/
def deepEqual (a b : Option JsonValue) : Bool :=
  canonicalJson (a.getD .null) = canonicalJson (b.getD .null)

theorem canonicalItems_eq (items : List JsonValue) :
    canonicalItems items = items.map canonicalJson := by
  induction items with
  | nil => rfl
  | cons x xs ih => rw [canonicalItems, ih, List.map_cons]

variable (fields : List (Text × JsonValue))

theorem canonicalFields_eq :
    canonicalFields fields = fields.map fun e => (e.1, canonicalJson e.2) := by
  induction fields with
  | nil => rfl
  | cons e xs ih =>
    obtain ⟨k, x⟩ := e
    rw [canonicalFields, ih, List.map_cons]

theorem get_insertField (e : Text × JsonValue) (fields : List (Text × JsonValue)) (k : Text) :
    Assoc.get k (insertField e fields) = Assoc.get k (e :: fields) := by
  induction fields with
  | nil => rfl
  | cons f rest ih =>
    unfold insertField
    split_ifs with smaller
    · have apart : f.1 ≠ e.1 := fun equal => by
        rw [equal] at smaller
        exact List.lt_irrefl _ smaller
      by_cases here : f.1 = k
      · subst here
        rw [Assoc.get_cons_ne apart.symm, Assoc.get_cons_self, Assoc.get_cons_self]
      · rw [Assoc.get_cons_ne here, ih]
        by_cases there : e.1 = k
        · subst there
          rw [Assoc.get_cons_self, Assoc.get_cons_self]
        · rw [Assoc.get_cons_ne there, Assoc.get_cons_ne there, Assoc.get_cons_ne here]
    · rfl

/-- Sorting the fields keeps what each key has. -/
theorem get_sortFields (k : Text) : Assoc.get k (sortFields fields) = Assoc.get k fields := by
  unfold sortFields
  induction fields with
  | nil => rfl
  | cons e rest ih =>
    rw [List.foldr_cons, get_insertField]
    by_cases here : e.1 = k
    · subst here
      rw [Assoc.get_cons_self, Assoc.get_cons_self]
    · rw [Assoc.get_cons_ne here, Assoc.get_cons_ne here, ih]

/-- The canonical fields have the canonical values. -/
theorem get_canonical (k : Text) :
    Assoc.get k (sortFields (canonicalFields fields)) = (Assoc.get k fields).map canonicalJson := by
  rw [get_sortFields, canonicalFields_eq, Assoc.get_mapValues]

/-! ### Keywords -/

/-- `asSchema`. A schema that is neither an object nor `false` asks for nothing. -/
def asSchema : Option JsonValue → List (Text × JsonValue)
  | some (.object _ fields) => fields
  | some (.bool false) => [(text "not", .object () [])]
  | _ => []

def CONSTRAINTS : List Text :=
  [text "minLength", text "maxLength", text "pattern", text "format", text "minimum", text "maximum",
    text "exclusiveMinimum", text "exclusiveMaximum", text "multipleOf", text "minItems",
    text "maxItems", text "uniqueItems", text "minProperties", text "maxProperties"]

/-- The keywords about the shape of a value. -/
def STRUCTURE : List Text :=
  [text "type", text "properties", text "required", text "additionalProperties",
    text "patternProperties", text "items", text "additionalItems", text "const", text "enum",
    text "anyOf", text "parameters", text "returnType"]

/-- Keywords `fits` reasons about. -/
def KNOWN : List Text := CONSTRAINTS ++ STRUCTURE

/-- Annotations: no effect on validity. -/
def ANNOTATIONS : List Text :=
  [text "title", text "description", text "default", text "examples", text "$id", text "$schema",
    text "$comment", text "readOnly", text "writeOnly", text "deprecated"]

def withoutAnnotations (schema : List (Text × JsonValue)) : List (Text × JsonValue) :=
  schema.filter fun e => e.1 ∉ ANNOTATIONS

/-- The keywords of a schema. -/
def keywords (schema : Option JsonValue) : List (Text × JsonValue) :=
  withoutAnnotations (asSchema schema)

/-- The strings of an array. -/
def strings (items : List JsonValue) : List Text :=
  items.filterMap fun
    | .string s => some s
    | _ => none

def typesOf (schema : List (Text × JsonValue)) : Option (List Text) :=
  match Assoc.get (text "type") schema with
  | some (.string s) => some [s]
  | some (.array _ items) => some (strings items)
  | _ => none

/-- The array a keyword holds. -/
def arrayOf (key : Text) (schema : List (Text × JsonValue)) : Option (List JsonValue) :=
  match Assoc.get key schema with
  | some (.array _ items) => some items
  | _ => none

/-- The schemas a keyword holds under names. -/
def namedOf (key : Text) (schema : List (Text × JsonValue)) : List (Text × JsonValue) :=
  asSchema (Assoc.get key schema)

/-- `required`. -/
def requiredOf (schema : List (Text × JsonValue)) : List Text :=
  strings ((arrayOf (text "required") schema).getD [])

/-- The values a schema lists. -/
def listed (schema : List (Text × JsonValue)) : Option (List JsonValue) :=
  match Assoc.get (text "const") schema with
  | some value => some [value]
  | none => arrayOf (text "enum") schema

/-- What every object inherits. -/
def INHERITED : List Text :=
  [text "constructor", text "__defineGetter__", text "__defineSetter__", text "hasOwnProperty",
    text "__lookupGetter__", text "__lookupSetter__", text "isPrototypeOf",
    text "propertyIsEnumerable", text "toString", text "valueOf", text "__proto__",
    text "toLocaleString"]

/-- `key in object`. What is inherited is a function or the prototype, and asks for nothing. -/
def within (key : Text) (object : List (Text × JsonValue)) : Bool :=
  Assoc.has key object || key ∈ INHERITED

/-- `typeof value === "object"`. -/
def isTypeofObject : JsonValue → Bool
  | .bool _ | .number _ | .string _ => false
  | _ => true

/-- `typeof value === "boolean"`. -/
def isBoolean : JsonValue → Bool
  | .bool _ => true
  | _ => false

/-! ### The size of a schema -/

mutual
def weight : JsonValue → Nat
  | .null => 1
  | .bool _ => 5
  | .number _ => 1
  | .string _ => 1
  | .array _ items => 1 + itemsWeight items
  | .object _ fields => 1 + fieldsWeight fields

def itemsWeight : List JsonValue → Nat
  | [] => 0
  | x :: xs => 1 + weight x + itemsWeight xs

def fieldsWeight : List (Text × JsonValue) → Nat
  | [] => 0
  | (_, x) :: xs => 1 + weight x + fieldsWeight xs
end

def weightOf : Option JsonValue → Nat
  | none => 0
  | some schema => weight schema

variable {key : Text} {schema : List (Text × JsonValue)} {items : List JsonValue} {x : JsonValue}

theorem weight_lt_items (member : x ∈ items) : weight x < itemsWeight items := by
  induction items with
  | nil => cases member
  | cons y ys ih =>
    rw [itemsWeight]
    rcases List.mem_cons.mp member with rfl | later
    · omega
    · have := ih later
      omega

theorem weight_lt_fields {fields : List (Text × JsonValue)} {e : Text × JsonValue}
    (member : e ∈ fields) : weight e.2 < fieldsWeight fields := by
  induction fields with
  | nil => cases member
  | cons f fs ih =>
    obtain ⟨k, y⟩ := f
    rw [fieldsWeight]
    rcases List.mem_cons.mp member with rfl | later
    · show weight y < _
      omega
    · have := ih later
      omega

theorem weightOf_get (key : Text) (fields : List (Text × JsonValue)) :
    weightOf (Assoc.get key fields) ≤ fieldsWeight fields := by
  cases found : Assoc.get key fields with
  | none => exact Nat.zero_le _
  | some value => exact (weight_lt_fields (Assoc.mem_of_get found)).le

theorem fieldsWeight_filter (p : Text × JsonValue → Bool) (fields : List (Text × JsonValue)) :
    fieldsWeight (fields.filter p) ≤ fieldsWeight fields := by
  induction fields with
  | nil => exact Nat.le_refl _
  | cons e rest ih =>
    obtain ⟨k, x⟩ := e
    rw [List.filter_cons]
    split_ifs
    · rw [fieldsWeight, fieldsWeight]
      omega
    · rw [fieldsWeight]
      omega

theorem fieldsWeight_asSchema (schema : Option JsonValue) :
    fieldsWeight (asSchema schema) ≤ weightOf schema := by
  unfold asSchema
  split
  · rw [weightOf, weight]
    omega
  · rw [weightOf, weight, fieldsWeight, fieldsWeight, weight, fieldsWeight]
    omega
  · rw [fieldsWeight]
    exact Nat.zero_le _

theorem fieldsWeight_keywords_le (schema : Option JsonValue) :
    fieldsWeight (keywords schema) ≤ weightOf schema :=
  (fieldsWeight_filter _ _).trans (fieldsWeight_asSchema schema)

/-- A schema with keywords is more than they are. -/
theorem fieldsWeight_keywords_lt {schema : Option JsonValue} (full : keywords schema ≠ []) :
    fieldsWeight (keywords schema) < weightOf schema := by
  refine (fieldsWeight_filter _ _).trans_lt ?_
  unfold keywords asSchema at full
  unfold asSchema
  split
  · rw [weightOf, weight]
    omega
  · rw [weightOf, weight, fieldsWeight, fieldsWeight, weight, fieldsWeight]
    omega
  · rename_i other bool
    split at full
    · exact absurd rfl (other _ _)
    · exact absurd rfl bool
    · exact absurd rfl full

theorem itemsWeight_arrayOf (holds : arrayOf key schema = some items) :
    itemsWeight items + 2 ≤ fieldsWeight schema := by
  unfold arrayOf at holds
  split at holds
  · rename_i id found
    cases holds
    have := weight_lt_fields (Assoc.mem_of_get found)
    rw [weight] at this
    omega
  · cases holds

theorem fieldsWeight_namedOf (key : Text) (schema : List (Text × JsonValue)) :
    fieldsWeight (namedOf key schema) ≤ fieldsWeight schema :=
  (fieldsWeight_asSchema _).trans (weightOf_get key schema)

/-- What is left of a schema without its annotations. -/
def stripped (schema : List (Text × JsonValue)) : Option JsonValue := some (.object () schema)

theorem weightOf_stripped (schema : List (Text × JsonValue)) :
    weightOf (stripped schema) = fieldsWeight schema + 1 := by
  rw [stripped, weightOf, weight, Nat.add_comm]

theorem weight_lt_arrayOf (holds : arrayOf key schema = some items) (member : x ∈ items) :
    weightOf (some x) + 2 < fieldsWeight schema := by
  have inside := weight_lt_items member
  have whole := itemsWeight_arrayOf holds
  rw [weightOf]
  omega

theorem weight_le_getD (member : x ∈ (arrayOf key schema).getD []) :
    weightOf (some x) ≤ fieldsWeight schema := by
  cases holds : arrayOf key schema with
  | none =>
    rw [holds] at member
    cases member
  | some items =>
    rw [holds] at member
    have := weight_lt_arrayOf holds member
    omega

theorem weight_le_named {e : Text × JsonValue} (member : e ∈ namedOf key schema) :
    weightOf (some e.2) ≤ fieldsWeight schema :=
  (weight_lt_fields member).le.trans (fieldsWeight_namedOf key schema)

theorem weight_le_getNamed (name key : Text) (schema : List (Text × JsonValue)) :
    weightOf (Assoc.get name (namedOf key schema)) ≤ fieldsWeight schema :=
  (weightOf_get name _).trans (fieldsWeight_namedOf key schema)

/-! ### Structural subtyping -/

section Fits

variable (tests : Text → Text → Bool)

set_option linter.unusedVariables false in
mutual
/-- `fits`: whether every value valid under `sub` is taken to be valid under `sup`. -/
def fits (subSchema supSchema : Option JsonValue) : Bool :=
  let sub := keywords subSchema
  let sup := keywords supSchema
  if empty : sup = [] then true
  else if deepEqual (stripped sub) (stripped sup) then true
  else if sup.any fun e => e.1 ∉ KNOWN then false
  else if (Assoc.get (text "additionalProperties") sup).any fun value => !isBoolean value then false
  else match found : arrayOf (text "anyOf") sub with
    | some branches => branches.attach.all fun branch => fits (some branch.1) (stripped sup)
    | none =>
      match found : arrayOf (text "anyOf") sup with
      | some branches => branches.attach.any fun branch => fits (stripped sub) (some branch.1)
      | none => flatFits sub sup
termination_by 4 * (weightOf subSchema + weightOf supSchema)
decreasing_by
  · have : weightOf (some branch.1) + 2 < fieldsWeight (keywords subSchema) :=
      weight_lt_arrayOf found branch.2
    have := fieldsWeight_keywords_le subSchema
    have := fieldsWeight_keywords_lt empty
    rw [weightOf_stripped]
    omega
  · have : weightOf (some branch.1) + 2 < fieldsWeight (keywords supSchema) :=
      weight_lt_arrayOf found branch.2
    have := fieldsWeight_keywords_le subSchema
    have := fieldsWeight_keywords_le supSchema
    rw [weightOf_stripped]
    omega
  · have := fieldsWeight_keywords_le subSchema
    have := fieldsWeight_keywords_lt empty
    omega

/-- The part of `fits` about schemas without branches. -/
def flatFits (sub sup : List (Text × JsonValue)) : Bool :=
  if Assoc.has (text "const") sup then
    Assoc.has (text "const") sub &&
      deepEqual (Assoc.get (text "const") sub) (Assoc.get (text "const") sup)
  else match arrayOf (text "enum") sup with
    | some allowed =>
      match listed sub with
      | some values =>
        values.all fun item => allowed.any fun other => deepEqual (some other) (some item)
      | none => false
    | none =>
      if CONSTRAINTS.any fun key =>
          Assoc.has key sup && !deepEqual (Assoc.get key sub) (Assoc.get key sup) then false
      else match typesOf sup, typesOf sub with
        | some supTypes, some subTypes =>
          if !subTypes.all fun type => supTypes.contains type ||
              (type = text "integer" && supTypes.contains (text "number")) then false
          else if (listed sub).isSome then true
          else if subTypes.contains (text "object") && !objectFits sub sup then false
          else if subTypes.contains (text "array") && !arrayFits sub sup then false
          else if subTypes.contains (text "function") then functionFits sub sup
          else true
        | _, _ => false
termination_by 4 * (fieldsWeight sub + fieldsWeight sup) + 3
decreasing_by all_goals omega

def objectFits (sub sup : List (Text × JsonValue)) : Bool :=
  let subProperties := namedOf (text "properties") sub
  let supProperties := namedOf (text "properties") sup
  (requiredOf sup).all (fun key => (requiredOf sub).contains key) &&
  supProperties.attach.all (fun e =>
    if within e.1.1 subProperties then fits (Assoc.get e.1.1 subProperties) (some e.1.2)
    else match found : Assoc.get (text "additionalProperties") sub with
      | some additional => !isTypeofObject additional || fits (some additional) (some e.1.2)
      | none => true) &&
  (Assoc.get (text "additionalProperties") sup ≠ some (.bool false) ||
    (Assoc.get (text "additionalProperties") sub = some (.bool false) &&
      subProperties.all fun e => within e.1 supProperties)) &&
  patternsFit sub sup
termination_by 4 * (fieldsWeight sub + fieldsWeight sup) + 2
decreasing_by
  · have := weight_le_getNamed e.1.1 (text "properties") sub
    have := weight_le_named e.2
    omega
  · have additional := weightOf_get (text "additionalProperties") sub
    have := weight_le_named e.2
    rw [found] at additional
    omega
  · omega

/-- The part of `objectFits` about pattern properties. -/
def patternsFit (sub sup : List (Text × JsonValue)) : Bool :=
  let subProperties := namedOf (text "properties") sub
  let supProperties := namedOf (text "properties") sup
  let subPatterns := namedOf (text "patternProperties") sub
  let supPatterns := namedOf (text "patternProperties") sup
  if supPatterns = [] then true
  else
    (Assoc.get (text "additionalProperties") sub = some (.bool false) || subPatterns ≠ []) &&
    supPatterns.attach.all (fun e =>
      subProperties.attach.all (fun f =>
        within f.1.1 supProperties || !tests e.1.1 f.1.1 || fits (some f.1.2) (some e.1.2)) &&
      (subPatterns = [] ||
        (within e.1.1 subPatterns && fits (Assoc.get e.1.1 subPatterns) (some e.1.2)))) &&
    subPatterns.all fun e => within e.1 supPatterns
termination_by 4 * (fieldsWeight sub + fieldsWeight sup) + 1
decreasing_by
  · have := weight_le_named f.2
    have := weight_le_named e.2
    omega
  · have := weight_le_getNamed e.1.1 (text "patternProperties") sub
    have := weight_le_named e.2
    omega

def arrayFits (sub sup : List (Text × JsonValue)) : Bool :=
  match supFound : arrayOf (text "items") sup with
  | some supItems =>
    match subFound : arrayOf (text "items") sub with
    | some subItems =>
      subItems.length = supItems.length &&
        (subItems.zip supItems).attach.all fun e => fits (some e.1.1) (some e.1.2)
    | none => false
  | none =>
    match subFound : arrayOf (text "items") sub with
    | some subItems =>
      subItems.attach.all fun item => fits (some item.1) (Assoc.get (text "items") sup)
    | none => fits (Assoc.get (text "items") sub) (Assoc.get (text "items") sup)
termination_by 4 * (fieldsWeight sub + fieldsWeight sup) + 1
decreasing_by
  · have inside : e.1.1 ∈ subItems ∧ e.1.2 ∈ supItems := List.of_mem_zip e.2
    have := weight_lt_arrayOf subFound inside.1
    have := weight_lt_arrayOf supFound inside.2
    omega
  · have := weight_lt_arrayOf subFound item.2
    have := weightOf_get (text "items") sup
    omega
  · have := weightOf_get (text "items") sub
    have := weightOf_get (text "items") sup
    omega

def functionFits (sub sup : List (Text × JsonValue)) : Bool :=
  let subParameters := (arrayOf (text "parameters") sub).getD []
  let supParameters := (arrayOf (text "parameters") sup).getD []
  subParameters.length ≤ supParameters.length &&
  (subParameters.zip supParameters).attach.all (fun e => fits (some e.1.2) (some e.1.1)) &&
  fits (Assoc.get (text "returnType") sub) (Assoc.get (text "returnType") sup)
termination_by 4 * (fieldsWeight sub + fieldsWeight sup) + 1
decreasing_by
  · have inside : e.1.1 ∈ subParameters ∧ e.1.2 ∈ supParameters := List.of_mem_zip e.2
    have := weight_le_getD inside.1
    have := weight_le_getD inside.2
    omega
  · have := weightOf_get (text "returnType") sub
    have := weightOf_get (text "returnType") sup
    omega
end

end Fits

end TianGong.Contract

/-
**The identity of an input.**

An object is known by its type and its input: by the canonical text of the input, without the fields
that have their default (`schema.ts`, `#locate` and `#remoteKey` of `host.ts`).

* `stripDefaults`, `canonicalIdentity`, `address`, `remoteKey`: as in the source.
* `canonicalJson_object`: of objects, equality up to key order is equality of what each key has.
* `Identified`, `identified_iff`: the identity tells two inputs exactly if that is no difference.
* `proto_confused`: two inputs that it does not tell.

`result[key] = …` makes no property of `result` where the key is `__proto__`.
-/

import TianGong.Contract.JsonText

namespace TianGong.Contract

open List Option
open Assoc (get_cons_ne get_cons_self has_iff)

/-! ### The identity -/

/-- The schema of an item: of a tuple's by its index. -/
def itemSchema (schema : List (Text × JsonValue)) (index : Nat) : List (Text × JsonValue) :=
  match Assoc.get (text "items") schema with
  | some (.array _ items) => asSchema items[index]?
  | items => asSchema items

/-- `properties[key]`, as a schema. A name that the object inherits is no schema, or one that asks for
nothing. -/
def propertySchema (schema : List (Text × JsonValue)) (key : Text) : List (Text × JsonValue) :=
  asSchema (Assoc.get key (asSchema (Assoc.get (text "properties") schema)))

/-- `"default" in property && deepEqual(property.default, item)` -/
def isDefault (property : List (Text × JsonValue)) (item : JsonValue) : Bool :=
  match Assoc.get (text "default") property with
  | none => false
  | some value => deepEqual (some value) (some item)

def PROTO : Text := text "__proto__"

/-- `result[key] = item`, before the assignments of `rest`. -/
def assign (key : Text) (item : JsonValue) (rest : List (Text × JsonValue)) :
    List (Text × JsonValue) :=
  if key = PROTO then rest else (key, item) :: rest

mutual
def stripDefaults (schema : List (Text × JsonValue)) : JsonValue → JsonValue
  | .array _ items => .array () (stripItems schema 0 items)
  | .object _ fields => .object () (stripFields schema fields)
  | .null => .null
  | .bool b => .bool b
  | .number n => .number n
  | .string s => .string s

def stripItems (schema : List (Text × JsonValue)) (index : Nat) : List JsonValue → List JsonValue
  | [] => []
  | item :: rest =>
    stripDefaults (itemSchema schema index) item :: stripItems schema (index + 1) rest

def stripFields (schema : List (Text × JsonValue)) :
    List (Text × JsonValue) → List (Text × JsonValue)
  | [] => []
  | (key, item) :: rest =>
    if isDefault (propertySchema schema key) item then stripFields schema rest
    else assign key (stripDefaults (propertySchema schema key) item) (stripFields schema rest)
end

def canonicalIdentity (schema : Option JsonValue) (value : JsonValue) : Text :=
  canonicalText (stripDefaults (asSchema schema) value)

/-- The address of an object, with the part that names its principal: `#locate`. -/
def address (name identity principalPart : Text) : Text :=
  name ++ 0 :: (identity ++ 0 :: principalPart)

def remoteKey (name identity principalPart fingerprint : Text) : Text :=
  unit '@' :: (name ++ 0 :: (identity ++ 0 :: (principalPart ++ 0 :: fingerprint)))

/-! ### Inputs -/

/-- The keys of every object are apart. -/
inductive Distinct : JsonValue → Prop where
  | plain {value : JsonValue} (plain : value.isContainer = false) : Distinct value
  | array {items : List JsonValue} (each : ∀ x ∈ items, Distinct x) : Distinct (.array () items)
  | object {fields : List (Text × JsonValue)} (keys : (Assoc.keys fields).Nodup)
      (each : ∀ e ∈ fields, Distinct e.2) : Distinct (.object () fields)

/-- Every field with a default is there. -/
inductive Filled : List (Text × JsonValue) → JsonValue → Prop where
  | plain {schema : List (Text × JsonValue)} {value : JsonValue}
      (plain : value.isContainer = false) : Filled schema value
  | array {schema : List (Text × JsonValue)} {items : List JsonValue}
      (each : ∀ i x, items[i]? = some x → Filled (itemSchema schema i) x) :
      Filled schema (.array () items)
  | object {schema fields : List (Text × JsonValue)}
      (present : ∀ key, Assoc.has (text "default") (propertySchema schema key) = true →
        key ∈ Assoc.keys fields)
      (each : ∀ e ∈ fields, Filled (propertySchema schema e.1) e.2) :
      Filled schema (.object () fields)

/-- No object has a field `__proto__`. -/
inductive NoProto : JsonValue → Prop where
  | plain {value : JsonValue} (plain : value.isContainer = false) : NoProto value
  | array {items : List JsonValue} (each : ∀ x ∈ items, NoProto x) : NoProto (.array () items)
  | object {fields : List (Text × JsonValue)} (absent : PROTO ∉ Assoc.keys fields)
      (each : ∀ e ∈ fields, NoProto e.2) : NoProto (.object () fields)

/-- **AlikeBut** but for what objects have under `__proto__`: where one has a default, so has the
other. -/
inductive AlikeBut : List (Text × JsonValue) → JsonValue → JsonValue → Prop where
  | plain {schema : List (Text × JsonValue)} {value : JsonValue}
      (plain : value.isContainer = false) : AlikeBut schema value value
  | array {schema : List (Text × JsonValue)} {xs ys : List JsonValue}
      (length : xs.length = ys.length)
      (each : ∀ i x y, xs[i]? = some x → ys[i]? = some y → AlikeBut (itemSchema schema i) x y) :
      AlikeBut schema (.array () xs) (.array () ys)
  | object {schema xs ys : List (Text × JsonValue)}
      (keys : ∀ key, key ≠ PROTO → (key ∈ Assoc.keys xs ↔ key ∈ Assoc.keys ys))
      (defaults : ∀ key, key ≠ PROTO → ∀ x y, Assoc.get key xs = some x →
        Assoc.get key ys = some y →
        isDefault (propertySchema schema key) x = isDefault (propertySchema schema key) y)
      (each : ∀ key, key ≠ PROTO → ∀ x y, Assoc.get key xs = some x → Assoc.get key ys = some y →
        isDefault (propertySchema schema key) x = false → AlikeBut (propertySchema schema key) x y) :
      AlikeBut schema (.object () xs) (.object () ys)

/-- The identity, and with it the address of an object and the key of a binding, tells two inputs. -/
def Identified (schema : Option JsonValue) (a b : JsonValue) : Prop :=
  let same : Prop := deepEqual (some a) (some b) = true
  (canonicalIdentity schema a = canonicalIdentity schema b ↔ same) ∧
    (∀ name part, address name (canonicalIdentity schema a) part =
      address name (canonicalIdentity schema b) part ↔ same) ∧
    ∀ name part fingerprint, remoteKey name (canonicalIdentity schema a) part fingerprint =
      remoteKey name (canonicalIdentity schema b) part fingerprint ↔ same

/-! ### Canonical objects -/

variable {xs ys fields : List (Text × JsonValue)} {k : Text}

theorem text_lt_of_not_lt {l : Text} (notGreater : ¬ l < k) (apart : k ≠ l) : k < l := by
  by_contra notSmaller
  exact apart (List.le_antisymm notGreater notSmaller)

theorem keys_insertField (e : Text × JsonValue) (fields : List (Text × JsonValue)) (k : Text) :
    k ∈ Assoc.keys (insertField e fields) ↔ k = e.1 ∨ k ∈ Assoc.keys fields := by
  induction fields with
  | nil => simp [insertField, Assoc.keys]
  | cons f rest ih =>
    unfold insertField
    split
    · rw [Assoc.keys_cons, mem_cons, ih, Assoc.keys_cons, mem_cons]
      tauto
    · rw [Assoc.keys_cons, mem_cons]

/-- Keys that are apart, in order. -/
def Ordered (fields : List (Text × JsonValue)) : Prop :=
  (Assoc.keys fields).Pairwise fun k l => k < l

theorem ordered_insertField {e : Text × JsonValue} (fresh : e.1 ∉ Assoc.keys fields)
    (ordered : Ordered fields) : Ordered (insertField e fields) := by
  induction fields with
  | nil => exact pairwise_singleton _ _
  | cons f rest ih =>
    obtain ⟨above, later⟩ := List.pairwise_cons.mp ordered
    rw [Assoc.keys_cons, mem_cons, not_or] at fresh
    unfold insertField
    split
    · rename_i smaller
      refine List.pairwise_cons.mpr ⟨fun k inside => ?_, ih fresh.2 later⟩
      rcases (keys_insertField e rest k).mp inside with rfl | inside
      · exact smaller
      · exact above k inside
    · rename_i notSmaller
      have below : e.1 < f.1 := text_lt_of_not_lt notSmaller fresh.1
      refine List.pairwise_cons.mpr ⟨fun k inside => ?_, ordered⟩
      rcases List.mem_cons.mp inside with rfl | inside
      · exact below
      · exact List.lt_trans below (above k inside)

theorem ordered_sortFields (nodup : (Assoc.keys fields).Nodup) :
    Ordered (sortFields fields) ∧
      ∀ k, k ∈ Assoc.keys (sortFields fields) ↔ k ∈ Assoc.keys fields := by
  induction fields with
  | nil => exact ⟨List.Pairwise.nil, fun _ => Iff.rfl⟩
  | cons e rest ih =>
    obtain ⟨fresh, later⟩ := List.nodup_cons.mp nodup
    obtain ⟨ordered, keys⟩ := ih later
    refine ⟨ordered_insertField (fun inside => fresh ((keys _).mp inside)) ordered, fun k => ?_⟩
    show k ∈ Assoc.keys (insertField e (sortFields rest)) ↔ _
    rw [keys_insertField, keys, Assoc.keys_cons, mem_cons]

/-- The least key of fields in order has nothing in fields whose least key is greater. -/
theorem get_of_below {f : Text × JsonValue} (ordered : Ordered (f :: ys)) (below : k < f.1) :
    Assoc.get k (f :: ys) = none := by
  obtain ⟨above, -⟩ := List.pairwise_cons.mp ordered
  refine Assoc.get_eq_none_iff.mpr fun inside => ?_
  rcases List.mem_cons.mp inside with rfl | inside
  · exact List.lt_irrefl _ below
  · exact List.lt_irrefl _ (List.lt_trans below (above k inside))

/-- **Fields in order** are told by what each key has. -/
theorem ordered_ext (first : Ordered xs) (second : Ordered ys)
    (same : ∀ k, Assoc.get k xs = Assoc.get k ys) : xs = ys := by
  induction xs generalizing ys with
  | nil =>
    cases ys with
    | nil => rfl
    | cons f ys =>
      have has := same f.1
      rw [get_cons_self] at has
      cases has
  | cons e xs ih =>
    cases ys with
    | nil =>
      have has := same e.1
      rw [get_cons_self] at has
      cases has
    | cons f ys =>
      have heads : e.1 = f.1 := by
        by_contra apart
        by_cases smaller : e.1 < f.1
        · have has := same e.1
          rw [get_cons_self, get_of_below second smaller] at has
          cases has
        · have has := same f.1
          have greater := text_lt_of_not_lt smaller (Ne.symm apart)
          rw [get_cons_self, get_of_below first greater] at has
          cases has
      have values : e.2 = f.2 := by
        have has := same e.1
        rw [get_cons_self, heads, get_cons_self] at has
        exact Option.some.inj has
      obtain rfl : e = f := Prod.ext heads values
      obtain ⟨above, later⟩ := List.pairwise_cons.mp first
      obtain ⟨above', later'⟩ := List.pairwise_cons.mp second
      refine congrArg _ (ih later later' fun k => ?_)
      by_cases here : e.1 = k
      · subst here
        have absent {zs : List (Text × JsonValue)} (above : ∀ l ∈ Assoc.keys zs, e.1 < l) :
            Assoc.get e.1 zs = none :=
          Assoc.get_eq_none_iff.mpr fun inside => List.lt_irrefl _ (above _ inside)
        rw [absent above, absent above']
      · have has := same k
        rwa [get_cons_ne here, get_cons_ne here] at has

theorem keys_canonicalFields (fields : List (Text × JsonValue)) :
    Assoc.keys (canonicalFields fields) = Assoc.keys fields := by
  rw [canonicalFields_eq]
  exact List.map_map

/-- **Objects with the same fields** are the same up to key order. -/
theorem canonicalJson_object (nodup : (Assoc.keys xs).Nodup) (nodup' : (Assoc.keys ys).Nodup) :
    canonicalJson (.object () xs) = canonicalJson (.object () ys) ↔
      ∀ k, (Assoc.get k xs).map canonicalJson = (Assoc.get k ys).map canonicalJson := by
  have shape (zs : List (Text × JsonValue)) :
      canonicalJson (.object () zs) = .object () (sortFields (canonicalFields zs)) := by
    rw [canonicalJson]
  rw [shape, shape]
  constructor
  · intro same k
    have fields := (Json.object.inj same).2
    rw [← get_canonical, ← get_canonical, fields]
  · intro same
    refine congrArg _ (ordered_ext (ordered_sortFields ?_).1 (ordered_sortFields ?_).1 fun k => ?_)
    · rw [keys_canonicalFields]
      exact nodup
    · rw [keys_canonicalFields]
      exact nodup'
    · rw [get_canonical, get_canonical]
      exact same k

theorem canonicalJson_array {xs ys : List JsonValue} :
    canonicalJson (.array () xs) = canonicalJson (.array () ys) ↔
      xs.length = ys.length ∧ ∀ (i : Nat) x y, xs[i]? = some x → ys[i]? = some y →
        canonicalJson x = canonicalJson y := by
  rw [canonicalJson, canonicalJson, canonicalItems_eq, canonicalItems_eq]
  constructor
  · intro same
    have items := (Json.array.inj same).2
    refine ⟨by simpa using congrArg List.length items, fun i x y here here' => ?_⟩
    have item := congrArg (fun zs : List JsonValue => zs[i]?) items
    simp only [List.getElem?_map, here, here', map_some] at item
    exact Option.some.inj item
  · rintro ⟨length, each⟩
    refine congrArg _ (ext_getElem? fun i => ?_)
    rw [List.getElem?_map, List.getElem?_map]
    cases here : xs[i]? with
    | none =>
      have past := List.getElem?_eq_none_iff.mp here
      rw [List.getElem?_eq_none_iff.mpr (length ▸ past)]
    | some x =>
      obtain ⟨inside, -⟩ := List.getElem?_eq_some_iff.mp here
      have here' := List.getElem?_eq_getElem (length ▸ inside : i < ys.length)
      rw [here']
      exact congrArg some (each i x _ here here')

/-! ### What is left of an input -/

theorem getElem_stripItems (schema : List (Text × JsonValue)) (items : List JsonValue)
    (start i : Nat) : (stripItems schema start items)[i]? =
      items[i]?.map (stripDefaults (itemSchema schema (start + i))) := by
  induction items generalizing start i with
  | nil => rfl
  | cons item rest ih =>
    cases i with
    | zero => rfl
    | succ i =>
      rw [stripItems, List.getElem?_cons_succ, List.getElem?_cons_succ, ih]
      rw [show start + 1 + i = start + (i + 1) by omega]

theorem keys_stripFields (schema fields : List (Text × JsonValue)) :
    (Assoc.keys (stripFields schema fields)).Sublist (Assoc.keys fields) := by
  induction fields with
  | nil => exact List.Sublist.slnil
  | cons e rest ih =>
    obtain ⟨key, item⟩ := e
    unfold stripFields
    split
    · exact ih.cons key
    · unfold assign
      split
      · exact ih.cons key
      · exact ih.cons_cons key

/-- **What a key has afterwards**: nothing under `__proto__`, and no default. -/
theorem get_stripFields (schema : List (Text × JsonValue)) (nodup : (Assoc.keys fields).Nodup)
    (k : Text) :
    Assoc.get k (stripFields schema fields) = if k = PROTO then none
      else (Assoc.get k fields).bind fun x => if isDefault (propertySchema schema k) x then none
        else some (stripDefaults (propertySchema schema k) x) := by
  induction fields with
  | nil =>
    split <;> rfl
  | cons e rest ih =>
    obtain ⟨key, item⟩ := e
    obtain ⟨fresh, later⟩ := List.nodup_cons.mp nodup
    have gone (here : key = k) : Assoc.get k (stripFields schema rest) = none := by
      subst here
      exact Assoc.get_eq_none_iff.mpr fun inside =>
        fresh ((keys_stripFields schema rest).subset inside)
    unfold stripFields
    by_cases here : key = k
    · have before := gone here
      subst here
      rw [get_cons_self, bind_some]
      unfold assign
      by_cases default : isDefault (propertySchema schema key) item = true
      · rw [if_pos default, if_pos default, before, ite_self]
      · rw [if_neg default, if_neg default]
        split
        · exact before
        · exact get_cons_self _ _ _
    · rw [get_cons_ne here, ← ih later]
      split
      · rfl
      · unfold assign
        split
        · rfl
        · exact get_cons_ne here _ _

/-! ### Inputs that are told apart -/

/-- What is equal up to key order has the same default. -/
theorem isDefault_congr {x y : JsonValue} (same : canonicalJson x = canonicalJson y)
    (property : List (Text × JsonValue)) : isDefault property x = isDefault property y := by
  unfold isDefault deepEqual
  rw [getD_some, getD_some, same]

/-- Defaults of one field are equal up to key order. -/
theorem canonical_of_defaults {property : List (Text × JsonValue)} {x y : JsonValue}
    (first : isDefault property x = true) (second : isDefault property y = true) :
    canonicalJson x = canonicalJson y := by
  unfold isDefault at first second
  cases value : Assoc.get (text "default") property with
  | none =>
    rw [value] at first
    cases first
  | some value' =>
    rw [value] at first second
    exact (of_decide_eq_true first).symm.trans (of_decide_eq_true second)

variable {schema : List (Text × JsonValue)} {a : JsonValue} {items : List JsonValue}

/-- A value that is not an object or an array is left as it is. -/
theorem stripDefaults_plain {value : JsonValue} (plain : value.isContainer = false) :
    stripDefaults schema value = value := by
  cases value <;> first | rfl | cases plain

theorem canonicalJson_plain {value other : JsonValue} (plain : value.isContainer = false) :
    canonicalJson value = canonicalJson other ↔ value = other := by
  cases value <;> cases other <;> simp [canonicalJson, Json.isContainer] at plain ⊢

theorem Distinct.of_array (distinct : Distinct (.array () items)) : ∀ x ∈ items, Distinct x := by
  cases distinct with
  | plain plain => cases plain
  | array each => exact each

theorem Distinct.of_object (distinct : Distinct (.object () fields)) :
    (Assoc.keys fields).Nodup ∧ ∀ e ∈ fields, Distinct e.2 := by
  cases distinct with
  | plain plain => cases plain
  | object keys each => exact ⟨keys, each⟩

theorem NoProto.of_array (clean : NoProto (.array () items)) : ∀ x ∈ items, NoProto x := by
  cases clean with
  | plain plain => cases plain
  | array each => exact each

theorem NoProto.of_object (clean : NoProto (.object () fields)) :
    PROTO ∉ Assoc.keys fields ∧ ∀ e ∈ fields, NoProto e.2 := by
  cases clean with
  | plain plain => cases plain
  | object absent each => exact ⟨absent, each⟩

theorem Filled.of_array (filled : Filled schema (.array () items)) :
    ∀ (i : Nat) x, items[i]? = some x → Filled (itemSchema schema i) x := by
  cases filled with
  | plain plain => cases plain
  | array each => exact each

theorem Filled.of_object (filled : Filled schema (.object () fields)) :
    (∀ key, Assoc.has (text "default") (propertySchema schema key) = true →
      key ∈ Assoc.keys fields) ∧ ∀ e ∈ fields, Filled (propertySchema schema e.1) e.2 := by
  cases filled with
  | plain plain => cases plain
  | object present each => exact ⟨present, each⟩

/-- What a key has in both, or in neither. -/
theorem get_both (keys : k ∈ Assoc.keys xs ↔ k ∈ Assoc.keys ys) :
    (Assoc.get k xs = none ∧ Assoc.get k ys = none) ∨
      ∃ x y, Assoc.get k xs = some x ∧ Assoc.get k ys = some y := by
  rw [← has_iff, ← has_iff, Assoc.has, Assoc.has] at keys
  cases here : Assoc.get k xs with
  | none =>
    cases here' : Assoc.get k ys with
    | none => exact .inl ⟨rfl, rfl⟩
    | some y =>
      rw [here, here'] at keys
      cases keys.mpr rfl
  | some x =>
    cases here' : Assoc.get k ys with
    | none =>
      rw [here, here'] at keys
      cases keys.mp rfl
    | some y => exact .inr ⟨x, y, rfl, rfl⟩

/-- **Inputs that are the same are alike.** -/
theorem alike_of_same (distinct : Distinct a) : ∀ {b : JsonValue}, Distinct b →
    ∀ (schema : List (Text × JsonValue)), canonicalJson a = canonicalJson b →
      AlikeBut schema a b := by
  induction distinct with
  | plain plain =>
    intro b _ schema same
    obtain rfl := (canonicalJson_plain plain).mp same
    exact .plain plain
  | @array xs each ih =>
    intro b distinct schema same
    cases b with
    | array id ys =>
      obtain ⟨length, items⟩ := canonicalJson_array.mp same
      refine .array length fun i x y here here' => ?_
      exact ih x (mem_of_getElem? here) (distinct.of_array y (mem_of_getElem? here')) _
        (items i x y here here')
    | null | bool b | number n | string s | object id fields =>
      simp [canonicalJson] at same
  | @object xs nodup each ih =>
    intro b distinct schema same
    cases b with
    | object id ys =>
      obtain ⟨nodup', each'⟩ := distinct.of_object
      have fields := (canonicalJson_object nodup nodup').mp same
      have values {k : Text} {x y : JsonValue} (here : Assoc.get k xs = some x)
          (here' : Assoc.get k ys = some y) : canonicalJson x = canonicalJson y := by
        have both := fields k
        rw [here, here'] at both
        exact Option.some.inj both
      refine .object (fun k _ => ?_) (fun k _ x y here here' => ?_) fun k _ x y here here' _ => ?_
      · have both := congrArg Option.isSome (fields k)
        rw [isSome_map, isSome_map] at both
        rw [← Assoc.has_iff, ← Assoc.has_iff, Assoc.has, Assoc.has, both]
      · exact isDefault_congr (values here here') _
      · exact ih (k, x) (Assoc.mem_of_get here) (each' (k, y) (Assoc.mem_of_get here')) _
          (values here here')
    | null | bool b | number n | string s | array id items =>
      simp [canonicalJson] at same

/-- **Inputs that are alike are the same**, where nothing is under `__proto__`. -/
theorem same_of_alike {b : JsonValue} (alike : AlikeBut schema a b) :
    Distinct a → Distinct b → NoProto a → NoProto b → canonicalJson a = canonicalJson b := by
  induction alike with
  | plain plain => exact fun _ _ _ _ => rfl
  | @array schema xs ys length each ih =>
    intro distinct distinct' clean clean'
    refine canonicalJson_array.mpr ⟨length, fun i x y here here' => ?_⟩
    have inside := mem_of_getElem? here
    have inside' := mem_of_getElem? here'
    exact ih i x y here here' (distinct.of_array x inside) (distinct'.of_array y inside')
      (clean.of_array x inside) (clean'.of_array y inside')
  | @object schema xs ys keys defaults each ih =>
    intro distinct distinct' clean clean'
    obtain ⟨nodup, apart⟩ := distinct.of_object
    obtain ⟨nodup', apart'⟩ := distinct'.of_object
    obtain ⟨absent, without⟩ := clean.of_object
    obtain ⟨absent', without'⟩ := clean'.of_object
    refine (canonicalJson_object nodup nodup').mpr fun k => ?_
    by_cases proto : k = PROTO
    · rw [proto, Assoc.get_eq_none_iff.mpr absent, Assoc.get_eq_none_iff.mpr absent']
    · rcases get_both (keys k proto) with ⟨here, here'⟩ | ⟨x, y, here, here'⟩
      · rw [here, here']
      · rw [here, here']
        refine congrArg some ?_
        have inside := Assoc.mem_of_get here
        have inside' := Assoc.mem_of_get here'
        cases default : isDefault (propertySchema schema k) x with
        | true =>
          have default' := (defaults k proto x y here here').symm.trans default
          exact canonical_of_defaults default default'
        | false =>
          exact ih k proto x y here here' default (apart _ inside) (apart' _ inside')
            (without _ inside) (without' _ inside')

theorem length_stripItems (schema : List (Text × JsonValue)) (items : List JsonValue)
    (start : Nat) : (stripItems schema start items).length = items.length := by
  induction items generalizing start with
  | nil => rfl
  | cons item rest ih => rw [stripItems, length_cons, length_cons, ih]

theorem has_of_isDefault {property : List (Text × JsonValue)} {x : JsonValue}
    (default : isDefault property x = true) : Assoc.has (text "default") property = true := by
  unfold isDefault at default
  unfold Assoc.has
  cases value : Assoc.get (text "default") property with
  | none =>
    rw [value] at default
    cases default
  | some value => rfl

/-- What a key leaves, up to key order. -/
theorem get_canonical_stripFields (nodup : (Assoc.keys fields).Nodup) (apart : k ≠ PROTO) :
    (Assoc.get k (stripFields schema fields)).map canonicalJson =
      (Assoc.get k fields).bind fun x => if isDefault (propertySchema schema k) x then none
        else some (canonicalJson (stripDefaults (propertySchema schema k) x)) := by
  rw [get_stripFields schema nodup, if_neg apart]
  cases Assoc.get k fields with
  | none => rfl
  | some x =>
    rw [bind_some, bind_some]
    split <;> rfl

/-- A key that is in one of two inputs, of which the same is left, is in the other. -/
theorem key_of_left (nodup : (Assoc.keys xs).Nodup) (nodup' : (Assoc.keys ys).Nodup)
    (filled : Filled schema (.object () ys)) (apart : k ≠ PROTO)
    (same : (Assoc.get k (stripFields schema xs)).map canonicalJson =
      (Assoc.get k (stripFields schema ys)).map canonicalJson)
    (inside : k ∈ Assoc.keys xs) : k ∈ Assoc.keys ys := by
  rw [← has_iff] at inside
  obtain ⟨x, here⟩ := Option.isSome_iff_exists.mp inside
  by_contra absent
  rw [get_canonical_stripFields nodup apart, get_canonical_stripFields nodup' apart, here,
    Assoc.get_eq_none_iff.mpr absent, bind_some, bind_none] at same
  split at same
  · rename_i default
    exact absent (filled.of_object.1 k (has_of_isDefault default))
  · cases same

/-- **What is left of two inputs is the same exactly if they are alike.** -/
theorem stripDefaults_iff (distinct : Distinct a) : ∀ {b : JsonValue}, Distinct b →
    ∀ {schema : List (Text × JsonValue)}, Filled schema a → Filled schema b →
      (canonicalJson (stripDefaults schema a) = canonicalJson (stripDefaults schema b) ↔
        AlikeBut schema a b) := by
  induction distinct with
  | @plain a plain =>
    intro b _ schema _ _
    rw [stripDefaults_plain plain, canonicalJson_plain plain]
    constructor
    · intro same
      cases b with
      | array id items | object id fields =>
        rw [same] at plain
        cases plain
      | null | bool b | number n | string s =>
        rw [same]
        exact .plain rfl
    · intro alike
      cases alike with
      | plain plain => exact (stripDefaults_plain plain).symm
      | array length each => cases plain
      | object keys defaults each => cases plain
  | @array xs each ih =>
    intro b distinct schema filled filled'
    cases b with
    | array id ys =>
      rw [stripDefaults, stripDefaults, canonicalJson_array, length_stripItems, length_stripItems]
      have left {zs : List JsonValue} {i : Nat} {z : JsonValue} (here : zs[i]? = some z) :
          (stripItems schema 0 zs)[i]? = some (stripDefaults (itemSchema schema i) z) := by
        rw [getElem_stripItems, here, Nat.zero_add]
        rfl
      have step (i : Nat) (x y : JsonValue) (here : xs[i]? = some x) (here' : ys[i]? = some y) :=
        @ih x (mem_of_getElem? here) y (distinct.of_array y (mem_of_getElem? here'))
          (itemSchema schema i) (filled.of_array i x here) (filled'.of_array i y here')
      constructor
      · rintro ⟨length, items⟩
        exact .array length fun i x y here here' =>
          (step i x y here here').mp (items i _ _ (left here) (left here'))
      · intro alike
        cases alike with
        | plain plain => cases plain
        | array length each' =>
          refine ⟨length, fun i x' y' here here' => ?_⟩
          rw [getElem_stripItems, Nat.zero_add] at here here'
          obtain ⟨x, isX, rfl⟩ := Option.map_eq_some_iff.mp here
          obtain ⟨y, isY, rfl⟩ := Option.map_eq_some_iff.mp here'
          exact (step i x y isX isY).mpr (each' i x y isX isY)
    | null | bool b | number n | string s | object id fields =>
      constructor
      · intro same
        simp [stripDefaults, canonicalJson] at same
      · intro alike
        cases alike
  | @object xs nodup each ih =>
    intro b distinct schema filled filled'
    cases b with
    | object id ys =>
      obtain ⟨nodup', each'⟩ := distinct.of_object
      rw [stripDefaults, stripDefaults, canonicalJson_object
        ((keys_stripFields schema xs).nodup nodup) ((keys_stripFields schema ys).nodup nodup')]
      have step (k : Text) (x y : JsonValue) (here : Assoc.get k xs = some x)
          (here' : Assoc.get k ys = some y) :=
        @ih (k, x) (Assoc.mem_of_get here) y (each' (k, y) (Assoc.mem_of_get here'))
          (propertySchema schema k) (filled.of_object.2 (k, x) (Assoc.mem_of_get here))
          (filled'.of_object.2 (k, y) (Assoc.mem_of_get here'))
      constructor
      · intro same
        have left {k : Text} (apart : k ≠ PROTO) {x y : JsonValue}
            (here : Assoc.get k xs = some x) (here' : Assoc.get k ys = some y) :
            (if isDefault (propertySchema schema k) x then none
              else some (canonicalJson (stripDefaults (propertySchema schema k) x))) =
            if isDefault (propertySchema schema k) y then none
              else some (canonicalJson (stripDefaults (propertySchema schema k) y)) := by
          have both := same k
          rw [get_canonical_stripFields nodup apart, get_canonical_stripFields nodup' apart, here,
            here', bind_some, bind_some] at both
          exact both
        have defaults {k : Text} (apart : k ≠ PROTO) {x y : JsonValue}
            (here : Assoc.get k xs = some x) (here' : Assoc.get k ys = some y) :
            isDefault (propertySchema schema k) x = isDefault (propertySchema schema k) y := by
          have both := left apart here here'
          split at both <;> rename_i default <;> split at both <;> rename_i default'
          · rw [default, default']
          · cases both
          · cases both
          · rw [Bool.eq_false_iff.mpr default, Bool.eq_false_iff.mpr default']
        refine .object (fun k apart => ⟨key_of_left nodup nodup' filled' apart (same k),
          key_of_left nodup' nodup filled apart (same k).symm⟩)
          (fun k apart x y here here' => defaults apart here here')
          fun k apart x y here here' default => ?_
        have both := left apart here here'
        have default' := (defaults apart here here').symm.trans default
        rw [if_neg (Bool.eq_false_iff.mp default), if_neg (Bool.eq_false_iff.mp default')] at both
        exact (step k x y here here').mp (Option.some.inj both)
      · intro alike k
        cases alike with
        | plain plain => cases plain
        | object keys defaults each'' =>
          by_cases proto : k = PROTO
          · rw [get_stripFields schema nodup, get_stripFields schema nodup', if_pos proto,
              if_pos proto]
          · rw [get_canonical_stripFields nodup proto, get_canonical_stripFields nodup' proto]
            rcases get_both (keys k proto) with ⟨here, here'⟩ | ⟨x, y, here, here'⟩
            · rw [here, here']
            · rw [here, here', bind_some, bind_some,
                ← defaults k proto x y here here']
              cases default : isDefault (propertySchema schema k) x with
              | true => rfl
              | false =>
                exact congrArg some ((step k x y here here').mpr
                  (each'' k proto x y here here' default))
    | null | bool b | number n | string s | array id items =>
      constructor
      · intro same
        simp [stripDefaults, canonicalJson] at same
      · intro alike
        cases alike

/-- **Two inputs have the same identity exactly if they are alike.** -/
theorem identity_iff_alike {schema : Option JsonValue} {b : JsonValue} (distinct : Distinct a)
    (distinct' : Distinct b) (filled : Filled (asSchema schema) a)
    (filled' : Filled (asSchema schema) b) :
    canonicalIdentity schema a = canonicalIdentity schema b ↔ AlikeBut (asSchema schema) a b := by
  unfold canonicalIdentity
  rw [canonicalText_inj, stripDefaults_iff distinct distinct' filled filled']

theorem address_inj {name part identity identity' : Text} :
    address name identity part = address name identity' part ↔ identity = identity' := by
  unfold address
  rw [append_right_inj, cons_inj_right, append_left_inj]

theorem remoteKey_inj {name part fingerprint identity identity' : Text} :
    remoteKey name identity part fingerprint = remoteKey name identity' part fingerprint ↔
      identity = identity' := by
  unfold remoteKey
  rw [cons_inj_right, append_right_inj, cons_inj_right, append_left_inj]

/-- **An identity tells two inputs** exactly if they differ in more than what they have under
`__proto__`, or not at all; so it does if they have nothing there. -/
theorem identified_iff {schema : Option JsonValue} {a b : JsonValue} (distinct : Distinct a)
    (distinct' : Distinct b) (filled : Filled (asSchema schema) a)
    (filled' : Filled (asSchema schema) b) :
    (Identified schema a b ↔
      (AlikeBut (asSchema schema) a b → deepEqual (some a) (some b) = true)) ∧
    (NoProto a → NoProto b → Identified schema a b) := by
  have alike := identity_iff_alike distinct distinct' filled filled'
  have identified : Identified schema a b ↔
      (AlikeBut (asSchema schema) a b → deepEqual (some a) (some b) = true) := by
    unfold Identified
    simp only [address_inj, remoteKey_inj, alike]
    constructor
    · rintro ⟨same, -, -⟩
      exact same.mp
    · intro told
      have same : AlikeBut (asSchema schema) a b ↔ deepEqual (some a) (some b) = true :=
        ⟨told, fun equal => alike_of_same distinct distinct' _ (of_decide_eq_true equal)⟩
      exact ⟨same, fun _ _ => same, fun _ _ _ => same⟩
  refine ⟨identified, fun clean clean' => identified.mpr fun alike => decide_eq_true ?_⟩
  exact same_of_alike alike distinct distinct' clean clean'

/-! ### Two records -/

/-- A string's schema, with a default. -/
def laneSchema : JsonValue :=
  .object () [(text "type", .string (text "object")), (text "properties", .object ()
    [(text "lane", .object () [(text "type", .string (text "string")),
      (text "default", .string (text "main"))])])]

/-- An input of that schema. -/
def laneInput (lane : Text) : JsonValue := .object () [(text "lane", .string lane)]

theorem laneInput_ok (lane : Text) :
    Distinct (laneInput lane) ∧ Filled (asSchema (some laneSchema)) (laneInput lane) ∧
      NoProto (laneInput lane) := by
  refine ⟨.object (nodup_singleton _) (List.forall_mem_singleton.mpr (.plain rfl)),
    .object (fun key has => ?_) (List.forall_mem_singleton.mpr (.plain rfl)),
    .object (fun inside => ?_) (List.forall_mem_singleton.mpr (.plain rfl))⟩
  · by_cases here : text "lane" = key
    · rw [← here]
      exact mem_singleton_self _
    · have none : propertySchema (asSchema (some laneSchema)) key = [] := by
        show asSchema (Assoc.get key [(text "lane", _)]) = []
        rw [get_cons_ne here]
        rfl
      rw [none] at has
      cases has
  · have apart : PROTO ≠ text "lane" := by decide
    exact apart (List.mem_singleton.mp inside)

/-- Lanes are told apart, the default too. -/
theorem lanes_identified : Identified (some laneSchema) (laneInput (text "main"))
    (laneInput (text "side")) :=
  (identified_iff (laneInput_ok (text "main")).1 (laneInput_ok (text "side")).1
    (laneInput_ok (text "main")).2.1 (laneInput_ok (text "side")).2.1).2
    (laneInput_ok (text "main")).2.2 (laneInput_ok (text "side")).2.2

/-- The schema of a record of numbers. -/
def recordSchema : JsonValue :=
  .object () [(text "type", .string (text "object")), (text "patternProperties", .object ()
    [(text "^(.*)$", .object () [(text "type", .string (text "number"))])])]

/-- A record with one key. -/
def protoRecord (n : Nat) : JsonValue := .object () [(PROTO, .number (JsNumber.ofNat n))]

/-- **Two records with one identity**: the number under `__proto__` is lost. -/
theorem proto_confused : Distinct (protoRecord 1) ∧ Distinct (protoRecord 2) ∧
    Filled (asSchema (some recordSchema)) (protoRecord 1) ∧
    Filled (asSchema (some recordSchema)) (protoRecord 2) ∧
    canonicalIdentity (some recordSchema) (protoRecord 1) = text "\x7b\x7d" ∧
    ¬ Identified (some recordSchema) (protoRecord 1) (protoRecord 2) := by
  have distinct (n : Nat) : Distinct (protoRecord n) :=
    .object (nodup_singleton _) (List.forall_mem_singleton.mpr (.plain rfl))
  have filled (n : Nat) : Filled (asSchema (some recordSchema)) (protoRecord n) :=
    .object (fun key has => by cases has) (List.forall_mem_singleton.mpr (.plain rfl))
  refine ⟨distinct 1, distinct 2, filled 1, filled 2, by decide, fun identified => ?_⟩
  have same : canonicalIdentity (some recordSchema) (protoRecord 1) =
      canonicalIdentity (some recordSchema) (protoRecord 2) := by decide
  exact absurd (identified.1.mp same) (by decide)

end TianGong.Contract

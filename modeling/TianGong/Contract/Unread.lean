/-
**What `fits` leaves unread.**

Where `fits` says yes, a value of the one schema is a value of the other exactly when it passes the
checks of the other that `fits` compares with nothing: the keywords beside its `anyOf`, `const` or
`enum`, the shape of a value that is listed, the names and items only one of the schemas speaks of.

* `ObjectFitting`, `ArrayFitting`: what the comparisons of objects and arrays establish.
-/

import TianGong.Contract.Fits

namespace TianGong.Contract

open List Bool

/-! ### Objects and arrays that fit -/

section Parts

variable (tests : Text → Text → Bool) (sub sup : List (Text × JsonValue))

/-- What `objectFits` compares. -/
structure ObjectFitting : Prop where
  required : ∀ key ∈ requiredOf sup, key ∈ requiredOf sub
  property : ∀ key property, Assoc.get key (namedOf (text "properties") sup) = some property →
    within key (namedOf (text "properties") sub) = true →
      fits tests (Assoc.get key (namedOf (text "properties") sub)) (some property) = true
  other : ∀ key property additional,
    Assoc.get key (namedOf (text "properties") sup) = some property →
      within key (namedOf (text "properties") sub) = false →
        Assoc.get (text "additionalProperties") sub = some additional →
          isTypeofObject additional = true → fits tests (some additional) (some property) = true
  closed : Assoc.get (text "additionalProperties") sup = some (.bool false) →
    ∀ key property, Assoc.get key (namedOf (text "properties") sub) = some property →
      within key (namedOf (text "properties") sup) = true
  named : ∀ pattern property,
    Assoc.get pattern (namedOf (text "patternProperties") sup) = some property →
      ∀ key part, Assoc.get key (namedOf (text "properties") sub) = some part →
        within key (namedOf (text "properties") sup) = false → tests pattern key = true →
          fits tests (some part) (some property) = true
  pattern : namedOf (text "patternProperties") sub ≠ [] → ∀ pattern property,
    Assoc.get pattern (namedOf (text "patternProperties") sup) = some property →
      fits tests (Assoc.get pattern (namedOf (text "patternProperties") sub)) (some property) = true

theorem objectFitting_of_fits (fit : objectFits tests sub sup = true) :
    ObjectFitting tests sub sup := by
  rw [objectFits] at fit
  simp only [and_eq_true, all_eq_true, mem_attach, true_imp_iff, Subtype.forall]
    at fit
  obtain ⟨⟨⟨required, properties⟩, closes⟩, patterns⟩ := fit
  rw [patternsFit] at patterns
  refine ⟨fun key member => by simpa using required key member, fun key property found inside => ?_,
    fun key property additional found outside named object => ?_, fun isClosed key property found => ?_,
    fun pattern property found key part there outside tested => ?_,
    fun some_ pattern property found => ?_⟩
  · have compared := properties (key, property) (Assoc.mem_of_get found)
    rw [if_pos inside] at compared
    exact compared
  · have compared := properties (key, property) (Assoc.mem_of_get found)
    rw [if_neg (by simp [outside])] at compared
    split at compared
    · rename_i additional' named'
      rw [named] at named'
      cases named'
      simpa [object] using compared
    · rename_i missing
      rw [named] at missing
      cases missing
  · rw [isClosed] at closes
    simp only [ne_eq, not_true_eq_false, decide_false, Bool.false_or, and_eq_true,
      all_eq_true] at closes
    exact closes.2 _ (Assoc.mem_of_get found)
  · have full : namedOf (text "patternProperties") sup ≠ [] :=
      ne_nil_of_mem (Assoc.mem_of_get found)
    simp only [if_neg full, and_eq_true, all_eq_true, mem_attach, true_imp_iff,
      Subtype.forall] at patterns
    have compared := (patterns.1.2 (pattern, property) (Assoc.mem_of_get found)).1 (key, part)
      (Assoc.mem_of_get there)
    simpa [outside, tested] using compared
  · have full : namedOf (text "patternProperties") sup ≠ [] :=
      ne_nil_of_mem (Assoc.mem_of_get found)
    simp only [if_neg full, and_eq_true, all_eq_true, mem_attach, true_imp_iff,
      Subtype.forall] at patterns
    have compared := (patterns.1.2 (pattern, property) (Assoc.mem_of_get found)).2
    simp only [some_, decide_false, Bool.false_or, and_eq_true] at compared
    exact compared.2

/-- What `arrayFits` compares. -/
structure ArrayFitting : Prop where
  tuples : ∀ supItems, arrayOf (text "items") sup = some supItems →
    ∃ subItems, arrayOf (text "items") sub = some subItems ∧ subItems.length = supItems.length ∧
      ∀ (i : Nat) part part', subItems[i]? = some part → supItems[i]? = some part' →
        fits tests (some part) (some part') = true
  tuple : arrayOf (text "items") sup = none → ∀ subItems, arrayOf (text "items") sub = some subItems →
    ∀ part ∈ subItems, fits tests (some part) (Assoc.get (text "items") sup) = true
  items : arrayOf (text "items") sup = none → arrayOf (text "items") sub = none →
    fits tests (Assoc.get (text "items") sub) (Assoc.get (text "items") sup) = true

theorem arrayFitting_of_fits (fit : arrayFits tests sub sup = true) : ArrayFitting tests sub sup := by
  rw [arrayFits] at fit
  refine ⟨fun supItems supFound => ?_, fun missing subItems subFound part member => ?_,
    fun missing absent => ?_⟩
  · split at fit
    · rename_i supItems' supFound'
      rw [supFound] at supFound'
      cases supFound'
      split at fit
      · rename_i subItems subFound
        simp only [and_eq_true, decide_eq_true_eq, all_eq_true, mem_attach,
          true_imp_iff, Subtype.forall] at fit
        refine ⟨subItems, subFound, fit.1, fun i part part' here there => ?_⟩
        refine fit.2 (part, part') (mem_of_getElem? (i := i) ?_)
        rw [List.getElem?_zip_eq_some]
        exact ⟨here, there⟩
      · cases fit
    · rename_i missing
      rw [supFound] at missing
      cases missing
  · split at fit
    · rename_i supFound
      rw [missing] at supFound
      cases supFound
    · split at fit
      · rename_i subItems' subFound'
        rw [subFound] at subFound'
        cases subFound'
        exact List.all_eq_true.mp fit ⟨part, member⟩ (mem_attach _ _)
      · rename_i absent
        rw [subFound] at absent
        cases absent
  · split at fit
    · rename_i supFound
      rw [missing] at supFound
      cases supFound
    · split at fit
      · rename_i subFound
        rw [absent] at subFound
        cases subFound
      · exact fit

end Parts

/-! ### What is unread -/

section Step

variable (r : Reading) (closed : Bool)
  (unread : Option JsonValue → Option JsonValue → JsonValue → Prop)

/-- Nothing else is compared with what `sup` asks under a key. -/
structure UnreadField (sub sup : List (Text × JsonValue)) (key : Text) (x : JsonValue) : Prop where
  property : ∀ property, Assoc.get key (namedOf (text "properties") sup) = some property →
    within key (namedOf (text "properties") sub) = true →
      unread (Assoc.get key (namedOf (text "properties") sub)) (some property) x
  other : ∀ property additional,
    Assoc.get key (namedOf (text "properties") sup) = some property →
      within key (namedOf (text "properties") sub) = false →
        Assoc.get (text "additionalProperties") sub = some additional →
          isTypeofObject additional = true → Unnamed r sub key →
            unread (some additional) (some property) x
  /-- A name of `sup` that `sub` knows by a pattern only, or not at all. -/
  alone : ∀ property, Assoc.get key (namedOf (text "properties") sup) = some property →
    within key (namedOf (text "properties") sub) = false →
      (¬∃ additional, Assoc.get (text "additionalProperties") sub = some additional ∧
        isTypeofObject additional = true ∧ Unnamed r sub key) →
        Valid r false (some property) x
  pattern : ∀ pattern property,
    Assoc.get pattern (namedOf (text "patternProperties") sup) = some property →
      r.tests pattern key = true → namedOf (text "patternProperties") sub ≠ [] →
        unread (Assoc.get pattern (namedOf (text "patternProperties") sub)) (some property) x
  named : ∀ pattern property part,
    Assoc.get pattern (namedOf (text "patternProperties") sup) = some property →
      r.tests pattern key = true → namedOf (text "patternProperties") sub = [] →
        Assoc.get key (namedOf (text "properties") sub) = some part →
          within key (namedOf (text "properties") sup) = false →
            unread (some part) (some property) x
  /-- A name of both schemas that a pattern of `sup` matches as well. -/
  both : ∀ pattern property,
    Assoc.get pattern (namedOf (text "patternProperties") sup) = some property →
      r.tests pattern key = true → namedOf (text "patternProperties") sub = [] →
        (Assoc.get key (namedOf (text "properties") sub) = none ∨
          within key (namedOf (text "properties") sup) = true) → Valid r false (some property) x
  /-- A name that a pattern of `sub` lets through, or that every object inherits. -/
  extra : Assoc.get (text "additionalProperties") sup = some (.bool false) → Unnamed r sup key →
    Assoc.has key (namedOf (text "properties") sub) = true ∧ key ∉ INHERITED

/-- The same of an object. -/
def UnreadNames (sub sup : List (Text × JsonValue)) (value : JsonValue) : Prop :=
  ∀ fields, value = .object () fields → ∀ key x, Assoc.get key fields = some x →
    UnreadField r unread sub sup key x

/-- The same of an array: items past a tuple are compared with nothing. -/
def UnreadItems (sub sup : List (Text × JsonValue)) (value : JsonValue) : Prop :=
  ∀ items, value = .array () items → ∀ i x, items[i]? = some x →
    (∀ supItems subItems, arrayOf (text "items") sup = some supItems →
      arrayOf (text "items") sub = some subItems →
        (∀ part part', subItems[i]? = some part → supItems[i]? = some part' →
          unread (some part) (some part') x) ∧
        (supItems.length ≤ i → ∀ additional,
          Assoc.get (text "additionalItems") sup = some additional →
            additional ≠ .bool false ∧ Valid r false (some additional) x)) ∧
    (arrayOf (text "items") sup = none → ∀ part', Assoc.get (text "items") sup = some part' →
      (∀ subItems, arrayOf (text "items") sub = some subItems →
        (∀ part, subItems[i]? = some part → unread (some part) (some part') x) ∧
        (subItems.length ≤ i → Valid r false (some part') x)) ∧
      (arrayOf (text "items") sub = none → unread (Assoc.get (text "items") sub) (some part') x))

/-- What a schema asks of a value by its shape. -/
def Shaped (schema : List (Text × JsonValue)) (value : JsonValue) : Prop :=
  Named r false (fun part => Valid r false (some part)) schema value ∧
    Itemed (fun part => Valid r false (some part)) schema value

/-- A constraint of `sup` given as `null` is not told from one that is missing. -/
def NullConstraints (sup : List (Text × JsonValue)) (value : JsonValue) : Prop :=
  ∀ key ∈ CONSTRAINTS, Assoc.get key sup = some .null → r.holds key .null value

/-- One turn of `Unread`. -/
def UnreadStep (sub sup : List (Text × JsonValue)) (value : JsonValue) : Prop :=
  if sup = [] ∨ deepEqual (stripped sub) (stripped sup) = true then True
  else match arrayOf (text "anyOf") sub with
    | some branches => ∀ branch ∈ branches, Valid r closed (some branch) value →
        unread (some branch) (stripped sup) value
    | none =>
      match arrayOf (text "anyOf") sup with
      | some branches =>
        -- The keywords beside `anyOf` are never looked at.
        (Constrained r sup value ∧ Typed r sup value ∧ Constant sup value ∧ Enumerated sup value ∧
          Shaped r sup value) ∧
        ∃ branch ∈ branches, Valid r false (some branch) value ∨
          (fits r.tests (stripped sub) (some branch) = true ∧
            unread (stripped sub) (some branch) value)
      | none =>
        -- Nor are those beside `const` and `enum`.
        if Assoc.has (text "const") sup then
          Constrained r sup value ∧ Typed r sup value ∧ Enumerated sup value ∧ Shaped r sup value
        else if (arrayOf (text "enum") sup).isSome then
          Constrained r sup value ∧ Typed r sup value ∧ Shaped r sup value
        else NullConstraints r sup value ∧
          -- The shape of a listed value is not compared.
          if (listed sub).isSome then Shaped r sup value
          else UnreadNames r unread sub sup value ∧ UnreadItems r unread sub sup value

end Step

/-- **The checks of `supSchema` that `fits` makes no comparison for.** -/
def Unread (r : Reading) (closed : Bool) (subSchema supSchema : Option JsonValue)
    (value : JsonValue) : Prop :=
  UnreadStep r closed
    (fun part part' x => ∃ _ : weightOf part + weightOf part' < weightOf subSchema + weightOf supSchema,
      Unread r closed part part' x)
    (keywords subSchema) (keywords supSchema) value
termination_by weightOf subSchema + weightOf supSchema
decreasing_by exact ‹_›

/-! ### Reading the unread -/

variable {subTypes supTypes : List Text}

variable {schema : Option JsonValue} {key : Text} {x value : JsonValue}

section Reading

variable {r : Reading} {closed : Bool}
  {unread : Option JsonValue → Option JsonValue → JsonValue → Prop}
  {sub sup : List (Text × JsonValue)}

theorem valid_of_empty (empty : keywords schema = []) : Valid r closed schema value := by
  rw [valid_iff, empty]
  refine ⟨fun _ _ found => (by cases found), fun _ typed => (by cases typed),
    fun _ found => (by cases found), fun _ found => (by cases found), fun _ found => (by cases found),
    fun fields _ => ⟨fun key member => (by cases member), fun key x _ => ?_⟩,
    fun items _ => ⟨fun _ found => (by cases found), fun _ _ found => (by cases found)⟩⟩
  exact ⟨fun _ found => (by cases found), fun _ _ found => (by cases found),
    fun _ _ found => (by cases found), fun _ closes => (by cases closes.2.1)⟩

theorem valid_none : Valid r closed none value := valid_of_empty rfl

theorem keywords_stripped (schema : Option JsonValue) :
    keywords (stripped (keywords schema)) = keywords schema := by
  show withoutAnnotations (keywords schema) = _
  unfold keywords withoutAnnotations
  rw [filter_filter]
  simp only [Bool.and_self]

/-- Annotations mean nothing. -/
theorem valid_stripped :
    Valid r closed (stripped (keywords schema)) value ↔ Valid r closed schema value := by
  constructor
  · exact valid_of_same id (by rw [keywords_stripped]; exact fun _ => rfl)
  · exact valid_of_same id (by rw [keywords_stripped]; exact fun _ => rfl)

/-- The comparisons of smaller parts that say yes are as good as what they leave unread. -/
def Reads (r : Reading) (closed : Bool)
    (unread : Option JsonValue → Option JsonValue → JsonValue → Prop) (size : Nat) : Prop :=
  ∀ part part' x, weightOf part + weightOf part' ≤ size → fits r.tests part part' = true →
    Valid r closed part x → (Valid r false part' x ↔ unread part part' x)

theorem weight_get {name : Text} {schema : List (Text × JsonValue)} {part : JsonValue}
    (found : Assoc.get name (namedOf key schema) = some part) :
    weightOf (some part) ≤ fieldsWeight schema := weight_le_named (Assoc.mem_of_get found)

/-- The value under a name that `sub` has a schema for. -/
theorem Field.get (field : Field r closed (fun part => Valid r closed (some part)) sub key x) :
    Valid r closed (Assoc.get key (namedOf (text "properties") sub)) x := by
  cases found : Assoc.get key (namedOf (text "properties") sub) with
  | none => exact valid_none
  | some part => exact field.property part found

theorem Field.getPattern {pattern : Text}
    (field : Field r closed (fun part => Valid r closed (some part)) sub key x)
    (tests : r.tests pattern key = true) :
    Valid r closed (Assoc.get pattern (namedOf (text "patternProperties") sub)) x := by
  cases found : Assoc.get pattern (namedOf (text "patternProperties") sub) with
  | none => exact valid_none
  | some part => exact field.pattern pattern part found tests

/-- **Under one key**, what is unread is all that is asked. -/
theorem field_iff (fitting : ObjectFitting r.tests sub sup)
    (boolean : ∀ additional, Assoc.get (text "additionalProperties") sup = some additional →
      isBoolean additional = true)
    (read : Reads r closed unread (fieldsWeight sub + fieldsWeight sup))
    (field : Field r closed (fun part => Valid r closed (some part)) sub key x) :
    Field r false (fun part => Valid r false (some part)) sup key x ↔
      UnreadField r unread sub sup key x := by
  have other : ∀ {property additional},
      Assoc.get key (namedOf (text "properties") sup) = some property →
      within key (namedOf (text "properties") sub) = false →
      Assoc.get (text "additionalProperties") sub = some additional →
      isTypeofObject additional = true → Unnamed r sub key →
      (Valid r false (some property) x ↔ unread (some additional) (some property) x) := by
    intro property additional found outside named object unnamed
    have size := weightOf_get (text "additionalProperties") sub
    have size' := weight_get found
    rw [named] at size
    exact read _ _ _ (by omega) (fitting.other key property additional found outside named object)
      (field.additional unnamed additional named).2
  have property : ∀ {property}, Assoc.get key (namedOf (text "properties") sup) = some property →
      within key (namedOf (text "properties") sub) = true →
      (Valid r false (some property) x ↔
        unread (Assoc.get key (namedOf (text "properties") sub)) (some property) x) := by
    intro property found inside
    have size := weight_le_getNamed key (text "properties") sub
    have size' := weight_get found
    exact read _ _ _ (by omega) (fitting.property key property found inside) field.get
  have pattern : ∀ {pattern property},
      Assoc.get pattern (namedOf (text "patternProperties") sup) = some property →
      r.tests pattern key = true → namedOf (text "patternProperties") sub ≠ [] →
      (Valid r false (some property) x ↔
        unread (Assoc.get pattern (namedOf (text "patternProperties") sub)) (some property) x) := by
    intro pattern property found tests full
    have size := weight_le_getNamed pattern (text "patternProperties") sub
    have size' := weight_get found
    exact read _ _ _ (by omega) (fitting.pattern full pattern property found) (field.getPattern tests)
  have named : ∀ {pattern property part},
      Assoc.get pattern (namedOf (text "patternProperties") sup) = some property →
      r.tests pattern key = true → Assoc.get key (namedOf (text "properties") sub) = some part →
      within key (namedOf (text "properties") sup) = false →
      (Valid r false (some property) x ↔ unread (some part) (some property) x) := by
    intro pattern property part found tests there outside
    have size := weight_get there
    have size' := weight_get found
    exact read _ _ _ (by omega)
      (fitting.named pattern property found key part there outside tests) (field.property part there)
  constructor
  · intro asks
    exact ⟨fun p found inside => (property found inside).mp (asks.property p found),
      fun p a found outside there object unnamed =>
        (other found outside there object unnamed).mp (asks.property p found),
      fun p found _ _ => asks.property p found,
      fun q p found tests full => (pattern found tests full).mp (asks.pattern q p found tests),
      fun q p part found tests _ there outside =>
        (named found tests there outside).mp (asks.pattern q p found tests),
      fun q p found tests _ _ => asks.pattern q p found tests,
      fun isClosed unnamed => absurd rfl (asks.additional unnamed _ isClosed).1⟩
  · intro left
    refine ⟨fun p found => ?_, fun q p found tests => ?_, fun unnamed additional found => ?_,
      fun _ closes => (by cases closes.1)⟩
    · cases inside : within key (namedOf (text "properties") sub) with
      | true => exact (property found inside).mpr (left.property p found inside)
      | false =>
        by_cases open_ : ∃ additional, Assoc.get (text "additionalProperties") sub =
            some additional ∧ isTypeofObject additional = true ∧ Unnamed r sub key
        · obtain ⟨a, there, object, unnamed⟩ := open_
          exact (other found inside there object unnamed).mpr
            (left.other p a found inside there object unnamed)
        · exact left.alone p found inside open_
    · by_cases empty : namedOf (text "patternProperties") sub = []
      · cases there : Assoc.get key (namedOf (text "properties") sub) with
        | none => exact left.both q p found tests empty (.inl there)
        | some part =>
          cases inside : within key (namedOf (text "properties") sup) with
          | true => exact left.both q p found tests empty (.inr inside)
          | false =>
            exact (named found tests there inside).mpr
              (left.named q p part found tests empty there inside)
      · exact (pattern found tests empty).mpr (left.pattern q p found tests empty)
    · have is := boolean additional found
      cases additional <;> simp only [isBoolean, false_eq_true] at is
      rename_i b
      cases b with
      | true => exact ⟨by simp, valid_of_empty rfl⟩
      | false =>
        -- The name is one of `sub`'s own, so it was looked for among `sup`'s.
        exfalso
        obtain ⟨own, notInherited⟩ := left.extra found unnamed
        obtain ⟨part, there⟩ := Option.isSome_iff_exists.mp own
        have inside := fitting.closed found key part there
        rw [within, or_eq_true, decide_eq_true_eq] at inside
        rcases inside with has | inherited
        · rw [Assoc.has, unnamed.1] at has
          cases has
        · exact notInherited inherited

theorem names_iff (fitting : ObjectFitting r.tests sub sup)
    (boolean : ∀ additional, Assoc.get (text "additionalProperties") sup = some additional →
      isBoolean additional = true)
    (read : Reads r closed unread (fieldsWeight sub + fieldsWeight sup))
    (holds : Named r closed (fun part => Valid r closed (some part)) sub value) :
    Named r false (fun part => Valid r false (some part)) sup value ↔
      UnreadNames r unread sub sup value := by
  constructor
  · intro asks fields is key x found
    exact (field_iff fitting boolean read ((holds fields is).2 key x found)).mp
      ((asks fields is).2 key x found)
  · intro left fields is
    refine ⟨fun key member => (holds fields is).1 key (fitting.required key member),
      fun key x found => ?_⟩
    exact (field_iff fitting boolean read ((holds fields is).2 key x found)).mpr
      (left fields is key x found)

theorem items_iff (fitting : ArrayFitting r.tests sub sup)
    (read : Reads r closed unread (fieldsWeight sub + fieldsWeight sup))
    (holds : Itemed (fun part => Valid r closed (some part)) sub value) :
    Itemed (fun part => Valid r false (some part)) sup value ↔
      UnreadItems r unread sub sup value := by
  have size : ∀ {key schema items} {i : Nat} {part}, arrayOf key schema = some items →
      items[i]? = some part → weightOf (some part) ≤ fieldsWeight schema := by
    intro key schema items i part found at_
    have := weight_lt_arrayOf found (mem_of_getElem? at_)
    omega
  -- An item of the first tuple against an item of the second, then against the schema of all items.
  have pair : ∀ {items supItems subItems} {i : Nat} {x part part'}, value = .array () items →
      items[i]? = some x → arrayOf (text "items") sup = some supItems →
      arrayOf (text "items") sub = some subItems → subItems[i]? = some part →
      supItems[i]? = some part' →
      (Valid r false (some part') x ↔ unread (some part) (some part') x) := by
    intro items supItems subItems i x part part' is at_ supFound subFound here there
    obtain ⟨subItems', subFound', _, fit⟩ := fitting.tuples supItems supFound
    rw [subFound] at subFound'
    cases subFound'
    have small := size subFound here
    have small' := size supFound there
    exact read _ _ _ (by omega) (fit i part part' here there)
      (((holds items is).1 subItems subFound i x at_).1 part here)
  have one : ∀ {items subItems} {i : Nat} {x part part'}, value = .array () items →
      items[i]? = some x → arrayOf (text "items") sup = none →
      Assoc.get (text "items") sup = some part' → arrayOf (text "items") sub = some subItems →
      subItems[i]? = some part →
      (Valid r false (some part') x ↔ unread (some part) (some part') x) := by
    intro items subItems i x part part' is at_ missing found subFound here
    have fit := fitting.tuple missing subItems subFound part (mem_of_getElem? here)
    rw [found] at fit
    have small := size subFound here
    have small' := weightOf_get (text "items") sup
    rw [found] at small'
    exact read _ _ _ (by omega) fit (((holds items is).1 subItems subFound i x at_).1 part here)
  have all : ∀ {items} {i : Nat} {x part'}, value = .array () items → items[i]? = some x →
      arrayOf (text "items") sup = none → Assoc.get (text "items") sup = some part' →
      arrayOf (text "items") sub = none →
      (Valid r false (some part') x ↔ unread (Assoc.get (text "items") sub) (some part') x) := by
    intro items i x part' is at_ missing found absent
    have fit := fitting.items missing absent
    rw [found] at fit
    have small := weightOf_get (text "items") sub
    have small' := weightOf_get (text "items") sup
    rw [found] at small'
    refine read _ _ _ (by omega) fit ?_
    cases there : Assoc.get (text "items") sub with
    | none => exact valid_none
    | some part => exact (holds items is).2 absent part there x (mem_of_getElem? at_)
  constructor
  · intro asks items is i x at_
    refine ⟨fun supItems subItems supFound subFound => ⟨fun part part' here there => ?_,
      fun past => (((asks items is).1 supItems supFound i x at_).2 past)⟩, fun missing part' found =>
      ⟨fun subItems subFound => ⟨fun part here => ?_, fun _ => ?_⟩, fun absent => ?_⟩⟩
    · exact (pair is at_ supFound subFound here there).mp
        (((asks items is).1 supItems supFound i x at_).1 part' there)
    · exact (one is at_ missing found subFound here).mp
        ((asks items is).2 missing part' found x (mem_of_getElem? at_))
    · exact (asks items is).2 missing part' found x (mem_of_getElem? at_)
    · exact (all is at_ missing found absent).mp
        ((asks items is).2 missing part' found x (mem_of_getElem? at_))
  · intro left items is
    refine ⟨fun supItems supFound i x at_ => ?_, fun missing part' found x member => ?_⟩
    · obtain ⟨subItems, subFound, length, _⟩ := fitting.tuples supItems supFound
      obtain ⟨first, more⟩ := (left items is i x at_).1 supItems subItems supFound subFound
      refine ⟨fun part' there => ?_, more⟩
      have inside : i < subItems.length := by
        rw [length]
        exact (List.getElem?_eq_some_iff.mp there).1
      have here := List.getElem?_eq_getElem inside
      exact (pair is at_ supFound subFound here there).mpr (first _ part' here there)
    · obtain ⟨i, at_⟩ := List.getElem?_of_mem member
      obtain ⟨tuple, every⟩ := (left items is i x at_).2 missing part' found
      cases subFound : arrayOf (text "items") sub with
      | none => exact (all is at_ missing found subFound).mpr (every subFound)
      | some subItems =>
        obtain ⟨first, past⟩ := tuple subItems subFound
        rcases Nat.lt_or_ge i subItems.length with inside | beyond
        · have here := List.getElem?_eq_getElem inside
          exact (one is at_ missing found subFound here).mpr (first _ here)
        · exact past beyond

/-! ### The whole comparison -/

theorem constraints_iff (compared : Compared sub sup) (typing : Typing sub sup subTypes supTypes)
    (holds : Constrained r sub value) : Constrained r sup value ↔ NullConstraints r sup value := by
  constructor
  · intro asks key member found
    have outside : ∀ key ∈ CONSTRAINTS, key ∉ STRUCTURE := by decide
    exact asks key .null found (outside key member)
  · intro left key parameter found outside
    have member : key ∈ CONSTRAINTS :=
      (List.mem_append.mp (compared.known key parameter found)).resolve_right outside
    have same := of_decide_eq_true (typing.constraints key parameter member found)
    rw [Option.getD_some] at same
    cases there : Assoc.get key sub with
    | some parameter' =>
      rw [there, Option.getD_some] at same
      exact same ▸ holds key parameter' there outside
    | none =>
      rw [there, Option.getD_none] at same
      have null : parameter = .null := by
        cases parameter <;> simp only [canonicalJson, reduceCtorEq] at same
        rfl
      subst null
      exact left key member found

theorem typed_of_typing (typing : Typing sub sup subTypes supTypes) (holds : Typed r sub value) :
    Typed r sup value := by
  intro types found
  rw [typing.supTyped] at found
  cases found
  obtain ⟨type, member, has⟩ := holds subTypes typing.subTyped
  rcases typing.types type member with inside | ⟨rfl, number⟩
  · exact ⟨type, inside, has⟩
  · refine ⟨text "number", number, ?_⟩
    cases value with
    | number n => simp [hasType]
    | null | bool b | string s | array id items | object id fields => exact absurd has (by simp only [hasType]; decide)

/-- Without branches, validity is that of the other groups. -/
theorem valid_iff_flat (flat : arrayOf (text "anyOf") (keywords schema) = none) :
    Valid r false schema value ↔ Constrained r (keywords schema) value ∧
      Typed r (keywords schema) value ∧ Constant (keywords schema) value ∧
      Enumerated (keywords schema) value ∧ Shaped r (keywords schema) value := by
  have none : Branched (fun part => Valid r false (some part)) (keywords schema) value :=
    fun branches found => by
      rw [flat] at found
      cases found
  rw [valid_iff, Shaped]
  constructor
  · rintro ⟨a, b, c, d, _, e, f⟩
    exact ⟨a, b, c, d, e, f⟩
  · rintro ⟨a, b, c, d, e, f⟩
    exact ⟨a, b, c, d, none, e, f⟩

/-- A listed value is the constant, or one of the enumeration. -/
theorem canonical_of_listed {values : List JsonValue} (found : listed sub = some values)
    (constant : Constant sub value) (enumerated : Enumerated sub value) :
    ∃ item ∈ values, canonicalJson value = canonicalJson item := by
  unfold listed at found
  split at found
  · rename_i only there
    cases found
    exact ⟨only, mem_singleton_self _, constant only there⟩
  · exact enumerated values found

/-- The shape of a value, where neither schema lists its values. -/
theorem shaped_iff (compared : Compared sub sup) (typing : Typing sub sup subTypes supTypes)
    (objects : text "object" ∈ subTypes → objectFits r.tests sub sup = true)
    (arrays : text "array" ∈ subTypes → arrayFits r.tests sub sup = true)
    (read : Reads r closed unread (fieldsWeight sub + fieldsWeight sup))
    (typed : Typed r sub value)
    (named : Named r closed (fun part => Valid r closed (some part)) sub value)
    (itemed : Itemed (fun part => Valid r closed (some part)) sub value) :
    Shaped r sup value ↔ UnreadNames r unread sub sup value ∧ UnreadItems r unread sub sup value := by
  obtain ⟨type, member, has⟩ := typed subTypes typing.subTyped
  refine and_congr ?_ ?_
  · cases value with
    | object id fields =>
      have is : type = text "object" := of_decide_eq_true has
      exact names_iff (objectFitting_of_fits _ _ _ (objects (is ▸ member))) compared.additional
        read named
    | _ => exact iff_of_true (fun _ is => by cases is) (fun _ is => by cases is)
  · cases value with
    | array id items =>
      have is : type = text "array" := of_decide_eq_true has
      exact items_iff (arrayFitting_of_fits _ _ _ (arrays (is ▸ member))) read itemed
    | _ => exact iff_of_true (fun _ is => by cases is) (fun _ is => by cases is)

/-- Where types and constraints fit, validity is that of the shape. -/
theorem valid_iff_shaped {subSchema supSchema : Option JsonValue}
    (flat : Flat (keywords subSchema) (keywords supSchema))
    (typing : Typing (keywords subSchema) (keywords supSchema) subTypes supTypes)
    (constrained : Constrained r (keywords subSchema) value)
    (typed : Typed r (keywords subSchema) value) :
    Valid r false supSchema value ↔
      NullConstraints r (keywords supSchema) value ∧ Shaped r (keywords supSchema) value := by
  have constant : Constant (keywords supSchema) value := fun constant found => by
    rw [typing.noConst] at found
    cases found
  have enumerated : Enumerated (keywords supSchema) value := fun values found => by
    rw [typing.noEnum] at found
    cases found
  rw [valid_iff_flat flat.supFlat, constraints_iff flat.toCompared typing constrained]
  constructor
  · rintro ⟨a, _, _, _, b⟩
    exact ⟨a, b⟩
  · rintro ⟨a, b⟩
    exact ⟨a, typed_of_typing typing typed, constant, enumerated, b⟩

/-- **Where `fits` says yes, the unread is all there is**: a value of the one schema is a value of the
other exactly when it passes the checks that are compared with nothing. -/
theorem valid_iff_unread {subSchema supSchema : Option JsonValue}
    (fit : fits r.tests subSchema supSchema = true) (holds : Valid r closed subSchema value) :
    Valid r false supSchema value ↔ Unread r closed subSchema supSchema value := by
  -- Over the size of the two schemas together.
  generalize size : weightOf subSchema + weightOf supSchema = n
  induction n using Nat.strong_induction_on generalizing subSchema supSchema value with
  | _ n ih =>
    subst size
    rw [Unread]
    generalize smaller : (fun part part' x =>
      ∃ _ : weightOf part + weightOf part' < weightOf subSchema + weightOf supSchema,
        Unread r closed part part' x) = left
    have read : ∀ {part part' x}, weightOf part + weightOf part' <
        weightOf subSchema + weightOf supSchema → fits r.tests part part' = true →
        Valid r closed part x → (Valid r false part' x ↔ left part part' x) := by
      intro part part' x less fit holds
      have one := ih _ less fit holds rfl
      subst smaller
      exact ⟨fun valid => ⟨less, one.mp valid⟩, fun unread => one.mpr unread.2⟩
    have subSize := fieldsWeight_keywords_le subSchema
    have supSize := fieldsWeight_keywords_le supSchema
    unfold UnreadStep
    cases fitting_of_fits r.tests fit with
    | any empty =>
      rw [if_pos (.inl empty)]
      exact iff_of_true (valid_of_empty empty) trivial
    | equal equal =>
      rw [if_pos (.inr equal)]
      have same : Same (keywords subSchema) (keywords supSchema) :=
        same_of_canonical (of_decide_eq_true equal)
      exact iff_of_true (valid_of_same (fun is => by cases is) same holds) trivial
    | branches compared branches found all =>
      rw [if_neg (by simp [compared.full, compared.differ]), found]
      have each : ∀ branch ∈ branches, Valid r closed (some branch) value →
          (Valid r false supSchema value ↔
            left (some branch) (stripped (keywords supSchema)) value) := by
        intro branch member valid
        have part := weight_lt_arrayOf found member
        have whole := fieldsWeight_keywords_lt compared.full
        rw [← valid_stripped]
        refine read ?_ (all branch member) valid
        rw [weightOf_stripped]
        omega
      constructor
      · exact fun valid branch member here => (each branch member here).mp valid
      · intro unread
        obtain ⟨branch, member, here⟩ := (valid_iff.mp holds).2.2.2.2.1 branches found
        exact (each branch member here).mpr (unread branch member here)
    | branch compared noBranches branches found branch member fit =>
      rw [if_neg (by simp [compared.full, compared.differ]), noBranches, found]
      have each : ∀ branch ∈ branches,
          fits r.tests (stripped (keywords subSchema)) (some branch) = true →
          (Valid r false (some branch) value ↔
            left (stripped (keywords subSchema)) (some branch) value) := by
        intro branch member fit
        have part := weight_lt_arrayOf found member
        refine read ?_ fit (valid_stripped.mpr holds)
        rw [weightOf_stripped]
        omega
      rw [valid_iff, Shaped]
      constructor
      · rintro ⟨constrained, typed, constant, enumerated, branched, named, itemed⟩
        obtain ⟨branch, member, valid⟩ := branched branches found
        exact ⟨⟨constrained, typed, constant, enumerated, named, itemed⟩, branch, member,
          .inl valid⟩
      · rintro ⟨⟨constrained, typed, constant, enumerated, named, itemed⟩, branch, member, one⟩
        refine ⟨constrained, typed, constant, enumerated, fun branches' found' => ?_, named, itemed⟩
        rw [found] at found'
        cases found'
        rcases one with valid | ⟨fit, unread⟩
        · exact ⟨branch, member, valid⟩
        · exact ⟨branch, member, (each branch member fit).mpr unread⟩
    | constant flat subConst supConst subFound supFound same =>
      rw [if_neg (by simp [flat.full, flat.differ]), flat.subFlat, flat.supFlat]
      dsimp only
      rw [if_pos (by rw [Assoc.has, supFound]; rfl), valid_iff_flat flat.supFlat]
      have constant : Constant (keywords supSchema) value := by
        intro constant found
        rw [supFound] at found
        cases found
        exact ((valid_iff.mp holds).2.2.1 subConst subFound).trans same
      constructor
      · rintro ⟨a, b, _, c, d⟩
        exact ⟨a, b, c, d⟩
      · rintro ⟨a, b, c, d⟩
        exact ⟨a, b, constant, c, d⟩
    | enum flat noConst allowed values supFound subFound each =>
      rw [if_neg (by simp [flat.full, flat.differ]), flat.subFlat, flat.supFlat]
      dsimp only
      rw [if_neg (by simp [Assoc.has, noConst]), if_pos (by rw [supFound]; rfl),
        valid_iff_flat flat.supFlat]
      have constant : Constant (keywords supSchema) value := by
        intro constant found
        rw [noConst] at found
        cases found
      have enumerated : Enumerated (keywords supSchema) value := by
        intro values' found
        rw [supFound] at found
        cases found
        obtain ⟨_, _, subConstant, subEnumerated, _⟩ := valid_iff.mp holds
        obtain ⟨item, member, equal⟩ := canonical_of_listed subFound subConstant subEnumerated
        obtain ⟨other, inside, same⟩ := each item member
        exact ⟨other, inside, equal.trans same.symm⟩
      constructor
      · rintro ⟨a, b, _, _, c⟩
        exact ⟨a, b, c⟩
      · rintro ⟨a, b, c⟩
        exact ⟨a, b, constant, enumerated, c⟩
    | list flat subTypes supTypes typing lists =>
      obtain ⟨constrained, typed, _⟩ := valid_iff.mp holds
      rw [if_neg (by simp [flat.full, flat.differ]), flat.subFlat, flat.supFlat]
      dsimp only
      rw [if_neg (by simp [Assoc.has, typing.noConst]), if_neg (by simp [typing.noEnum]),
        if_pos lists]
      exact valid_iff_shaped flat typing constrained typed
    | shape flat subTypes supTypes typing lists objects arrays =>
      obtain ⟨constrained, typed, _, _, _, named, itemed⟩ := valid_iff.mp holds
      rw [if_neg (by simp [flat.full, flat.differ]), flat.subFlat, flat.supFlat]
      dsimp only
      rw [if_neg (by simp [Assoc.has, typing.noConst]), if_neg (by simp [typing.noEnum]),
        if_neg (by simp [lists]), valid_iff_shaped flat typing constrained typed]
      have whole := fieldsWeight_keywords_lt flat.full
      exact and_congr_right fun _ => shaped_iff flat.toCompared typing objects arrays
        (fun part part' x less => read (by omega)) typed named itemed

end Reading

end TianGong.Contract

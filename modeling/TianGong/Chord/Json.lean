/-
**Strict JSON values.**

`Json ι` is a finite strict-JSON value whose containers carry a label of type `ι`. With `ι = Nat`
the label is the container's identity (its heap address), so that two containers are `===` exactly
when their labels are equal; with `ι = Unit` only the content is left (`erase`).

A number is held by the text `String(n)` gives it: finite numbers are `===` exactly when they have the
same text, and nothing here computes with them. An object is the list of its own properties in
insertion order; a plain and a null-prototype object are the same value.
`relabel` changes the identities of containers and `erase` forgets them.
-/

import TianGong.Text
import TianGong.Lib.Assoc

namespace TianGong

/-! ### Numbers -/

/-- A code unit that occurs in the text of a finite number. -/
def isNumberUnit (c : UInt16) : Bool :=
  isDigit c || c == unit '-' || c == unit '+' || c == unit '.' || c == unit 'e'

/-- A finite number, as the text `String(n)` gives it. -/
structure JsNumber where
  text : Text
  units : text ≠ [] ∧ ∀ c ∈ text, isNumberUnit c = true
  deriving DecidableEq

/-- A non-negative integer as a number. -/
def JsNumber.ofNat (n : Nat) : JsNumber where
  text := decimal n
  units := ⟨decimal_ne_nil n, fun c member => by
    rw [isNumberUnit, decimal_isDigit member]
    rfl⟩

theorem JsNumber.ext {m n : JsNumber} (same : m.text = n.text) : m = n := by
  cases m
  cases n
  cases same
  rfl

/-! ### Values -/

/-- A strict-JSON value with labelled containers. -/
inductive Json (ι : Type) where
  | null
  | bool (b : Bool)
  | number (n : JsNumber)
  | string (s : Text)
  | array (id : ι) (items : List (Json ι))
  | object (id : ι) (fields : List (Text × Json ι))

namespace Json

variable {ι κ μ : Type}

instance : Inhabited (Json ι) := ⟨.null⟩

/-- `value !== null && typeof value === "object"`. -/
def isContainer : Json ι → Bool
  | .array _ _ => true
  | .object _ _ => true
  | _ => false

/-- The label of a container. -/
def label : Json ι → Option ι
  | .array id _ => some id
  | .object id _ => some id
  | _ => none

/-- Induction over values: a container's case has its parts' hypotheses. -/
theorem induction {motive : Json ι → Prop} (null : motive .null) (bool : ∀ b, motive (.bool b))
    (number : ∀ n, motive (.number n)) (string : ∀ s, motive (.string s))
    (array : ∀ id items, (∀ x ∈ items, motive x) → motive (.array id items))
    (object : ∀ id fields, (∀ e ∈ fields, motive e.2) → motive (.object id fields)) :
    ∀ j, motive j := by
  intro j
  refine @Json.rec ι motive (fun items => ∀ x ∈ items, motive x)
    (fun fields => ∀ e ∈ fields, motive e.2) (fun e => motive e.2)
    null bool number string array object ?_ ?_ ?_ ?_ (fun _ _ value => value) j
  · exact fun x member => by cases member
  · exact fun x xs head rest y member => by
      rcases List.mem_cons.mp member with rfl | later
      · exact head
      · exact rest y later
  · exact fun e member => by cases member
  · exact fun e es head rest f member => by
      rcases List.mem_cons.mp member with rfl | later
      · exact head
      · exact rest f later

mutual
/-- Relabel every container. -/
def relabel (f : ι → κ) : Json ι → Json κ
  | .null => .null
  | .bool b => .bool b
  | .number n => .number n
  | .string s => .string s
  | .array id items => .array (f id) (relabelItems f items)
  | .object id fields => .object (f id) (relabelFields f fields)

/-- Relabel the items of an array. -/
def relabelItems (f : ι → κ) : List (Json ι) → List (Json κ)
  | [] => []
  | x :: xs => relabel f x :: relabelItems f xs

/-- Relabel the fields of an object. -/
def relabelFields (f : ι → κ) : List (Text × Json ι) → List (Text × Json κ)
  | [] => []
  | (k, x) :: xs => (k, relabel f x) :: relabelFields f xs
end

variable (f : ι → κ)

@[simp] theorem relabelItems_eq (items : List (Json ι)) :
    relabelItems f items = items.map (relabel f) := by
  induction items with
  | nil => rfl
  | cons x xs ih => rw [relabelItems, ih, List.map_cons]

@[simp] theorem relabelFields_eq (fields : List (Text × Json ι)) :
    relabelFields f fields = fields.map fun e => (e.1, relabel f e.2) := by
  induction fields with
  | nil => rfl
  | cons e es ih =>
    obtain ⟨k, x⟩ := e
    rw [relabelFields, ih, List.map_cons]

@[simp] theorem relabel_null : relabel f .null = .null := rfl
@[simp] theorem relabel_bool (b : Bool) : relabel f (.bool b) = .bool b := rfl
@[simp] theorem relabel_number (n : JsNumber) : relabel f (.number n) = .number n := rfl
@[simp] theorem relabel_string (s : Text) : relabel f (.string s) = .string s := rfl

@[simp] theorem relabel_array (id : ι) (items : List (Json ι)) :
    relabel f (.array id items) = .array (f id) (items.map (relabel f)) := by
  rw [relabel, relabelItems_eq]

@[simp] theorem relabel_object (id : ι) (fields : List (Text × Json ι)) :
    relabel f (.object id fields) = .object (f id) (fields.map fun e => (e.1, relabel f e.2)) := by
  rw [relabel, relabelFields_eq]

/-- The content of a value, without the identities of its containers. -/
def erase (j : Json ι) : Json Unit := relabel (fun _ => ()) j

end Json

end TianGong

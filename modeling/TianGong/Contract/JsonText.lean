/-
**The text of a JSON value.**

`canonicalJson` of the source is a text: the value with sorted keys, as `JSON.stringify` writes it.

* `canonicalText_inj`: two canonical texts are equal only where the values are, up to key order.
-/

import TianGong.Contract.Schema

namespace TianGong.Contract

open List

mutual
/-- `JSON.stringify`. -/
def stringify : JsonValue → Text
  | .null => text "null"
  | .bool true => text "true"
  | .bool false => text "false"
  | .number n => n.text
  | .string s => quote s
  | .array _ items => unit '[' :: ([unit ','].intercalate (itemTexts items) ++ [unit ']'])
  | .object _ fields => unit '{' :: ([unit ','].intercalate (fieldTexts fields) ++ [unit '}'])

def itemTexts : List JsonValue → List Text
  | [] => []
  | x :: xs => stringify x :: itemTexts xs

def fieldTexts : List (Text × JsonValue) → List Text
  | [] => []
  | (k, x) :: xs => (quote k ++ unit ':' :: stringify x) :: fieldTexts xs
end

/-- The text of a field. -/
def fieldText (e : Text × JsonValue) : Text := quote e.1 ++ unit ':' :: stringify e.2

/-- `canonicalJson`, as the text that it is. -/
def canonicalText (value : JsonValue) : Text := stringify (canonicalJson value)

theorem itemTexts_eq (items : List JsonValue) : itemTexts items = items.map stringify := by
  induction items with
  | nil => rfl
  | cons x xs ih => rw [itemTexts, ih, map_cons]

theorem fieldTexts_eq (fields : List (Text × JsonValue)) :
    fieldTexts fields = fields.map fieldText := by
  induction fields with
  | nil => rfl
  | cons e es ih =>
    obtain ⟨k, x⟩ := e
    rw [fieldTexts, ih, map_cons]
    rfl

/-! ### Where a text ends -/

/-- What comes next is no part of a number. -/
def EndsValue (t : Text) : Prop := ∀ c ∈ t.head?, isNumberUnit c = false

/-- A text that determines where it ends, among those that are rendered. -/
def Delimited {α : Type} (render : α → Text) (a : α) : Prop :=
  ∀ b rest other, EndsValue rest → EndsValue other → render a ++ rest = render b ++ other →
    a = b ∧ rest = other

theorem endsValue_cons {c : UInt16} (outside : isNumberUnit c = false) (rest : Text) :
    EndsValue (c :: rest) := by
  intro d first
  rw [← Option.some.inj first]
  exact outside

/-- **Items with commas between them are determined**, if each determines where it ends. -/
theorem joined_inj {α : Type} {render : α → Text} {close : UInt16}
    (outside : isNumberUnit close = false) (noComma : close ≠ unit ',')
    (starts : ∀ a, ∃ c rest, render a = c :: rest ∧ c ≠ close) {xs ys : List α}
    (each : ∀ x ∈ xs, Delimited render x) {rest other : Text}
    (same : [unit ','].intercalate (xs.map render) ++ close :: rest =
      [unit ','].intercalate (ys.map render) ++ close :: other) : xs = ys ∧ rest = other := by
  have opens (y : α) (zs : List α) (more : Text) :
      close :: rest ≠ [unit ','].intercalate ((y :: zs).map render) ++ more ∧
      close :: other ≠ [unit ','].intercalate ((y :: zs).map render) ++ more := by
    obtain ⟨c, tail, shape, apart⟩ := starts y
    have head : ∃ text, [unit ','].intercalate ((y :: zs).map render) ++ more = c :: text := by
      cases zs with
      | nil =>
        refine ⟨tail ++ more, ?_⟩
        show (render y ++ []) ++ more = _
        rw [shape, append_nil]
        rfl
      | cons z zs =>
        rw [map_cons, map_cons, intercalate_cons_cons, shape]
        exact ⟨_, rfl⟩
    obtain ⟨text, is⟩ := head
    rw [is]
    exact ⟨fun same => apart (List.cons.inj same).1.symm,
      fun same => apart (List.cons.inj same).1.symm⟩
  induction xs generalizing ys with
  | nil =>
    cases ys with
    | nil => exact ⟨rfl, (List.cons.inj same).2⟩
    | cons y ys => exact ((opens y ys _).1 same).elim
  | cons x xs ih =>
    cases ys with
    | nil => exact ((opens x xs _).2 same.symm).elim
    | cons y ys =>
      have comma : isNumberUnit (unit ',') = false := by decide
      have here := each x mem_cons_self
      cases xs with
      | nil =>
        cases ys with
        | nil =>
          have same : (render x ++ []) ++ close :: rest = (render y ++ []) ++ close :: other := same
          rw [append_nil, append_nil] at same
          obtain ⟨rfl, rests⟩ := here y _ _ (endsValue_cons outside _) (endsValue_cons outside _) same
          exact ⟨rfl, (List.cons.inj rests).2⟩
        | cons z zs =>
          rw [map_cons, map_cons, map_cons, intercalate_cons_cons] at same
          have same : (render x ++ []) ++ close :: rest = _ := same
          rw [append_nil, append_assoc, append_assoc] at same
          obtain ⟨-, rests⟩ := here y _ _ (endsValue_cons outside _) (endsValue_cons comma _) same
          exact (noComma (List.cons.inj rests).1).elim
      | cons z zs =>
        cases ys with
        | nil =>
          rw [map_cons, map_cons, map_cons, intercalate_cons_cons] at same
          have same : _ = (render y ++ []) ++ close :: other := same
          rw [append_nil, append_assoc, append_assoc] at same
          obtain ⟨-, rests⟩ := here y _ _ (endsValue_cons comma _) (endsValue_cons outside _) same
          exact (noComma (List.cons.inj rests).1.symm).elim
        | cons w ws =>
          rw [map_cons, map_cons, map_cons, map_cons,
            intercalate_cons_cons, intercalate_cons_cons, append_assoc, append_assoc, append_assoc,
            append_assoc] at same
          obtain ⟨rfl, rests⟩ := here y _ _ (endsValue_cons comma _) (endsValue_cons comma _) same
          obtain ⟨tails, ends⟩ := @ih (w :: ws)
            (fun v later => each v (mem_cons_of_mem _ later)) (List.cons.inj rests).2
          exact ⟨congrArg _ tails, ends⟩

/-! ### Values -/

/-- The units that the text of a value may start with. -/
def StartsWith : JsonValue → UInt16 → Prop
  | .null, c => c = unit 'n'
  | .bool true, c => c = unit 't'
  | .bool false, c => c = unit 'f'
  | .number _, c => isNumberUnit c = true
  | .string _, c => c = unit '"'
  | .array _ _, c => c = unit '['
  | .object _ _, c => c = unit '{'

theorem stringify_starts (a : JsonValue) : ∃ c rest, stringify a = c :: rest ∧ StartsWith a c := by
  cases a with
  | null | string s | array id items | object id fields => exact ⟨_, _, rfl, rfl⟩
  | bool b => cases b <;> exact ⟨_, _, rfl, rfl⟩
  | number n =>
    obtain ⟨c, rest, shape⟩ := List.exists_cons_of_ne_nil n.units.1
    refine ⟨c, rest, shape, n.units.2 c ?_⟩
    rw [shape]
    exact List.mem_cons_self

/-- A text starts with what its value starts with. -/
theorem starts_both {a b : JsonValue} {rest other : Text}
    (same : stringify a ++ rest = stringify b ++ other) : ∃ c, StartsWith a c ∧ StartsWith b c := by
  obtain ⟨c, tail, shape, starts⟩ := stringify_starts a
  obtain ⟨d, tail', shape', starts'⟩ := stringify_starts b
  rw [shape, shape'] at same
  obtain ⟨rfl, -⟩ := List.cons.inj same
  exact ⟨c, starts, starts'⟩

/-- A number ends before what is no part of one. -/
theorem number_append_inj {t t' rest other : Text} (units : ∀ c ∈ t, isNumberUnit c = true)
    (units' : ∀ c ∈ t', isNumberUnit c = true) (ends : EndsValue rest) (ends' : EndsValue other)
    (same : t ++ rest = t' ++ other) : t = t' ∧ rest = other := by
  induction t generalizing t' with
  | nil =>
    cases t' with
    | nil => exact ⟨rfl, same⟩
    | cons c t' =>
      have outside := ends c (by rw [List.nil_append] at same; rw [same]; rfl)
      rw [units' c List.mem_cons_self] at outside
      cases outside
  | cons c t ih =>
    cases t' with
    | nil =>
      have outside := ends' c (by rw [List.nil_append] at same; rw [← same]; rfl)
      rw [units c List.mem_cons_self] at outside
      cases outside
    | cons d t' =>
      obtain ⟨rfl, later⟩ := List.cons.inj same
      obtain ⟨rfl, rests⟩ := ih (fun e inside => units e (List.mem_cons_of_mem _ inside))
        (fun e inside => units' e (List.mem_cons_of_mem _ inside)) later
      exact ⟨rfl, rests⟩

/-- What a value is, as its first unit tells it. -/
def kind : JsonValue → Nat
  | .null => 0
  | .bool true => 1
  | .bool false => 2
  | .number _ => 3
  | .string _ => 4
  | .array _ _ => 5
  | .object _ _ => 6

/-- The kind that a unit starts. -/
def kindOf (c : UInt16) : Nat :=
  if c = unit 'n' then 0 else if c = unit 't' then 1 else if c = unit 'f' then 2
  else if c = unit '"' then 4 else if c = unit '[' then 5 else if c = unit '{' then 6 else 3

theorem kindOf_starts {a : JsonValue} {c : UInt16} (starts : StartsWith a c) :
    kindOf c = kind a := by
  cases a with
  | null | string s | array id items | object id fields =>
    cases starts
    rfl
  | bool b => cases b <;> cases starts <;> rfl
  | number n =>
    have number : isNumberUnit c = true := starts
    have apart {d : UInt16} (outside : isNumberUnit d = false) : c ≠ d := by
      rintro rfl
      rw [number] at outside
      cases outside
    unfold kindOf
    rw [if_neg (apart (by decide)), if_neg (apart (by decide)), if_neg (apart (by decide)),
      if_neg (apart (by decide)), if_neg (apart (by decide)), if_neg (apart (by decide))]
    rfl

/-- **A value's text determines where it ends**, unless a number goes on. -/
theorem stringify_delimited (a : JsonValue) : Delimited stringify a := by
  have kinds {a b : JsonValue} {rest other : Text}
      (same : stringify a ++ rest = stringify b ++ other) : kind a = kind b := by
    obtain ⟨c, starts, starts'⟩ := starts_both same
    exact (kindOf_starts starts).symm.trans (kindOf_starts starts')
  have starts (x : JsonValue) : ∃ c rest, stringify x = c :: rest ∧ c ≠ unit ']' := by
    obtain ⟨c, rest, shape, starts⟩ := stringify_starts x
    refine ⟨c, rest, shape, ?_⟩
    rintro rfl
    have is : 3 = kind x := kindOf_starts starts
    cases x with
    | number n =>
      have number : isNumberUnit (unit ']') = true := starts
      exact absurd number (by decide)
    | bool b => cases b <;> cases is
    | null | string s | array id items | object id fields => cases is
  induction a using Json.induction with
  | null =>
    intro b rest other _ _ same
    have is := kinds same
    cases b with
    | null => exact ⟨rfl, append_cancel_left same⟩
    | bool b => cases b <;> cases is
    | number n | string s | array id items | object id fields => cases is
  | bool b =>
    intro b' rest other _ _ same
    have is := kinds same
    cases b' with
    | bool b' =>
      cases b <;> cases b' <;> first | exact ⟨rfl, append_cancel_left same⟩ | cases is
    | null | number n | string s | array id items | object id fields => cases b <;> cases is
  | number n =>
    intro b rest other ends ends' same
    have is := kinds same
    cases b with
    | number n' =>
      obtain ⟨texts, rests⟩ := number_append_inj n.units.2 n'.units.2 ends ends' same
      exact ⟨congrArg _ (JsNumber.ext texts), rests⟩
    | bool b => cases b <;> cases is
    | null | string s | array id items | object id fields => cases is
  | string s =>
    intro b rest other _ _ same
    have is := kinds same
    cases b with
    | string s' =>
      obtain ⟨rfl, rests⟩ := quote_append_inj same
      exact ⟨rfl, rests⟩
    | bool b => cases b <;> cases is
    | null | number n | array id items | object id fields => cases is
  | array id items ih =>
    intro b rest other _ _ same
    have is := kinds same
    cases b with
    | array id' items' =>
      have inner : ([unit ','].intercalate (itemTexts items) ++ [unit ']']) ++ rest =
        ([unit ','].intercalate (itemTexts items') ++ [unit ']']) ++ other := (List.cons.inj same).2
      rw [append_assoc, append_assoc, itemTexts_eq, itemTexts_eq] at inner
      obtain ⟨rfl, rests⟩ := joined_inj (by decide) (by decide) starts ih inner
      exact ⟨rfl, rests⟩
    | bool b => cases b <;> cases is
    | null | number n | string s | object id fields => cases is
  | object id fields ih =>
    intro b rest other _ _ same
    have is := kinds same
    cases b with
    | object id' fields' =>
      have inner : ([unit ','].intercalate (fieldTexts fields) ++ [unit '}']) ++ rest =
        ([unit ','].intercalate (fieldTexts fields') ++ [unit '}']) ++ other :=
        (List.cons.inj same).2
      rw [append_assoc, append_assoc, fieldTexts_eq, fieldTexts_eq] at inner
      have each : ∀ e ∈ fields, Delimited fieldText e := by
        intro e inside e' rest other ends ends' same
        rw [fieldText, fieldText, append_assoc, append_assoc] at same
        obtain ⟨keys, later⟩ := quote_append_inj same
        obtain ⟨values, rests⟩ := ih e inside e'.2 rest other ends ends' (List.cons.inj later).2
        exact ⟨Prod.ext keys values, rests⟩
      obtain ⟨rfl, rests⟩ := joined_inj (by decide) (by decide)
        (fun e => ⟨unit '"', _, rfl, by decide⟩) each inner
      exact ⟨rfl, rests⟩
    | bool b => cases b <;> cases is
    | null | number n | string s | array id items => cases is

/-- **The text determines the value.** -/
theorem stringify_inj {a b : JsonValue} (same : stringify a = stringify b) : a = b := by
  have ends : EndsValue [] := fun c first => by cases first
  exact (stringify_delimited a b [] [] ends ends (by rw [same])).1

/-- **Canonical texts** are equal where canonical values are. -/
theorem canonicalText_inj {a b : JsonValue} :
    canonicalText a = canonicalText b ↔ canonicalJson a = canonicalJson b :=
  ⟨stringify_inj, congrArg stringify⟩

end TianGong.Contract

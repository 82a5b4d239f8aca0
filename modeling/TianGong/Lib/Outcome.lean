/-
**Comparing a program that may throw with what it is for.**

A program returns `Except ε α`; its purpose, stated without errors, is an `Option β`. `Agrees P r o`
says that they succeed together, with results related by `P`, or fail together. `Agrees.bind` is the
rule for a sequence, so a simulation is proved step by step along the program's own `do` block.
-/

import Mathlib.Logic.Basic

namespace TianGong.Lib

variable {ε α β γ δ : Type}

/-- Both succeed, with related results, or both fail. -/
def Agrees (P : α → β → Prop) : Except ε α → Option β → Prop
  | .ok a, some b => P a b
  | .error _, none => True
  | _, _ => False

variable {r : Except ε α} {o : Option β}

namespace Agrees

variable {P : α → β → Prop} {Q : γ → δ → Prop}

theorem ok {a : α} {b : β} (related : P a b) : Agrees P (.ok a : Except ε α) (some b) := related

theorem error (e : ε) : Agrees P (.error e : Except ε α) (none : Option β) := trivial

theorem bind {f : α → Except ε γ} {g : β → Option δ} (first : Agrees P r o)
    (next : ∀ a b, P a b → Agrees Q (f a) (g b)) : Agrees Q (r >>= f) (o >>= g) := by
  cases r with
  | ok a =>
    cases o with
    | some b => exact next a b first
    | none => exact first.elim
  | error e =>
    cases o with
    | some b => exact first.elim
    | none => trivial

/-- A last step that cannot fail. -/
theorem andThen {R : γ → β → Prop} {f : α → Except ε γ} (first : Agrees P r o)
    (next : ∀ a b, P a b → ∃ c, f a = .ok c ∧ R c b) : Agrees R (r >>= f) o := by
  cases r with
  | ok a =>
    cases o with
    | some b =>
      obtain ⟨c, done, related⟩ := next a b first
      show Agrees R (f a) (some b)
      rw [done]
      exact related
    | none => exact first.elim
  | error e =>
    cases o with
    | some b => exact first.elim
    | none => trivial

theorem imp {R : α → β → Prop} (agrees : Agrees P r o) (weaker : ∀ a b, P a b → R a b) :
    Agrees R r o := by
  cases r with
  | ok a =>
    cases o with
    | some b => exact weaker a b agrees
    | none => exact agrees.elim
  | error e =>
    cases o with
    | some b => exact agrees.elim
    | none => trivial

/-- The result is read through a map of the purpose. -/
theorem map {R : α → δ → Prop} {g : β → δ} (agrees : Agrees P r o)
    (weaker : ∀ a b, P a b → R a (g b)) : Agrees R r (o.map g) := by
  cases r with
  | ok a =>
    cases o with
    | some b => exact weaker a b agrees
    | none => exact agrees.elim
  | error e =>
    cases o with
    | some b => exact agrees.elim
    | none => trivial

theorem of_some {b : β} (agrees : Agrees P r (some b)) : ∃ a, r = .ok a ∧ P a b := by
  cases r with
  | ok a => exact ⟨a, rfl, agrees⟩
  | error e => exact agrees.elim

theorem of_none (agrees : Agrees P r none) : ∃ e, r = .error e := by
  cases r with
  | ok a => exact agrees.elim
  | error e => exact ⟨e, rfl⟩

theorem of_ok {a : α} (agrees : Agrees P (.ok a : Except ε α) o) : ∃ b, o = some b ∧ P a b := by
  cases o with
  | some b => exact ⟨b, rfl, agrees⟩
  | none => exact agrees.elim

end Agrees

/-- Two programs both succeed, with related results, or both throw. -/
def BothOrNeither (P : α → γ → Prop) : Except ε α → Except ε γ → Prop
  | .ok a, .ok c => P a c
  | .error _, .error _ => True
  | _, _ => False

/-- Two programs with one purpose succeed together or fail together. -/
theorem Agrees.both {P : α → β → Prop} {Q : γ → β → Prop} {s : Except ε γ} (first : Agrees P r o)
    (second : Agrees Q s o) : BothOrNeither (fun a c => ∃ b, P a b ∧ Q c b) r s := by
  cases o with
  | none =>
    obtain ⟨e, rfl⟩ := first.of_none
    obtain ⟨e', rfl⟩ := second.of_none
    trivial
  | some b =>
    obtain ⟨a, rfl, p⟩ := first.of_some
    obtain ⟨c, rfl, q⟩ := second.of_some
    exact ⟨b, p, q⟩

/-! ### Two optional values -/

variable {P : α → β → Prop} {Q : γ → δ → Prop} {p : Option α}

theorem rel_bind {f : α → Option γ} {g : β → Option δ} (first : Option.Rel P p o)
    (next : ∀ a b, P a b → Option.Rel Q (f a) (g b)) : Option.Rel Q (p >>= f) (o >>= g) := by
  cases first with
  | none => exact .none
  | some related => exact next _ _ related

theorem rel_map {f : α → γ} {g : β → δ} (first : Option.Rel P p o)
    (next : ∀ a b, P a b → Q (f a) (g b)) : Option.Rel Q (p.map f) (o.map g) := by
  cases first with
  | none => exact .none
  | some related => exact .some (next _ _ related)

end TianGong.Lib

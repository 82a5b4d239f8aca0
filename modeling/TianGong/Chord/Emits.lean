/-
**What a step of the diff adds to a batch.**

`Emits step Q`: a step either overflows the batch or appends operations with the property `Q`. Three
properties are used, and each composes along the diff's own recursion:

* `Reaches h path x y`: at the path, they turn `x` into a value deeply equal to `y`.
* `Rewrites h path start olds news`: in the array at the path, they turn the items `olds` from the
  position `start` into items deeply equal to `news`, whatever stands before and after.
* `Puts h path key old value`: in the object at the path, they put a value deeply equal to `value`
  under the key.
-/

import TianGong.Chord.Diff
import TianGong.Chord.Transforms

namespace TianGong.Chord

open TianGong.Lib TianGong.Json

/-! ### Steps on batches -/

/-- **A step overflows the batch, or appends operations with the property.** -/
def Emits (step : Batch → Batch) (Q : List (Op (Json Addr)) → Prop) : Prop :=
  ∀ b, (step b).overflowed = false →
    b.overflowed = false ∧ ∃ δ, (step b).operations = b.operations ++ δ ∧ Q δ

namespace Emits

variable {f g : Batch → Batch} {P Q R : List (Op (Json Addr)) → Prop}

theorem imp (emits : Emits f P) (weaker : ∀ δ, P δ → Q δ) : Emits f Q := fun b open_ => by
  obtain ⟨before, δ, added, holds⟩ := emits b open_
  exact ⟨before, δ, added, weaker δ holds⟩

theorem skip (holds : Q []) : Emits (fun b => b) Q := fun _ open_ =>
  ⟨open_, [], (List.append_nil _).symm, holds⟩

theorem operation {op : Op (Json Addr)} (holds : Q [op]) : Emits (emitOperation · op) Q := by
  intro b open_
  unfold emitOperation at open_ ⊢
  dsimp only at open_ ⊢
  split_ifs at open_ ⊢ with beyond full
  · rw [beyond] at open_
    cases open_
  · exact ⟨by simpa using beyond, [op], rfl, holds⟩

theorem andThen (first : Emits f P) (second : Emits g R) (joins : ∀ δ ε, P δ → R ε → Q (δ ++ ε)) :
    Emits (fun b => g (f b)) Q := by
  intro b open_
  obtain ⟨middle, ε, more, right⟩ := second (f b) open_
  obtain ⟨start, δ, added, left⟩ := first b middle
  exact ⟨start, δ ++ ε, by rw [more, added, List.append_assoc], joins δ ε left right⟩

theorem choose {c : Prop} [Decidable c] (yes : c → Emits f Q) (no : ¬ c → Emits g Q) :
    Emits (fun b => if c then f b else g b) Q := by
  split_ifs with holds
  · exact yes holds
  · exact no holds

/-- The check that stops an overflowed batch. -/
theorem guarded (emits : Emits f Q) : Emits (fun b => if b.overflowed then b else f b) Q := by
  intro b open_
  dsimp only at open_ ⊢
  split_ifs at open_ ⊢ with beyond
  · rw [beyond] at open_
    cases open_
  · exact emits b open_

end Emits

/-! ### At a value -/

variable {h : Heap} {path : Path}

/-- The operations carry values of the heap, and none replaces the root. -/
def Clean (h : Heap) (δ : List (Op (Json Addr))) : Prop :=
  ∀ op ∈ δ, op.isReplace = false ∧ ∀ v ∈ op.payload, Held h v

theorem Clean.nil : Clean h [] := fun _ member => (by cases member)

theorem Clean.single {op : Op (Json Addr)} (base : op.isReplace = false)
    (held : ∀ v ∈ op.payload, Held h v) : Clean h [op] := fun o member => by
  rw [List.mem_singleton.mp member]
  exact ⟨base, held⟩

variable {y : Json Addr} {δ : List (Op (Json Addr))}

theorem Clean.append {ε : List (Op (Json Addr))} (first : Clean h δ) (second : Clean h ε) :
    Clean h (δ ++ ε) := fun op member => by
  rcases List.mem_append.mp member with front | back
  · exact first op front
  · exact second op back

/-- **At the path, the operations turn `x` into a value deeply equal to `y`.** -/
def Reaches (h : Heap) (path : Path) (x y : Json Addr) (δ : List (Op (Json Addr))) : Prop :=
  Clean h δ ∧ ∃ x', DeepEq x' y ∧ Transforms path δ x x'

theorem Reaches.nil {x y : Json Addr} (equal : DeepEq x y) : Reaches h path x y [] :=
  ⟨.nil, x, equal, .nil path x⟩

theorem Reaches.of_s (safe : SafePath path) (full : path ≠ []) (held : Held h y) (x : Json Addr) :
    Reaches h path x y [.s path y] :=
  ⟨.single rfl fun v member => by rwa [List.mem_singleton.mp member], y, .refl y,
    transforms_s safe full x y⟩

/-- What the diff of two values emits: a delta, or at the root a replacement. -/
def Diffs (h : Heap) (path : Path) (x y : Json Addr) (δ : List (Op (Json Addr))) : Prop :=
  Reaches h path x y δ ∨ path = [] ∧ δ = [.r y]

theorem Diffs.reaches {x : Json Addr} (diffs : Diffs h path x y δ) (full : path ≠ []) :
    Reaches h path x y δ :=
  diffs.resolve_right fun root => full root.1

theorem emits_emitSet (safe : SafePath path) (held : Held h y) (x : Json Addr) :
    Emits (emitSet path y) (Diffs h path x y) := by
  by_cases root : path = []
  · have same : emitSet path y = (emitOperation · (.r y)) := by
      funext b
      rw [emitSet, if_pos root]
    rw [same]
    exact .operation (.inr ⟨root, rfl⟩)
  · have same : emitSet path y = (emitOperation · (.s path y)) := by
      funext b
      rw [emitSet, if_neg root]
    rw [same]
    exact .operation (.inl (.of_s safe root held x))

/-! ### In an array -/

/-- **In the array at the path, the operations turn `olds` at `start` into `news`**, up to deep
equality. -/
def Rewrites (h : Heap) (path : Path) (start : Nat) (olds news : List (Json Addr))
    (δ : List (Op (Json Addr))) : Prop :=
  Clean h δ ∧ ∃ items, DeepEqList items news ∧ ∀ id front back, front.length = start →
    Transforms path δ (.array id (front ++ olds ++ back)) (.array id (front ++ items ++ back))

namespace Rewrites

variable {start : Nat} {olds news : List (Json Addr)}

theorem nil (equal : DeepEqList olds news) : Rewrites h path start olds news [] :=
  ⟨.nil, olds, equal, fun _ _ _ _ => .nil path _⟩

theorem append {olds' news' : List (Json Addr)} {ε : List (Op (Json Addr))}
    (first : Rewrites h path start olds news δ)
    (second : Rewrites h path (start + news.length) olds' news' ε) :
    Rewrites h path start (olds ++ olds') (news ++ news') (δ ++ ε) := by
  obtain ⟨clean, items, equal, effect⟩ := first
  obtain ⟨clean', items', equal', effect'⟩ := second
  refine ⟨clean.append clean', items ++ items', equal.append equal', fun id front back length => ?_⟩
  have here := effect id front (olds' ++ back) length
  have there := effect' id (front ++ items) back (by rw [List.length_append, length, equal.1])
  simp only [List.append_assoc] at here there ⊢
  exact here.trans there

/-- One splice over the items. -/
theorem of_p (safe : SafePath path) (held : ∀ v ∈ news, Held h v) :
    Rewrites h path start olds news [.p path start olds.length news] := by
  refine ⟨.single rfl held, news, .refl news, fun id front back length => ?_⟩
  have effect := transforms_p safe id start olds.length news (front ++ olds ++ back)
  rw [splice, ← length, List.append_assoc, List.take_left, ← List.append_assoc,
    List.drop_left' (by rw [List.length_append])] at effect
  rwa [← length]

/-- The delta of one item. -/
theorem of_item {x : Json Addr} (reaches : Reaches h (path ++ [.index start]) x y δ) :
    Rewrites h path start [x] [y] δ := by
  obtain ⟨clean, x', equal, effect⟩ := reaches
  refine ⟨clean, [x'], .cons equal .nil, fun id front back length => ?_⟩
  have child : (Json.array id (front ++ [x] ++ back)).child (.index start) = some x := by
    rw [show (Json.array id (front ++ [x] ++ back)) = build id (.array (front ++ [x] ++ back))
      from rfl, child_build, Node.own, ← length]
    simp
  have below := effect.child child
  have set : setChild (.index start) x' (.array id (front ++ [x] ++ back)) =
      .array id (front ++ [x'] ++ back) := by
    rw [show (Json.array id (front ++ [x] ++ back)) = build id (.array (front ++ [x] ++ back))
      from rfl, setChild, editWith_build, Node.write, if_pos (by simp [← length]), ← length]
    simp [build]
  rwa [set] at below

end Rewrites

/-! ### In an object -/

/-- **In an object at the path that has `old` under the key, the operations put a value deeply equal
to `value` there.** -/
def Puts (h : Heap) (path : Path) (key : Text) (old : Option (Json Addr)) (value : Json Addr)
    (δ : List (Op (Json Addr))) : Prop :=
  Clean h δ ∧ ∃ value', DeepEq value' value ∧ ∀ id fields, Assoc.get key fields = old →
    Transforms path δ (.object id fields) (.object id (Assoc.set key value' fields))

theorem Puts.of_reaches {key : Text} {x : Json Addr}
    (reaches : Reaches h (path ++ [.key key]) x y δ) : Puts h path key (some x) y δ := by
  obtain ⟨clean, x', equal, effect⟩ := reaches
  refine ⟨clean, x', equal, fun id fields found => ?_⟩
  have child : (Json.object id fields).child (.key key) = some x := found
  exact effect.child child

theorem Puts.of_s {key : Text} (safe : SafePath (path ++ [.key key])) (held : Held h y) :
    Puts h path key none y [.s (path ++ [.key key]) y] :=
  ⟨.single rfl fun v member => by rwa [List.mem_singleton.mp member], y, .refl y,
    fun id fields _ => transforms_set safe id fields y⟩

end TianGong.Chord

import Mathlib.Data.List.Basic
import Mathlib.Data.Nat.Notation

/-! Causal functions on sequences: the output at a position depends on the inputs up to it,
so that a sequence can be run in pieces that each see what came before. A layer with a cache of
keys and values is one: it answers for new tokens only, as if it had run over all of them. -/

set_option autoImplicit false

structure Causal (α β : Type) where
  run : List α → List β
  length_run : ∀ xs, (run xs).length = xs.length
  take_run : ∀ xs k, (run xs).take k = run (xs.take k)

namespace Causal

variable {α β γ : Type}

attribute [simp] length_run

def id (α : Type) : Causal α α := ⟨fun xs => xs, fun _ => rfl, fun _ _ => rfl⟩

def comp (g : Causal β γ) (f : Causal α β) : Causal α γ where
  run xs := g.run (f.run xs)
  length_run xs := by rw [g.length_run, f.length_run]
  take_run xs k := by rw [g.take_run, f.take_run]

/-- What was computed on a beginning stands when the sequence goes on. -/
theorem take_run_append (f : Causal α β) (xs ys : List α) {k : ℕ} (hk : k ≤ xs.length) :
    (f.run (xs ++ ys)).take k = (f.run xs).take k := by
  rw [f.take_run, f.take_run, List.take_append_of_le_length hk]

theorem run_append (f : Causal α β) (xs ys : List α) :
    f.run (xs ++ ys) = f.run xs ++ (f.run (xs ++ ys)).drop xs.length := by
  have h := f.take_run_append xs ys (Nat.le_refl xs.length)
  rw [List.take_of_length_le (Nat.le_of_eq (f.length_run xs))] at h
  rw [← h, List.take_append_drop]

end Causal

/-- A token at a position has a key and value, and gets its output from those up to its own. -/
structure CausalLayer (τ κ : Type) where
  keyValue : τ → ℕ → κ
  output : List κ → τ → ℕ → τ

namespace CausalLayer

variable {τ κ : Type} (layer : CausalLayer τ κ)

/-- The keys and values of tokens from position `start` on. -/
def keyValues (start : ℕ) (xs : List τ) : List κ :=
  xs.mapIdx fun i x => layer.keyValue x (start + i)

/-- The outputs of new tokens over the cached keys and values `past`. -/
def outputs (past : List κ) (xs : List τ) : List τ :=
  xs.mapIdx fun i x =>
    layer.output (past ++ (layer.keyValues past.length xs).take (i + 1)) x (past.length + i)

@[simp] theorem length_keyValues (start : ℕ) (xs : List τ) :
    (layer.keyValues start xs).length = xs.length := List.length_mapIdx

@[simp] theorem length_outputs (past : List κ) (xs : List τ) :
    (layer.outputs past xs).length = xs.length := List.length_mapIdx

theorem keyValues_append (start : ℕ) (xs ys : List τ) :
    layer.keyValues start (xs ++ ys) =
      layer.keyValues start xs ++ layer.keyValues (start + xs.length) ys := by
  rw [keyValues, List.mapIdx_append, keyValues, keyValues]
  congr 1
  refine List.ext_getElem? fun i => ?_
  rw [List.getElem?_mapIdx, List.getElem?_mapIdx]
  congr 1
  funext y
  rw [Nat.add_assoc, Nat.add_comm i]

theorem take_keyValues (start k : ℕ) (xs : List τ) :
    (layer.keyValues start xs).take k = layer.keyValues start (xs.take k) := by
  refine List.ext_getElem? fun i => ?_
  rw [keyValues, keyValues, List.getElem?_take, List.getElem?_mapIdx, List.getElem?_mapIdx,
    List.getElem?_take]
  split_ifs <;> rfl

/-- What comes first is not changed by what comes after it. -/
theorem outputs_append (past : List κ) (xs ys : List τ) :
    layer.outputs past (xs ++ ys) =
      layer.outputs past xs ++ layer.outputs (past ++ layer.keyValues past.length xs) ys := by
  rw [outputs, List.mapIdx_append]
  congr 1
  · refine List.ext_getElem? fun i => ?_
    rw [outputs, List.getElem?_mapIdx, List.getElem?_mapIdx]
    by_cases hi : i < xs.length
    · rw [keyValues_append, List.take_append_of_le_length (by rw [length_keyValues]; omega)]
    · rw [List.getElem?_eq_none (Nat.le_of_not_lt hi), Option.map_none, Option.map_none]
  · refine List.ext_getElem? fun i => ?_
    rw [outputs, List.getElem?_mapIdx, List.getElem?_mapIdx]
    congr 1
    funext y
    rw [keyValues_append, List.take_append, List.take_of_length_le (by rw [length_keyValues]; omega),
      length_keyValues, List.append_assoc, List.length_append, length_keyValues,
      show i + xs.length + 1 - xs.length = i + 1 by omega, Nat.add_assoc, Nat.add_comm i xs.length]

theorem take_outputs (past : List κ) (xs : List τ) (k : ℕ) :
    (layer.outputs past xs).take k = layer.outputs past (xs.take k) := by
  by_cases hk : k ≤ xs.length
  · conv_lhs => rw [← List.take_append_drop k xs, outputs_append]
    exact List.take_left' (by rw [length_outputs, List.length_take, Nat.min_eq_left hk])
  · rw [List.take_of_length_le (l := xs) (by omega),
      List.take_of_length_le (by rw [length_outputs]; omega)]

def causal : Causal τ τ where
  run := layer.outputs []
  length_run := layer.length_outputs []
  take_run := layer.take_outputs []

/-- Over the cache of `old`, the outputs are those of the whole sequence without its beginning. -/
theorem outputs_keyValues (old xs : List τ) :
    layer.outputs (layer.keyValues 0 old) xs =
      (layer.causal.run (old ++ xs)).drop old.length := by
  have happend := layer.outputs_append [] old xs
  rw [List.nil_append] at happend
  change _ = (layer.outputs [] (old ++ xs)).drop old.length
  rw [happend, List.drop_left' (layer.length_outputs [] old)]
  rfl

end CausalLayer

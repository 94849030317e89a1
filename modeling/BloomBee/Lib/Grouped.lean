import Mathlib.Data.List.Basic
import Mathlib.Data.Nat.Notation

/-! Lists cut into groups of one size, and lists put together from such groups. -/

set_option autoImplicit false

namespace Grouped

variable {α β : Type*} {size : ℕ}

/-- The first `n` groups of a list. -/
def groups (size n : ℕ) (xs : List α) : List (List α) :=
  (List.range n).map fun g => (xs.drop (g * size)).take size

theorem length_groups (n : ℕ) (xs : List α) : (groups size n xs).length = n := by
  simp [groups]

theorem getElem?_groups {n g : ℕ} (hg : g < n) (xs : List α) :
    (groups size n xs)[g]? = some ((xs.drop (g * size)).take size) := by
  simp [groups, hg]

/-- Every group of a long enough list is a full one. -/
theorem length_of_mem_groups {n : ℕ} {xs g : List α} (hlen : n * size ≤ xs.length)
    (hg : g ∈ groups size n xs) : g.length = size := by
  simp only [groups, List.mem_map, List.mem_range] at hg
  obtain ⟨k, hk, rfl⟩ := hg
  have := Nat.mul_le_mul_right size (Nat.succ_le_of_lt hk)
  rw [Nat.succ_mul] at this
  rw [List.length_take, List.length_drop]
  omega

/-- An entry of the whole is an entry of its group. -/
theorem getElem?_flatten {xss : List (List α)} (hs : 0 < size)
    (hlen : ∀ xs ∈ xss, xs.length = size) (i : ℕ) :
    xss.flatten[i]? = xss[i / size]?.bind fun xs => xs[i % size]? := by
  induction xss generalizing i with
  | nil => simp
  | cons xs xss ih =>
    have hxs : xs.length = size := hlen xs List.mem_cons_self
    rw [List.flatten_cons]
    by_cases hi : i < size
    · rw [List.getElem?_append_left (by omega), Nat.div_eq_of_lt hi, Nat.mod_eq_of_lt hi]
      rfl
    · have hdiv : i / size = (i - size) / size + 1 := by
        rw [← Nat.add_div_right _ hs, Nat.sub_add_cancel (Nat.le_of_not_lt hi)]
      rw [List.getElem?_append_right (by omega), hxs,
        ih (fun ys hys => hlen ys (List.mem_cons_of_mem _ hys)), hdiv, List.getElem?_cons_succ,
        Nat.mod_eq_sub_mod (Nat.le_of_not_lt hi)]

theorem length_flatten {xss : List (List α)} (hlen : ∀ xs ∈ xss, xs.length = size) :
    xss.flatten.length = xss.length * size := by
  induction xss with
  | nil => simp
  | cons xs xss ih =>
    rw [List.flatten_cons, List.length_append, hlen xs List.mem_cons_self,
      ih fun ys hys => hlen ys (List.mem_cons_of_mem _ hys), List.length_cons, Nat.succ_mul,
      Nat.add_comm]

theorem getElem?_flatMap {f : α → List β} (hs : 0 < size) (xs : List α)
    (hlen : ∀ x ∈ xs, (f x).length = size) (i : ℕ) :
    (xs.flatMap f)[i]? = xs[i / size]?.bind fun x => (f x)[i % size]? := by
  have hmap : ∀ ys ∈ xs.map f, ys.length = size := by
    intro ys hys
    obtain ⟨x, hx, rfl⟩ := List.mem_map.mp hys
    exact hlen x hx
  rw [List.flatMap_def, getElem?_flatten hs hmap, List.getElem?_map, Option.bind_map]
  rfl

theorem length_flatMap {f : α → List β} (xs : List α) (hlen : ∀ x ∈ xs, (f x).length = size) :
    (xs.flatMap f).length = xs.length * size := by
  rw [List.flatMap_def, length_flatten, List.length_map]
  intro ys hys
  obtain ⟨x, hx, rfl⟩ := List.mem_map.mp hys
  exact hlen x hx

theorem getElem?_group {n i : ℕ} (hs : 0 < size) {xs : List α} (hi : i < n * size) :
    ((groups size n xs)[i / size]?.bind fun g => g[i % size]?) = xs[i]? := by
  have hg : i / size < n := (Nat.div_lt_iff_lt_mul hs).mpr hi
  rw [getElem?_groups hg, Option.bind_some, List.getElem?_take_of_lt (Nat.mod_lt i hs),
    List.getElem?_drop, Nat.mul_comm, Nat.div_add_mod]

end Grouped

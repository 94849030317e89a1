import BloomBee.Spec.SpecCache
import Mathlib.Data.List.Chain
import Mathlib.Data.List.MinMax
import Mathlib.Order.Nat
import Mathlib.Tactic.Common

/-! Node paths and masks. Along a path the positions increase and every node is the parent of
the next one, so the mask row of a node selects the tokens of the path to it
(`select_treeMaskRow`). -/

set_option autoImplicit false

namespace BloomBee.Speculative

variable {α : Type}

/-! ### Position ids -/

theorem lt_cacheLenOf {ids : List (List ℤ)} {r : List ℤ} {s : ℕ} (hr : r ∈ ids)
    (hs : (s : ℤ) ∈ r) : s < cacheLenOf ids := by
  have hmem : s + 1 ∈ ids.flatten.map fun p => (p + 1).toNat := by
    refine List.mem_map.mpr ⟨s, List.mem_flatten.mpr ⟨r, hr, hs⟩, ?_⟩
    omega
  exact List.le_max_of_le' 0 hmem (Nat.le_refl _)

theorem cacheLenOf_extendIds {ids : List (List ℤ)} (hne : ids ≠ []) {treeLen : ℕ}
    (hpos : 0 < treeLen) :
    cacheLenOf (extendIds ids (cacheLenOf ids) treeLen) = cacheLenOf ids + treeLen := by
  apply Nat.le_antisymm
  · apply List.max_le_of_forall_le
    intro x hx
    obtain ⟨p, hp, rfl⟩ := List.mem_map.mp hx
    obtain ⟨r', hr', hp⟩ := List.mem_flatten.mp hp
    obtain ⟨r, hr, rfl⟩ := List.mem_map.mp hr'
    rcases List.mem_append.mp hp with hp | hp
    · -- an id of the last round
      have : (p + 1).toNat ≤ cacheLenOf ids :=
        List.le_max_of_le' 0 (List.mem_map_of_mem (List.mem_flatten.mpr ⟨r, hr, hp⟩))
          (Nat.le_refl _)
      omega
    · obtain ⟨j, hj, rfl⟩ := List.mem_map.mp hp
      rw [List.mem_range] at hj
      omega
  · -- the last slot of the tree
    obtain ⟨r, hr⟩ := List.exists_mem_of_ne_nil ids hne
    have := @lt_cacheLenOf (extendIds ids (cacheLenOf ids) treeLen) _
      (cacheLenOf ids + (treeLen - 1)) (List.mem_map_of_mem hr) (List.mem_append_right _
        (List.mem_map.mpr ⟨treeLen - 1, List.mem_range.mpr (by omega), rfl⟩))
    omega

/-! ### Linearized trees -/

theorem tokens_length (f : Forest α) : f.tokens.length = f.size := by
  induction f with
  | nil => rfl
  | cons token children siblings ihc ihs =>
    rw [Forest.tokens, Forest.size, List.length_cons, List.length_append, ihc, ihs]
    omega

theorem parentIndices_length (f : Forest α) (parent : ℤ) (start : ℕ) :
    (f.parentIndices parent start).length = f.size := by
  induction f generalizing parent start with
  | nil => rfl
  | cons token children siblings ihc ihs =>
    rw [Forest.parentIndices, Forest.size, List.length_cons, List.length_append, ihc, ihs]
    omega

/-- A path downwards from a root of the forest, not always to a leaf. -/
def IsPathFrom : ℕ → Forest α → List (Node α) → Prop
  | _, _, [] => True
  | _, .nil, _ :: _ => False
  | start, .cons token children siblings, n :: path =>
    (n = ⟨token, start⟩ ∧ IsPathFrom (start + 1) children path) ∨
      IsPathFrom (start + 1 + children.size) siblings (n :: path)

theorem isPathFrom_nil (start : ℕ) (f : Forest α) : IsPathFrom start f [] := by
  cases f <;> trivial

theorem leafPathsFrom_isPath (f : Forest α) : ∀ (start : ℕ), ∀ p ∈ f.leafPathsFrom start,
    IsPathFrom start f p := by
  induction f with
  | nil =>
    intro start p hp
    cases hp
  | cons token children siblings ihc ihs =>
    intro start p hp
    have hlater : p ∈ siblings.leafPathsFrom (start + 1 + children.size) →
        IsPathFrom start (.cons token children siblings) p := by
      intro hp
      have := ihs _ p hp
      cases p with
      | nil => trivial
      | cons n p => exact .inr this
    cases children with
    | nil =>
      rcases List.mem_cons.mp hp with rfl | hp
      · exact .inl ⟨rfl, trivial⟩
      · exact hlater hp
    | cons t c s =>
      rcases List.mem_append.mp hp with hp | hp
      · obtain ⟨q, hq, rfl⟩ := List.mem_map.mp hp
        exact .inl ⟨rfl, ihc _ q hq⟩
      · exact hlater hp

theorem leafNodePaths_isPath (f : Forest α) : ∀ p ∈ f.leafNodePaths, IsPathFrom 0 f p := by
  intro p hp
  cases f with
  | nil =>
    rw [List.mem_singleton.mp hp]
    trivial
  | cons token children siblings => exact leafPathsFrom_isPath _ 0 p hp

theorem IsPathFrom.shorten {f : Forest α} : ∀ {start : ℕ} {p q : List (Node α)},
    IsPathFrom start f p → q <+: p → IsPathFrom start f q := by
  induction f with
  | nil =>
    intro start p q hp hq
    cases p with
    | nil =>
      rw [List.prefix_nil.mp hq]
      trivial
    | cons n p => exact hp.elim
  | cons token children siblings ihc ihs =>
    intro start p q hp hq
    cases q with
    | nil => trivial
    | cons n q =>
      cases p with
      | nil => exact absurd (List.prefix_nil.mp hq) (by simp)
      | cons m p =>
        obtain ⟨rfl, hq'⟩ := List.cons_prefix_cons.mp hq
        rcases hp with ⟨hm, hp⟩ | hp
        · exact .inl ⟨hm, ihc hp hq'⟩
        · exact .inr (ihs hp hq)

/-- The positions of a path lie in the forest and increase. -/
theorem IsPathFrom.positions {f : Forest α} : ∀ {start : ℕ} {p : List (Node α)},
    IsPathFrom start f p →
      (p.map Node.position).Pairwise (· < ·) ∧
        ∀ n ∈ p, start ≤ n.position ∧ n.position < start + f.size := by
  induction f with
  | nil =>
    intro start p hp
    cases p with
    | nil => exact ⟨List.Pairwise.nil, fun n hn => nomatch hn⟩
    | cons n p => exact hp.elim
  | cons token children siblings ihc ihs =>
    intro start p hp
    rw [Forest.size]
    cases p with
    | nil => exact ⟨List.Pairwise.nil, fun n hn => nomatch hn⟩
    | cons n p =>
      rcases hp with ⟨rfl, hp⟩ | hp
      · obtain ⟨hsorted, hin⟩ := ihc hp
        refine ⟨?_, ?_⟩
        · rw [List.map_cons, List.pairwise_cons]
          refine ⟨fun i hi => ?_, hsorted⟩
          obtain ⟨m, hm, rfl⟩ := List.mem_map.mp hi
          have := (hin m hm).1
          simp only
          omega
        · intro m hm
          rcases List.mem_cons.mp hm with rfl | hm
          · simp only
            omega
          · have := hin m hm
            omega
      · obtain ⟨hsorted, hin⟩ := ihs hp
        refine ⟨hsorted, fun m hm => ?_⟩
        have := hin m hm
        omega

/-- The node at a position of a path has the token that the linearization has there. -/
theorem IsPathFrom.token {f : Forest α} : ∀ {start : ℕ} {p : List (Node α)},
    IsPathFrom start f p → ∀ n ∈ p, f.tokens[n.position - start]? = some n.token := by
  induction f with
  | nil =>
    intro start p hp n hn
    cases p with
    | nil => cases hn
    | cons m p => exact hp.elim
  | cons token children siblings ihc ihs =>
    intro start p hp n hn
    cases p with
    | nil => cases hn
    | cons m p =>
      rw [Forest.tokens]
      rcases hp with ⟨rfl, hp⟩ | hp
      · rcases List.mem_cons.mp hn with rfl | hn
        · simp
        · have hin := hp.positions.2 n hn
          have := ihc hp n hn
          have hlen := tokens_length children
          rw [show n.position - start = n.position - (start + 1) + 1 by omega,
            List.getElem?_cons_succ, List.getElem?_append_left (by omega), this]
      · have hin := hp.positions.2 n hn
        have := ihs hp n hn
        have hlen := tokens_length children
        rw [show n.position - start = n.position - (start + 1) + 1 by omega,
          List.getElem?_cons_succ, List.getElem?_append_right (by omega), hlen,
          show n.position - (start + 1) - children.size =
            n.position - (start + 1 + children.size) by omega, this]

/-- The parent indices along a path: the first node is under the root, and every other node is
under the one before it. -/
theorem IsPathFrom.parents {f : Forest α} : ∀ {start : ℕ} {parent : ℤ} {p : List (Node α)},
    IsPathFrom start f p →
      (∀ n, p.head? = some n → (f.parentIndices parent start)[n.position - start]? = some parent) ∧
      p.IsChain fun m n =>
        (f.parentIndices parent start)[n.position - start]? = some (Int.ofNat m.position) := by
  induction f with
  | nil =>
    intro start parent p hp
    cases p with
    | nil => exact ⟨fun n hn => (nomatch hn), List.IsChain.nil⟩
    | cons n p => exact hp.elim
  | cons token children siblings ihc ihs =>
    intro start parent p hp
    have hlen := parentIndices_length children start (start + 1)
    cases p with
    | nil => exact ⟨fun n hn => (nomatch hn), List.IsChain.nil⟩
    | cons n p =>
      rw [Forest.parentIndices]
      rcases hp with ⟨rfl, hp⟩ | hp
      · -- below this node
        obtain ⟨hhead, hchain⟩ := @ihc (start + 1) start p hp
        have hin := hp.positions.2
        have hlift : ∀ m ∈ p, ∀ i, (children.parentIndices start (start + 1))[m.position - (start + 1)]? =
            some i → (parent :: (children.parentIndices start (start + 1) ++
              siblings.parentIndices parent (start + 1 + children.size)))[m.position - start]? =
                some i := by
          intro m hm i hi
          have := hin m hm
          rw [show m.position - start = m.position - (start + 1) + 1 by omega,
            List.getElem?_cons_succ, List.getElem?_append_left (by omega), hi]
        refine ⟨?_, ?_⟩
        · intro m hm
          cases hm
          simp
        · cases p with
          | nil => exact List.IsChain.singleton _
          | cons m p =>
            refine List.IsChain.cons_cons (hlift m List.mem_cons_self _ (hhead m rfl)) ?_
            refine List.IsChain.imp_of_mem_imp (fun a b ha hb hab => ?_) hchain
            exact hlift b hb _ hab
      · obtain ⟨hhead, hchain⟩ := @ihs (start + 1 + children.size) parent _ hp
        have hin := hp.positions.2
        have hlift : ∀ m ∈ n :: p, ∀ i,
            (siblings.parentIndices parent (start + 1 + children.size))[m.position - (start + 1 + children.size)]? =
              some i → (parent :: (children.parentIndices start (start + 1) ++
                siblings.parentIndices parent (start + 1 + children.size)))[m.position - start]? =
                  some i := by
          intro m hm i hi
          have := hin m hm
          rw [show m.position - start = m.position - (start + 1) + 1 by omega,
            List.getElem?_cons_succ, List.getElem?_append_right (by omega), hlen,
            show m.position - (start + 1) - children.size =
              m.position - (start + 1 + children.size) by omega, hi]
        refine ⟨fun m hm => hlift m ?_ _ (hhead m hm), ?_⟩
        · cases hm
          exact List.mem_cons_self
        · exact List.IsChain.imp_of_mem_imp (fun a b _ hb hab => hlift b hb _ hab) hchain

theorem IsPathFrom.length_le {f : Forest α} : ∀ {start : ℕ} {p : List (Node α)},
    IsPathFrom start f p → p.length ≤ f.size := by
  induction f with
  | nil =>
    intro start p hp
    cases p with
    | nil => exact Nat.le_refl _
    | cons n p => exact hp.elim
  | cons token children siblings ihc ihs =>
    intro start p hp
    rw [Forest.size]
    cases p with
    | nil => exact Nat.zero_le _
    | cons n p =>
      rcases hp with ⟨rfl, hp⟩ | hp
      · have := ihc hp
        rw [List.length_cons]
        omega
      · have := ihs hp
        omega

/-- The walk over the parents of a node goes back along the path to it. -/
theorem ancestors_of_path {parents : List ℤ} (q : List (Node α)) :
    ∀ (n : Node α) (fuel : ℕ),
      (∀ m, (q ++ [n]).head? = some m → parents[m.position]? = some (-1)) →
      ((q ++ [n]).IsChain fun m n => parents[n.position]? = some (Int.ofNat m.position)) →
      q.length ≤ fuel → ancestors parents fuel n.position = (q.map Node.position).reverse := by
  induction q using List.reverseRecOn with
  | nil =>
    intro n fuel hhead _ _
    cases fuel with
    | zero => rfl
    | succ fuel =>
      rw [ancestors, hhead n rfl]
      rfl
  | append_singleton q m ih =>
    intro n fuel hhead hchain hfuel
    rw [List.length_append, List.length_singleton] at hfuel
    obtain ⟨fuel, rfl⟩ : ∃ k, fuel = k + 1 := ⟨fuel - 1, by omega⟩
    rw [List.isChain_append] at hchain
    obtain ⟨hchain, -, hlast⟩ := hchain
    have hparent : parents[n.position]? = some (Int.ofNat m.position) :=
      hlast m (by simp) n (by simp)
    rw [ancestors, hparent]
    simp only
    rw [ih m fuel ?_ hchain (by omega)]
    · simp
    · intro k hk
      apply hhead k
      rw [List.head?_append, hk]
      rfl

/-- The mask row of a node admits the tokens of the path to it. -/
theorem select_treeMaskRow {f : Forest α} {q : List (Node α)} {n : Node α}
    (h : IsPathFrom 0 f (q ++ [n])) :
    select (treeMaskRow (f.parentIndices (-1) 0) n.position) f.tokens =
      (q ++ [n]).map Node.token := by
  obtain ⟨hsorted, hin⟩ := h.positions
  obtain ⟨hhead, hchain⟩ := @IsPathFrom.parents _ f 0 (-1) _ h
  have hlen := parentIndices_length f (-1) 0
  have hwalk : ancestors (f.parentIndices (-1) 0) (f.parentIndices (-1) 0).length n.position =
      (q.map Node.position).reverse := by
    refine ancestors_of_path q n _ hhead hchain ?_
    have := h.length_le
    rw [List.length_append, List.length_singleton] at this
    omega
  rw [select_of_sorted 0 ?_ hsorted ?_ ?_]
  · rw [List.filterMap_map, ← List.filterMap_eq_map]
    apply List.filterMap_congr
    intro m hm
    exact h.token m hm
  · rw [treeMaskRow, List.length_map, List.length_range, hlen, tokens_length]
  · intro i hi
    obtain ⟨m, hm, rfl⟩ := List.mem_map.mp hi
    rw [tokens_length]
    exact hin m hm
  · intro j hj
    rw [tokens_length] at hj
    rw [treeMaskRow, List.getElem?_map, List.getElem?_range (by omega), Option.map_some, hwalk,
      Nat.zero_add]
    congr 2
    rw [List.mem_reverse, List.map_append, List.mem_append, List.map_singleton,
      List.mem_singleton, or_comm]

end BloomBee.Speculative

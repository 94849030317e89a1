import BloomBee.Proofs.SpeculativeSampling

/-! The token after a path. It should be drawn from the row of logits after the last accepted
token. On rejection it is what the residual of the rejected edge gives, but after a fully accepted
path it comes from the row of the last edge, which does not know the last token. -/

set_option autoImplicit false

namespace BloomBee.Speculative

variable {n : ℕ}

/-- Rejection sampling along a path, where `pos` is the row after the last accepted token. -/
def walkPath (target : ℕ → Fin n → ℚ) :
    ℕ → List (PathNode n) → List (Fin n) → ℕ → Law (List (Fin n) × ℕ)
  | pos, [], committed, acceptedLen =>
    (multinomial (target pos)).map fun bonus => (committed ++ [bonus], acceptedLen)
  | pos, node :: path, committed, acceptedLen =>
    (verifyEdge (target pos) (draftProbs node.token.2) node.token.1.token).bind fun result =>
      if result.accepted then
        walkPath target (node.position + 1) path (committed ++ [result.sampledToken])
          (acceptedLen + 1)
      else Law.pure (committed ++ [result.sampledToken], acceptedLen)

/-- The verified tokens and the token of the target model, from what a walk commits. -/
def committedRow (result : List (Fin n) × ℕ) : List (Fin n) × Option (Fin n) :=
  (result.1.take result.2, result.1[result.2]?.or result.1.getLast?)

def rowAfter : ℕ → List (PathNode n) → ℕ
  | pos, [] => pos
  | _, node :: path => rowAfter (node.position + 1) path

def edgeAccepted (e : PathEdge n) : ℚ :=
  if e.pDraft e.draftToken ≤ 0 then 1 else acceptProb e.pTarget e.pDraft e.draftToken

def pathTokens (path : List (PathNode n)) : List (Fin n) := path.map fun node => node.token.1.token

section Difference

variable {target : ℕ → Fin n → ℚ}

/-- An edge either goes on with its draft token, or ends with a token that does not depend on what
follows: two continuations differ by what they make of the accepted token. -/
theorem edge_sub_edge (htarget : ∀ i, IsDistribution (target i)) (pos : ℕ) (q : Fin n → ℚ)
    (d : Fin n) {g h : EdgeVerifyResult n → ℚ} (hrejected : ∀ i, g ⟨false, i⟩ = h ⟨false, i⟩) :
    (verifyEdge (target pos) q d).expect g - (verifyEdge (target pos) q d).expect h =
      edgeAccepted ⟨target pos, q, d⟩ * (g ⟨true, d⟩ - h ⟨true, d⟩) := by
  rw [edgeAccepted]
  simp only
  by_cases hq : 0 < q d
  · rw [if_neg (not_le.mpr hq), verifyEdge_expect (htarget pos) hq,
      verifyEdge_expect (htarget pos) hq]
    simp only [hrejected]
    ring
  · rw [if_pos (not_lt.mp hq), verifyEdge]
    simp only [if_pos (not_lt.mp hq), Law.expect_pure]
    ring

/-- The code and the walk differ only after a fully accepted path, by the row of the bonus. -/
theorem verifyLoop_sub_walk (htarget : ∀ i, IsDistribution (target i)) {last : Fin n → ℚ}
    (hlast : IsDistribution last) (f : List (Fin n) × ℕ → ℚ) (path : List (PathNode n)) :
    ∀ (pos : ℕ) (committed : List (Fin n)) (acceptedLen : ℕ),
      (verifyLoop last (pathEdges target pos path) committed acceptedLen).expect f -
          (walkPath target pos path committed acceptedLen).expect f =
        ((pathEdges target pos path).map edgeAccepted).prod *
          ∑ t, (last t - target (rowAfter pos path) t) *
            f (committed ++ pathTokens path ++ [t], acceptedLen + path.length) := by
  induction path with
  | nil =>
    intro pos committed acceptedLen
    rw [pathEdges, verifyLoop, walkPath, Law.expect_map, Law.expect_map, multinomial_expect hlast,
      multinomial_expect (htarget pos), ← Finset.sum_sub_distrib, List.map_nil, List.prod_nil,
      one_mul]
    refine Finset.sum_congr rfl fun t _ => ?_
    rw [pathTokens, List.map_nil, List.append_nil, rowAfter, List.length_nil, Nat.add_zero]
    ring
  | cons node path ih =>
    intro pos committed acceptedLen
    rw [pathEdges, verifyLoop, walkPath, Law.expect_bind, Law.expect_bind]
    refine (edge_sub_edge htarget pos (draftProbs node.token.2) node.token.1.token ?_).trans ?_
    · intro i
      rfl
    simp only [if_true]
    rw [ih, List.map_cons, List.prod_cons, rowAfter, mul_assoc]
    congr 2
    refine Finset.sum_congr rfl fun t _ => ?_
    rw [pathTokens, pathTokens, List.map_cons, List.append_assoc committed, List.length_cons,
      List.singleton_append, Nat.add_right_comm acceptedLen 1, Nat.add_assoc]

end Difference

theorem pathEdges_getLast {target : ℕ → Fin n → ℚ} (path : List (PathNode n)) :
    ∀ pos, path ≠ [] → ((pathEdges target pos path).getLast?.elim (fun _ => 0) PathEdge.pTarget) =
      target (path.dropLast.getLast?.elim pos fun parent => parent.position + 1) := by
  induction path with
  | nil => exact fun _ h => absurd rfl h
  | cons node path ih =>
    intro pos _
    cases path with
    | nil => rfl
    | cons next path =>
      have := ih (node.position + 1) (List.cons_ne_nil _ _)
      rw [pathEdges, pathEdges, List.getLast?_cons_cons, ← pathEdges, this, List.dropLast_cons_cons,
        List.getLast?_cons]
      cases (next :: path).dropLast.getLast? <;> rfl

theorem committedRow_full (tokens : List (Fin n)) (t : Fin n) :
    committedRow (tokens ++ [t], tokens.length) = (tokens, some t) := by
  rw [committedRow]
  simp

theorem accepted_eq_zero_iff {edges : List (PathEdge n)}
    (hedges : ∀ e ∈ edges, IsDistribution e.pTarget) :
    (edges.map edgeAccepted).prod = 0 ↔
      ∃ e ∈ edges, 0 < e.pDraft e.draftToken ∧ e.pTarget e.draftToken = 0 := by
  rw [List.prod_eq_zero_iff, List.mem_map]
  refine exists_congr fun e => and_congr_right fun he => ?_
  have hp := (hedges e he).nonneg e.draftToken
  rw [edgeAccepted]
  constructor
  · intro h
    split_ifs at h with hq
    · exact absurd h one_ne_zero
    · have hq := not_le.mp hq
      refine ⟨hq, ?_⟩
      rw [acceptProb] at h
      rcases min_choice (e.pTarget e.draftToken / e.pDraft e.draftToken) 1 with hmin | hmin
      · rw [hmin, div_eq_zero_iff] at h
        exact h.resolve_right hq.ne'
      · rw [hmin] at h
        exact absurd h one_ne_zero
  · intro h
    rw [if_neg (not_le.mpr h.1), acceptProb, h.2, zero_div]
    exact min_eq_left zero_le_one

/-- The token after the path has the law of the walk exactly when the path cannot be fully
accepted, or the row of its last edge is that after its last token. -/
theorem bonus_follows_path_iff {target : ℕ → Fin n → ℚ} (htarget : ∀ i, IsDistribution (target i))
    (seqLen realFallbackPos : ℕ) (tree : Forest (Draft n)) {best : ℚ × List (PathNode n)}
    (hbest : bestPath seqLen tree.withSiblings.leafNodePaths = some best) :
    (∀ f, (extractSamplingRow target seqLen realFallbackPos tree).expect f =
        ((walkPath target 0 best.2 [] 0).map committedRow).expect f) ↔
      (∃ e ∈ pathEdges target 0 best.2, 0 < e.pDraft e.draftToken ∧
          e.pTarget e.draftToken = 0) ∨
        target (lastPos best.2) = target (rowAfter 0 best.2) := by
  have hne : best.2 ≠ [] := (pathProbability_some (bestPath_spec hbest).2).1
  have hedges := pathEdges_target htarget best.2 0
  have hrow : ∀ f, (extractSamplingRow target seqLen realFallbackPos tree).expect f =
      (verifyLoop (target (lastPos best.2)) (pathEdges target 0 best.2) [] 0).expect
        fun result => f (committedRow result) := by
    intro f
    simp only [extractSamplingRow, hbest, Law.expect_map]
    rw [verifyPathEdges, pathEdges_getLast best.2 0 hne, lastPos]
    rfl
  have hdiff : ∀ f : List (Fin n) × Option (Fin n) → ℚ, _ := fun f =>
    verifyLoop_sub_walk htarget (htarget (lastPos best.2)) (fun result => f (committedRow result))
      best.2 0 [] 0
  have hfull : ∀ t, committedRow ([] ++ pathTokens best.2 ++ [t], 0 + best.2.length) =
      (pathTokens best.2, some t) := by
    intro t
    have := committedRow_full (pathTokens best.2) t
    rwa [pathTokens, List.length_map, ← Nat.zero_add best.2.length] at this
  rw [← accepted_eq_zero_iff hedges]
  constructor
  · intro h
    refine or_iff_not_imp_left.mpr fun hzero => funext fun t => ?_
    -- the event that the path is committed and followed by `t`
    have hevent : ∀ f : List (Fin n) × Option (Fin n) → ℚ,
        ((pathEdges target 0 best.2).map edgeAccepted).prod *
          ∑ t, (target (lastPos best.2) t - target (rowAfter 0 best.2) t) *
            f (committedRow ([] ++ pathTokens best.2 ++ [t], 0 + best.2.length)) = 0 := by
      intro f
      have := h f
      rw [hrow, Law.expect_map] at this
      rw [← hdiff, this, sub_self]
    have hsum := (mul_eq_zero.mp
      (hevent fun row => if row = (pathTokens best.2, some t) then 1 else 0)).resolve_left hzero
    simp only [hfull, Prod.mk.injEq, Option.some.injEq, true_and, mul_ite, mul_one, mul_zero,
      Finset.sum_ite_eq', Finset.mem_univ, if_true] at hsum
    exact sub_eq_zero.mp hsum
  · intro h f
    rw [hrow, Law.expect_map, ← sub_eq_zero, hdiff]
    rcases h with h | h
    · rw [h, zero_mul]
    · simp only [h, sub_self, zero_mul, Finset.sum_const_zero, mul_zero]

/-- One drafted token, which the target model takes with certainty, and after which it is certain
of another one. -/
def certainTree : Forest (Draft 2) := .cons ⟨⟨0, Nat.two_pos⟩, 1⟩ .nil .nil

def certainRows : ℕ → Fin 2 → ℚ := fun i => if i = 0 then ![1, 0] else ![0, 1]

theorem certainRows_isDistribution (i : ℕ) : IsDistribution (certainRows i) := by
  rw [certainRows]
  split_ifs
  · exact ⟨by decide +kernel, by decide +kernel⟩
  · exact ⟨by decide +kernel, by decide +kernel⟩

/-- A draft that the target model refuses: nothing is accepted, and the law is right. -/
theorem bonus_follows_path_refused :
    (extractSamplingRow certainRows 2 1 (.cons ⟨1, 1⟩ .nil .nil)).prob ([], some 0) =
      ((walkPath certainRows 0 [⟨(⟨1, 1⟩, [⟨1, 1⟩]), 0⟩] [] 0).map committedRow).prob
        ([], some 0) := by
  have hbest : bestPath 2 (Forest.cons (⟨1, 1⟩ : Draft 2) .nil .nil).withSiblings.leafNodePaths =
      some (1, [⟨(⟨1, 1⟩, [⟨1, 1⟩]), 0⟩]) := by decide +kernel
  exact (bonus_follows_path_iff certainRows_isDistribution 2 1 _ hbest).mpr
    (.inl ⟨_, List.mem_singleton_self _, by decide +kernel, by decide +kernel⟩) _

/-- The bonus repeats the accepted token instead of following it. -/
theorem bonus_ignores_last_token :
    ¬ ∀ (target : ℕ → Fin 2 → ℚ) (seqLen realFallbackPos : ℕ) (tree : Forest (Draft 2))
        (best : ℚ × List (PathNode 2)), (∀ i, IsDistribution (target i)) →
      bestPath seqLen tree.withSiblings.leafNodePaths = some best →
        ∀ f, (extractSamplingRow target seqLen realFallbackPos tree).expect f =
          ((walkPath target 0 best.2 [] 0).map committedRow).expect f := by
  intro h
  have hbest : bestPath 2 certainTree.withSiblings.leafNodePaths =
      some (1, [⟨(⟨0, 1⟩, [⟨0, 1⟩]), 0⟩]) := by decide +kernel
  have := h certainRows 2 1 certainTree _ certainRows_isDistribution hbest
    fun row => if row = ([0], some 0) then 1 else 0
  exact absurd this (by decide +kernel)

end BloomBee.Speculative

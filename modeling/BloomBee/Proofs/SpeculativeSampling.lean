import BloomBee.Proofs.SpecDecodingVerify

/-! The first token of a generation round with sampling. The draft token of the first edge is
chosen by a ranking and not drawn, so its law is that of the edge for this one token
(`generationRow_expect`). That is the target distribution only in special cases (`ExactAt`). -/

set_option autoImplicit false

namespace BloomBee.Speculative

variable {n : ℕ}

/-! ### The chosen path -/

theorem annotate_head {α : Type} (level : List α) (f : Forest α) :
    ∀ (start : ℕ), ∀ path ∈ (f.annotate level).leafPathsFrom start, ∀ node,
      path.head? = some node → node.token.2 = level ∧ node.token.1 ∈ f.roots := by
  induction f with
  | nil =>
    intro start path hpath
    cases hpath
  | cons token children siblings _ ihs =>
    intro start path hpath node hnode
    have hlater : ∀ start', path ∈ (siblings.annotate level).leafPathsFrom start' →
        node.token.2 = level ∧ node.token.1 ∈ (Forest.cons token children siblings).roots := by
      intro start' hpath
      obtain ⟨hlevel, hmem⟩ := ihs start' path hpath node hnode
      exact ⟨hlevel, List.mem_cons_of_mem _ hmem⟩
    cases children with
    | nil =>
      rcases List.mem_cons.mp hpath with rfl | hpath
      · cases hnode
        exact ⟨rfl, List.mem_cons_self⟩
      · exact hlater _ hpath
    | cons t c s =>
      rcases List.mem_append.mp hpath with hpath | hpath
      · obtain ⟨rest, -, rfl⟩ := List.mem_map.mp hpath
        cases hnode
        exact ⟨rfl, List.mem_cons_self⟩
      · exact hlater _ hpath

/-- The first node of a path is a child of the root, beside all children of the root. -/
theorem withSiblings_head {α : Type} {f : Forest α} {path : List (Node (α × List α))}
    {node : Node (α × List α)} (hpath : path ∈ f.withSiblings.leafNodePaths)
    (hnode : path.head? = some node) : node.token.2 = f.roots ∧ node.token.1 ∈ f.roots := by
  cases f with
  | nil =>
    rw [List.mem_singleton.mp hpath] at hnode
    cases hnode
  | cons token children siblings => exact annotate_head _ _ 0 path hpath node hnode

theorem bestPath_spec {seqLen : ℕ} {paths : List (List (PathNode n))}
    {best : ℚ × List (PathNode n)} (h : bestPath seqLen paths = some best) :
    best.2 ∈ paths ∧ pathProbability seqLen best.2 = some best.1 := by
  have hfold : ∀ (l : List (List (PathNode n))) (start : Option (ℚ × List (PathNode n))),
      l ⊆ paths →
      (∀ b, start = some b → b.2 ∈ paths ∧ pathProbability seqLen b.2 = some b.1) →
      ∀ b, l.foldl (betterPath seqLen) start = some b →
        b.2 ∈ paths ∧ pathProbability seqLen b.2 = some b.1 := by
    intro l
    induction l with
    | nil => exact fun start _ hstart => hstart
    | cons path l ih =>
      intro start hsub hstart
      rw [List.foldl_cons]
      refine ih _ (fun q hq => hsub (List.mem_cons_of_mem _ hq)) ?_
      intro b hb
      unfold betterPath at hb
      split at hb
      · exact hstart b hb
      · rename_i hprob
        cases hb
        exact ⟨hsub List.mem_cons_self, hprob⟩
      · rename_i hprob
        split_ifs at hb
        · cases hb
          exact ⟨hsub List.mem_cons_self, hprob⟩
        · exact hstart b hb
  exact hfold paths none (List.Subset.refl _) (fun b hb => by cases hb) best h

theorem pathProbability_some {seqLen : ℕ} {path : List (PathNode n)} {x : ℚ}
    (h : pathProbability seqLen path = some x) :
    path ≠ [] ∧ ∀ node ∈ path, 0 < node.token.1.probability := by
  unfold pathProbability at h
  split_ifs at h with hnil hprob hpos
  refine ⟨hnil, fun node hnode => ?_⟩
  by_contra hle
  exact hprob ⟨node, hnode, not_lt.mp hle⟩

theorem le_foldl_addSibling (siblings : List (Draft n)) : ∀ (draft : Fin n → ℚ) (t : Fin n),
    draft t ≤ siblings.foldl addSibling draft t := by
  induction siblings with
  | nil => exact fun _ _ => le_rfl
  | cons sib siblings ih =>
    intro draft t
    refine le_trans ?_ (ih _ t)
    rw [addSibling, Function.update_apply]
    split_ifs with ht
    · rw [ht]
      exact le_max_right _ _
    · exact le_rfl

theorem draftProbs_nonneg (siblings : List (Draft n)) (t : Fin n) : 0 ≤ draftProbs siblings t :=
  le_foldl_addSibling siblings (fun _ => 0) t

theorem probability_le_draftProbs {siblings : List (Draft n)} {d : Draft n} (h : d ∈ siblings) :
    d.probability ≤ draftProbs siblings d.token := by
  have hfold : ∀ (l : List (Draft n)) (draft : Fin n → ℚ), d ∈ l →
      d.probability ≤ l.foldl addSibling draft d.token := by
    intro l
    induction l with
    | nil =>
      intro draft hd
      cases hd
    | cons sib l ih =>
      intro draft hd
      rcases List.mem_cons.mp hd with rfl | hd
      · refine le_trans ?_ (le_foldl_addSibling l _ d.token)
        rw [addSibling, Function.update_self]
        exact le_max_left _ _
      · exact ih _ hd
  exact hfold siblings _ h

/-! ### The law of the first token -/

def firstToken (row : List (Fin n) × Option (Fin n)) : Option (Fin n) :=
  (row.1 ++ row.2.toList).head?

theorem firstToken_result {l : List (Fin n)} (k : ℕ) :
    firstToken (l.take k, l[k]?.or l.getLast?) = l.head? := by
  cases l with
  | nil => simp [firstToken]
  | cons a l =>
    cases k with
    | zero => simp [firstToken]
    | succ k => simp [firstToken]

theorem multinomial_expect_const {p : Fin n → ℚ} (hp : IsDistribution p) (x : ℚ) :
    ((multinomial p).expect fun _ => x) = x := by
  rw [multinomial_expect hp, ← Finset.sum_mul, hp.sum, one_mul]

theorem verifyEdge_expect_const {p : Fin n → ℚ} (hp : IsDistribution p) (q : Fin n → ℚ)
    (d : Fin n) (x : ℚ) :
    ((verifyEdge p q d).expect fun _ => x) = x := by
  by_cases hq : 0 < q d
  · rw [verifyEdge_expect hp hq, ← Finset.sum_mul,
      (residualDistribution_isDistribution hp q).sum]
    ring
  · rw [verifyEdge]
    simp only [if_pos (not_lt.mp hq), Law.expect_pure]

/-- Once a token is committed, the rest of the path does not change the first one. -/
theorem verifyLoop_head {last : Fin n → ℚ} (hlast : IsDistribution last) (f : Option (Fin n) → ℚ)
    (c : Fin n) (edges : List (PathEdge n)) (hedges : ∀ e ∈ edges, IsDistribution e.pTarget) :
    ∀ (committed : List (Fin n)) (acceptedLen : ℕ),
      ((verifyLoop last edges (c :: committed) acceptedLen).expect fun r => f r.1.head?) =
        f (some c) := by
  induction edges with
  | nil =>
    intro committed acceptedLen
    rw [verifyLoop, Law.expect_map]
    exact multinomial_expect_const hlast (f (some c))
  | cons e edges ih =>
    intro committed acceptedLen
    rw [verifyLoop, Law.expect_bind]
    refine Eq.trans ?_ (verifyEdge_expect_const (hedges e List.mem_cons_self) e.pDraft e.draftToken
      (f (some c)))
    congr 1
    funext result
    split_ifs
    · exact ih (fun e he => hedges e (List.mem_cons_of_mem _ he)) _ _
    · rw [Law.expect_pure]
      rfl

/-- The first token of a path is what its first edge emits. -/
theorem verifyPathEdges_head {e : PathEdge n} {edges : List (PathEdge n)}
    (hedges : ∀ e' ∈ e :: edges, IsDistribution e'.pTarget) (f : Option (Fin n) → ℚ) :
    ((verifyPathEdges (e :: edges)).expect fun r => f r.1.head?) =
      (verifyEdge e.pTarget e.pDraft e.draftToken).expect fun r => f (some r.sampledToken) := by
  have hlast : IsDistribution ((e :: edges).getLast?.elim (fun _ => 0) PathEdge.pTarget) := by
    rw [List.getLast?_eq_some_getLast (List.cons_ne_nil e edges)]
    exact hedges _ (List.getLast_mem _)
  rw [verifyPathEdges, verifyLoop, Law.expect_bind]
  congr 1
  funext result
  split_ifs
  · exact verifyLoop_head hlast f _ edges (fun e he => hedges e (List.mem_cons_of_mem _ he)) [] _
  · rw [Law.expect_pure]
    rfl

theorem pathEdges_target {target : ℕ → Fin n → ℚ} (htarget : ∀ i, IsDistribution (target i))
    (path : List (PathNode n)) :
    ∀ pos, ∀ e ∈ pathEdges target pos path, IsDistribution e.pTarget := by
  induction path with
  | nil =>
    intro pos e he
    cases he
  | cons node path ih =>
    intro pos e he
    rcases List.mem_cons.mp he with rfl | he
    · exact htarget pos
    · exact ih _ e he

section

variable {target : ℕ → Fin n → ℚ} {treeLen : ℕ} {tree : Forest (Draft n)}

/-- Without a path the first token is drawn from the row of the root. -/
theorem generationRow_none (htarget : IsDistribution (target 0))
    (hbest : bestPath (1 + treeLen) tree.withSiblings.leafNodePaths = none)
    (f : Option (Fin n) → ℚ) :
    ((generationRow target treeLen tree).expect fun row => f (firstToken row)) =
      ∑ t, target 0 t * f (some t) := by
  have hrow : fallbackRow (1 + treeLen) (1 + treeLen - treeLen) = 0 := by
    rw [fallbackRow, Nat.add_sub_cancel, if_neg (by omega)]
  simp only [generationRow, extractSamplingRow, hbest, hrow, Law.expect_map]
  rw [multinomial_expect htarget]
  rfl

/-- The chosen path begins with a child of the root that the drafter gives a probability. -/
theorem bestPath_head {best : ℚ × List (PathNode n)}
    (hbest : bestPath (1 + treeLen) tree.withSiblings.leafNodePaths = some best) :
    ∃ node rest, best.2 = node :: rest ∧ node.token.2 = tree.roots ∧
      0 < draftProbs tree.roots node.token.1.token := by
  obtain ⟨hmem, hprob⟩ := bestPath_spec hbest
  obtain ⟨hne, hpos⟩ := pathProbability_some hprob
  obtain ⟨node, rest, hpath⟩ := List.exists_cons_of_ne_nil hne
  obtain ⟨hlevel, hroot⟩ := withSiblings_head hmem (by rw [hpath]; rfl)
  have := hpos node (by rw [hpath]; exact List.mem_cons_self)
  exact ⟨node, rest, hpath, hlevel, lt_of_lt_of_le this (probability_le_draftProbs hroot)⟩

/-- With a path the first token is what the edge of its first node emits. -/
theorem generationRow_expect (htarget : ∀ i, IsDistribution (target i))
    {best : ℚ × List (PathNode n)} {node : PathNode n} {rest : List (PathNode n)}
    (hbest : bestPath (1 + treeLen) tree.withSiblings.leafNodePaths = some best)
    (hpath : best.2 = node :: rest) (hlevel : node.token.2 = tree.roots)
    (f : Option (Fin n) → ℚ) :
    ((generationRow target treeLen tree).expect fun row => f (firstToken row)) =
      (verifyEdge (target 0) (draftProbs tree.roots) node.token.1.token).expect fun r =>
        f (some r.sampledToken) := by
  simp only [generationRow, extractSamplingRow, hbest, Law.expect_map, firstToken_result]
  rw [hpath, pathEdges, hlevel]
  refine verifyPathEdges_head (fun e he => ?_) f
  rcases List.mem_cons.mp he with rfl | he
  · exact htarget 0
  · exact pathEdges_target htarget rest _ e he

end

/-! ### When it is the target distribution -/

section

variable {p q : Fin n → ℚ} {d : Fin n}

/-- An edge whose draft token is always `d` emits a token by `p`: either `p` has all its mass at
`d`, or none at `d` while no token is drafted too rarely, or `d` is drafted with certainty or has
no mass, and off `d` the draft is a fixed part of `p`. -/
def ExactAt (p q : Fin n → ℚ) (d : Fin n) : Prop :=
  p d = 1 ∨ (p d = 0 ∧ ∀ t, p t ≤ q t) ∨
    ((p d = 0 ∨ q d = 1) ∧ p d < q d ∧ ∃ c, 0 < c ∧ ∀ t, t ≠ d → 0 < p t → q t = (1 - c) * p t)

/-- The probability that an edge with the draft token `d` emits `t`. -/
def edgeProb (p q : Fin n → ℚ) (d t : Fin n) : ℚ :=
  (if d = t then acceptProb p q d else 0) + (1 - acceptProb p q d) * residualDistribution p q t

theorem verifyEdge_edgeProb (hp : IsDistribution p) (hq : 0 < q d) (t : Fin n) :
    ((verifyEdge p q d).expect fun r => if some r.sampledToken = some t then 1 else 0) =
      edgeProb p q d t := by
  rw [verifyEdge_expect hp hq, edgeProb]
  simp

theorem IsDistribution.eq_zero_of_ne (hp : IsDistribution p) (hd : p d = 1) {t : Fin n}
    (ht : t ≠ d) : p t = 0 := by
  have hsum := Finset.add_sum_erase Finset.univ p (Finset.mem_univ d)
  rw [hp.sum, hd] at hsum
  have hle := Finset.single_le_sum (fun i _ => hp.nonneg i)
    (Finset.mem_erase.mpr ⟨ht, Finset.mem_univ t⟩)
  have := hp.nonneg t
  linarith

theorem acceptProb_of_le (hq : 0 < q d) (h : q d ≤ p d) : acceptProb p q d = 1 :=
  min_eq_right ((one_le_div hq).mpr h)

theorem acceptProb_of_lt (hq : 0 < q d) (h : p d < q d) : acceptProb p q d = p d / q d :=
  min_eq_left ((div_le_one hq).mpr h.le)

theorem edgeProb_of_zero (hp : IsDistribution p) (h : ∀ t, p t ≤ q t) (t : Fin n) :
    edgeProb p q d t =
      (if d = t then acceptProb p q d else 0) + (1 - acceptProb p q d) * p t := by
  rw [edgeProb, residualDistribution_of_zero hp (residualMass_eq_zero_iff.mpr h)]

/-- A draft token that is not certain to be accepted has no part in the residual. -/
theorem edgeProb_self (hq : 0 < q d) (h : p d < q d) (hmass : 0 < residualMass p q) :
    edgeProb p q d d = p d / q d := by
  rw [edgeProb, if_pos rfl, residualDistribution_of_pos hmass, max_eq_right (by linarith), zero_div,
    mul_zero, add_zero, acceptProb_of_lt hq h]

theorem exactAt_of_edgeProb (hp : IsDistribution p) (hq : 0 < q d)
    (h : ∀ t, edgeProb p q d t = p t) : ExactAt p q d := by
  rcases le_or_gt (q d) (p d) with hle | hlt
  · have hself := h d
    rw [edgeProb, if_pos rfl, acceptProb_of_le hq hle, sub_self, zero_mul, add_zero] at hself
    exact .inl hself.symm
  rcases (residualMass_nonneg p q).eq_or_lt with hzero | hmass
  · -- nothing is drafted too rarely, and a rejected edge draws from `p`
    have hle := residualMass_eq_zero_iff.mp hzero.symm
    have hself := h d
    rw [edgeProb_of_zero hp hle, if_pos rfl, acceptProb_of_lt hq hlt] at hself
    have hprod : p d / q d * (1 - p d) = 0 := by linarith
    rcases mul_eq_zero.mp hprod with hacc | hone
    · rw [div_eq_zero_iff, or_iff_left hq.ne'] at hacc
      exact .inr (.inl ⟨hacc, hle⟩)
    · exact .inl (by linarith)
  · have hself := h d
    rw [edgeProb_self hq hlt hmass] at hself
    have hcertain : p d = 0 ∨ q d = 1 := by
      rw [div_eq_iff hq.ne'] at hself
      have hprod : p d * (q d - 1) = 0 := by linarith
      rcases mul_eq_zero.mp hprod with h0 | h1
      · exact .inl h0
      · exact .inr (by linarith)
    have hreject : 0 < 1 - p d / q d := by
      have := (div_lt_one hq).mpr hlt
      linarith
    refine .inr (.inr ⟨hcertain, hlt, residualMass p q / (1 - p d / q d), div_pos hmass hreject, ?_⟩)
    intro t ht hpos
    have heq := h t
    rw [edgeProb, if_neg (Ne.symm ht), zero_add, residualDistribution_of_pos hmass,
      acceptProb_of_lt hq hlt, mul_div_assoc', div_eq_iff hmass.ne'] at heq
    have hmax : max (p t - q t) 0 = residualMass p q / (1 - p d / q d) * p t := by
      rw [div_mul_eq_mul_div, eq_div_iff hreject.ne']
      linarith
    have hgt : 0 < max (p t - q t) 0 := by
      rw [hmax]
      exact mul_pos (div_pos hmass hreject) hpos
    rw [lt_max_iff, or_iff_left (lt_irrefl _)] at hgt
    rw [max_eq_left hgt.le] at hmax
    linarith

/-- The residual, where the draft is a fixed part of `p` off `d`. -/
theorem residual_of_part (hp : IsDistribution p) (hq : ∀ t, 0 ≤ q t) (hlt : p d < q d) {c : ℚ}
    (hc : 0 < c) (hpart : ∀ t, t ≠ d → 0 < p t → q t = (1 - c) * p t) (t : Fin n) :
    max (p t - q t) 0 = if t = d then 0 else c * p t := by
  split_ifs with ht
  · rw [ht]
    exact max_eq_right (by linarith)
  · rcases (hp.nonneg t).eq_or_lt with hzero | hpos
    · rw [← hzero, mul_zero, max_eq_right (by linarith [hq t])]
    · rw [hpart t ht hpos, max_eq_left]
      · ring
      · have := mul_pos hc hpos
        linarith

theorem edgeProb_of_exactAt (hp : IsDistribution p) (hq : ∀ t, 0 ≤ q t) (hd : 0 < q d)
    (h : ExactAt p q d) (t : Fin n) : edgeProb p q d t = p t := by
  rcases h with hone | ⟨hzero, hle⟩ | ⟨hcertain, hlt, c, hc, hpart⟩
  · have hrest : ∀ t, (if d = t then (1 : ℚ) else 0) = p t := by
      intro t
      split_ifs with ht
      · rw [← ht, hone]
      · exact (hp.eq_zero_of_ne hone (Ne.symm ht)).symm
    rcases le_or_gt (q d) (p d) with hle | hlt
    · rw [edgeProb, acceptProb_of_le hd hle, sub_self, zero_mul, add_zero, hrest]
    · have hle : ∀ t, p t ≤ q t := by
        intro t
        by_cases ht : t = d
        · rw [ht]
          exact hlt.le
        · rw [hp.eq_zero_of_ne hone ht]
          exact hq t
      rw [edgeProb_of_zero hp hle, ← hrest t]
      split_ifs
      · ring
      · ring
  · have hacc : acceptProb p q d = 0 := by
      rw [acceptProb, hzero, zero_div, min_eq_left zero_le_one]
    rw [edgeProb_of_zero hp hle, hacc, ite_self, sub_zero, one_mul, zero_add]
  · have hacc : acceptProb p q d = p d := by
      rw [acceptProb_of_lt hd hlt]
      rcases hcertain with h0 | h1
      · rw [h0, zero_div]
      · rw [h1, div_one]
    have hres := residual_of_part hp hq hlt hc hpart
    have hless : 0 < 1 - p d := by
      rcases hcertain with h0 | h1
      · rw [h0, sub_zero]
        exact zero_lt_one
      · linarith
    have hmass : residualMass p q = c * (1 - p d) := by
      have hsum := Finset.add_sum_erase Finset.univ p (Finset.mem_univ d)
      rw [residualMass, ← hp.sum, ← hsum, add_sub_cancel_left, Finset.mul_sum,
        ← Finset.add_sum_erase Finset.univ _ (Finset.mem_univ d), hres d, if_pos rfl, zero_add]
      refine Finset.sum_congr rfl fun t ht => ?_
      rw [hres t, if_neg (Finset.ne_of_mem_erase ht)]
    have hpos : 0 < residualMass p q := by
      rw [hmass]
      exact mul_pos hc hless
    by_cases ht : t = d
    · subst ht
      rw [edgeProb_self hd hlt hpos, ← acceptProb_of_lt hd hlt, hacc]
    · rw [edgeProb, if_neg (Ne.symm ht), zero_add, hacc, residualDistribution_of_pos hpos, hres t,
        if_neg ht, hmass]
      field_simp

end

/-- In a generation round the first committed token has the target distribution of the root if and
only if no path is chosen, or the chosen first token is one for which the edge is exact. -/
theorem firstToken_exact_iff {target : ℕ → Fin n → ℚ} (htarget : ∀ i, IsDistribution (target i))
    (treeLen : ℕ) (tree : Forest (Draft n)) :
    (∀ t, ((generationRow target treeLen tree).map firstToken).prob (some t) = target 0 t) ↔
      ∀ best node, bestPath (1 + treeLen) tree.withSiblings.leafNodePaths = some best →
        best.2.head? = some node →
        ExactAt (target 0) (draftProbs tree.roots) node.token.1.token := by
  have hprob : ∀ t, ((generationRow target treeLen tree).map firstToken).prob (some t) =
      (generationRow target treeLen tree).expect fun row =>
        if firstToken row = some t then 1 else 0 := by
    intro t
    rw [Law.prob, Law.expect_map]
  simp only [hprob]
  cases hbest : bestPath (1 + treeLen) tree.withSiblings.leafNodePaths with
  | none =>
    refine iff_of_true (fun t => ?_) (fun best node h => by cases h)
    rw [generationRow_none (htarget 0) hbest fun x => if x = some t then 1 else 0]
    simp
  | some best =>
    obtain ⟨node, rest, hpath, hlevel, hpos⟩ := bestPath_head hbest
    have hedge : ∀ t, ((generationRow target treeLen tree).expect fun row =>
        if firstToken row = some t then 1 else 0) =
          edgeProb (target 0) (draftProbs tree.roots) node.token.1.token t := by
      intro t
      rw [generationRow_expect htarget hbest hpath hlevel fun x => if x = some t then 1 else 0,
        verifyEdge_edgeProb (htarget 0) hpos]
    simp only [hedge]
    constructor
    · intro h best' node' hbest' hnode'
      cases hbest'
      rw [hpath] at hnode'
      cases hnode'
      exact exactAt_of_edgeProb (htarget 0) hpos h
    · intro h t
      have hexact := h best node rfl (by rw [hpath]; rfl)
      exact edgeProb_of_exactAt (htarget 0) (draftProbs_nonneg _) hpos hexact t

/-- A tree whose only node is certain for drafter and target. -/
theorem firstToken_exact_iff_certain :
    ((generationRow (fun _ => ![1, 0]) 1 (.cons ⟨0, 1⟩ .nil .nil)).map firstToken).prob (some 0) =
      1 := by
  refine (firstToken_exact_iff (fun _ => ⟨?_, ?_⟩) 1 (.cons ⟨0, 1⟩ .nil .nil)).mpr ?_ 0
  · decide +kernel
  · decide +kernel
  · intro best node hbest hnode
    obtain ⟨hmem, -⟩ := bestPath_spec hbest
    rw [List.mem_singleton.mp hmem] at hnode
    cases hnode
    exact .inl rfl

/-- Of two equally probable tokens the first one is drafted, with its right probability, and it is
always the one committed. -/
theorem drafted_always_committed :
    ((generationRow (fun _ => ![1 / 2, 1 / 2]) 1 (.cons ⟨0, 1 / 2⟩ .nil .nil)).map
      firstToken).prob (some 0) = 1 ∧
      ¬∀ t, ((generationRow (fun _ => ![1 / 2, 1 / 2]) 1 (.cons ⟨0, 1 / 2⟩ .nil .nil)).map
        firstToken).prob (some t) = ![1 / 2, 1 / 2] t := by
  have hone : ((generationRow (fun _ => ![1 / 2, 1 / 2]) 1 (.cons ⟨0, 1 / 2⟩ .nil .nil)).map
      firstToken).prob (some (0 : Fin 2)) = 1 := by
    decide +kernel
  refine ⟨hone, fun h => ?_⟩
  have := (h 0).symm.trans hone
  exact absurd this (by decide +kernel)

end BloomBee.Speculative

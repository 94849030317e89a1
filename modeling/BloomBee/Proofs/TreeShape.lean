import BloomBee.Spec.TreeShape
import Mathlib.Algebra.BigOperators.Ring.List
import Mathlib.Data.List.GetD
import Mathlib.Tactic.Linarith
import Mathlib.Tactic.Ring

/-! The width plan keeps to its budget. A depth is only widened when all depths above it are, so
the cost of a step is what the tree grows by, and the turns without growth use up the heap. -/

set_option autoImplicit false

namespace BloomBee.TreeShape

/-- The nodes of a tree with these widths: `w0 + w0*w1 + w0*w1*w2 + ...`. -/
def treeTotal (widths : List ℕ) : ℕ :=
  ((List.range widths.length).map fun d => (widths.take (d + 1)).prod).sum

@[simp] theorem treeTotal_nil : treeTotal [] = 0 := rfl

theorem treeTotal_cons (w : ℕ) (ws : List ℕ) : treeTotal (w :: ws) = w * (1 + treeTotal ws) := by
  rw [treeTotal, List.length_cons, List.range_succ_eq_map, List.map_cons, List.sum_cons,
    List.map_map, treeTotal, Nat.mul_add, ← List.sum_map_mul_left]
  simp [Function.comp_def]

theorem treeTotal_replicate (n : ℕ) : treeTotal (List.replicate n 0) = 0 := by
  cases n with
  | zero => rfl
  | succ n => rw [List.replicate_succ, treeTotal_cons, Nat.zero_mul]

theorem treeTotal_append_zeros (ws : List ℕ) (k : ℕ) :
    treeTotal (ws ++ List.replicate k 0) = treeTotal ws := by
  induction ws with
  | nil => rw [List.nil_append, treeTotal_replicate, treeTotal_nil]
  | cons w ws ih => rw [List.cons_append, treeTotal_cons, treeTotal_cons, ih]

/-- The depths above `depth` have a width. -/
def Reached (widths : List ℕ) (depth : ℕ) : Prop := ∀ i < depth, widths.getD i 0 ≠ 0

/-! ### The cost of a step -/

theorem subtreeLoop_eq (ws : List ℕ) : ∀ running subtree,
    subtreeLoop running subtree ws = subtree + running * treeTotal ws := by
  induction ws with
  | nil =>
    intro running subtree
    rw [subtreeLoop, treeTotal_nil, Nat.mul_zero, Nat.add_zero]
  | cons w ws ih =>
    intro running subtree
    rw [subtreeLoop, treeTotal_cons, Nat.max_zero]
    split_ifs with hzero
    · rw [← Nat.mul_assoc, hzero, Nat.zero_mul, Nat.add_zero]
    · rw [ih]
      ring

theorem foldl_parents (ws : List ℕ) : ∀ p : ℕ,
    ws.foldl (fun parents width => parents * max width 1) p =
      p * ws.foldl (fun parents width => parents * max width 1) 1 := by
  induction ws with
  | nil => exact fun p => (Nat.mul_one p).symm
  | cons w ws ih =>
    intro p
    rw [List.foldl_cons, List.foldl_cons, ih, ih (1 * max w 1), Nat.one_mul, Nat.mul_assoc]

theorem bumpCost_zero (w : ℕ) (ws : List ℕ) : bumpCost (w :: ws) 0 = 1 + treeTotal ws := by
  rw [bumpCost, List.take_zero, List.foldl_nil, Nat.one_mul, List.drop_one, List.tail_cons,
    subtreeLoop_eq, Nat.one_mul]

theorem bumpCost_succ (w : ℕ) (ws : List ℕ) (depth : ℕ) :
    bumpCost (w :: ws) (depth + 1) = max w 1 * bumpCost ws depth := by
  rw [bumpCost, bumpCost, List.take_succ_cons, List.foldl_cons, foldl_parents, Nat.one_mul,
    List.drop_succ_cons, Nat.mul_assoc]

/-- `_bump_cost` is what the tree grows by, at a depth that is reached. -/
theorem treeTotal_bump (widths : List ℕ) : ∀ depth < widths.length, Reached widths depth →
    treeTotal (bump widths depth) = treeTotal widths + bumpCost widths depth := by
  induction widths with
  | nil => exact fun depth h => absurd h (Nat.not_lt_zero depth)
  | cons w ws ih =>
    intro depth hlt hreached
    cases depth with
    | zero =>
      rw [bump, List.modify_zero_cons, treeTotal_cons, treeTotal_cons, bumpCost_zero]
      ring
    | succ depth =>
      have hw : w ≠ 0 := hreached 0 (Nat.succ_pos _)
      have hrest : Reached ws depth := fun i hi => hreached (i + 1) (Nat.succ_lt_succ hi)
      have := ih depth (Nat.lt_of_succ_lt_succ hlt) hrest
      rw [bump] at this ⊢
      rw [List.modify_succ_cons, treeTotal_cons, treeTotal_cons, bumpCost_succ, this,
        Nat.max_eq_left (by omega)]
      ring

theorem one_le_bumpCost (widths : List ℕ) (depth : ℕ) : 1 ≤ bumpCost widths depth := by
  have hparents : ∀ (ws : List ℕ) (p : ℕ), 1 ≤ p →
      1 ≤ ws.foldl (fun parents width => parents * max width 1) p := by
    intro ws
    induction ws with
    | nil => exact fun p hp => hp
    | cons w ws ih =>
      intro p hp
      exact ih _ (Nat.mul_pos hp (Nat.lt_of_lt_of_le Nat.one_pos (Nat.le_max_right w 1)))
  rw [bumpCost, subtreeLoop_eq]
  exact Nat.mul_pos (hparents _ 1 (Nat.le_refl 1)) (by omega)

/-! ### Depths with a ratio -/

theorem reachLoop_ne_zero {l : List (ℚ × ℕ)} : ∀ {p : ℚ}, reachLoop p l ≠ 0 →
    ∀ x ∈ l, x.2 ≠ 0 := by
  induction l with
  | nil => exact fun _ x hx => nomatch hx
  | cons y l ih =>
    intro p h x hx
    rw [reachLoop] at h
    split_ifs at h with hzero
    · exact absurd rfl h
    · rcases List.mem_cons.mp hx with rfl | hx
      · exact hzero
      · exact ih h x hx

theorem reached_of_ratio {accept : List ℚ} {widths : List ℕ} {depth : ℕ}
    (hlen : widths.length ≤ accept.length) (hlt : depth < widths.length)
    (h : 0 < marginalRatio accept widths depth) : Reached widths depth := by
  intro i hi
  have hreach : reachProb accept widths depth ≠ 0 := by
    intro hzero
    rw [marginalRatio] at h
    simp only [hzero, mul_zero, zero_div, ite_self] at h
    exact absurd h (lt_irrefl _)
  refine reachLoop_ne_zero hreach (accept.getD i 0, widths.getD i 0) ?_
  have hi' : i < (accept.zip widths).length := by
    rw [List.length_zip]
    omega
  have hmem : (accept.zip widths)[i] ∈ (accept.zip widths).take depth :=
    List.mem_take_iff_getElem.mpr ⟨i, by omega, rfl⟩
  rw [List.getElem_zip] at hmem
  rwa [List.getD_eq_getElem _ _ (by omega), List.getD_eq_getElem _ _ (by omega)]

/-! ### The invariant -/

/-- No depth has a width unless all depths above it have one. -/
def NoGap (widths : List ℕ) : Prop := ∀ i j, i ≤ j → widths.getD j 0 ≠ 0 → widths.getD i 0 ≠ 0

structure PlanInv (accept : List ℚ) (maxTotalNodes : ℕ) (s : PlanState) : Prop where
  length : s.widths.length ≤ accept.length
  budget : s.remaining + treeTotal s.widths = maxTotalNodes
  noGap : NoGap s.widths
  heap : ∀ e ∈ s.heap, e.2 < s.widths.length ∧ Reached s.widths e.2
  /-- Every step of growth adds one entry at most. -/
  size : s.heap.length + s.remaining ≤ maxTotalNodes + 1

theorem leastEntry_mem (e : HeapEntry) (rest : List HeapEntry) : leastEntry e rest ∈ e :: rest := by
  rw [leastEntry]
  induction rest generalizing e with
  | nil => exact List.mem_singleton_self e
  | cons x rest ih =>
    rw [List.foldl_cons]
    rcases List.mem_cons.mp (ih (if entryLt x e then x else e)) with h | h
    · rw [h]
      split_ifs
      · exact List.mem_cons_of_mem _ List.mem_cons_self
      · exact List.mem_cons_self
    · exact List.mem_cons_of_mem _ (List.mem_cons_of_mem _ h)

theorem heappop_perm {heap heap' : List HeapEntry} {e : HeapEntry}
    (h : heappop heap = some (e, heap')) : heap.Perm (e :: heap') := by
  cases heap with
  | nil => cases h
  | cons x rest =>
    obtain ⟨rfl, rfl⟩ : leastEntry x rest = e ∧ (x :: rest).erase (leastEntry x rest) = heap' := by
      simpa [heappop] using h
    exact List.perm_cons_erase (leastEntry_mem x rest)

theorem getD_bump (widths : List ℕ) (depth i : ℕ) (hlt : depth < widths.length) :
    (bump widths depth).getD i 0 = widths.getD i 0 + if i = depth then 1 else 0 := by
  rw [bump, List.getD_eq_getElem?_getD, List.getD_eq_getElem?_getD, List.getElem?_modify]
  by_cases h : depth = i
  · subst h
    simp [List.getElem?_eq_getElem hlt]
  · simp [h, Ne.symm h]

theorem Reached.bump {widths : List ℕ} {d depth : ℕ} (h : Reached widths d)
    (hlt : depth < widths.length) : Reached (bump widths depth) d := by
  intro i hi
  rw [getD_bump widths depth i hlt]
  have := h i hi
  omega

def Fresh (accept : List ℚ) (widths : List ℕ) (e : HeapEntry) : Prop :=
  -e.1 = marginalRatio accept widths e.2

instance (accept : List ℚ) (widths : List ℕ) (e : HeapEntry) :
    Decidable (Fresh accept widths e) :=
  inferInstanceAs (Decidable (-e.1 = marginalRatio accept widths e.2))

def stale (accept : List ℚ) (s : PlanState) : ℕ :=
  s.heap.countP fun e => ¬ Fresh accept s.widths e

theorem stale_le (accept : List ℚ) (s : PlanState) : stale accept s ≤ s.heap.length :=
  List.countP_le_length

/-- Turns that grow the tree lower the budget, and the others lower the entries or the entries
that are out of date. -/
def variant (accept : List ℚ) (maxTotalNodes : ℕ) (s : PlanState) : ℕ :=
  s.remaining * (2 * maxTotalNodes + 3) + s.heap.length + stale accept s

theorem pushDepth_spec {accept : List ℚ} {widths : List ℕ} (hlen : widths.length ≤ accept.length)
    {heap : List HeapEntry} (h : ∀ e ∈ heap, e.2 < widths.length ∧ Reached widths e.2)
    (depth : ℕ) :
    (∀ e ∈ pushDepth accept widths heap depth, e.2 < widths.length ∧ Reached widths e.2) ∧
      (pushDepth accept widths heap depth).length ≤ heap.length + 1 := by
  rw [pushDepth]
  split_ifs with hlt
  · simp only
    split_ifs with hratio
    · refine ⟨fun e he => ?_, by simp [heappush]⟩
      rcases List.mem_append.mp he with he | he
      · exact h e he
      · rw [List.mem_singleton] at he
        subst he
        exact ⟨hlt, reached_of_ratio hlen hlt hratio⟩
    · exact ⟨h, Nat.le_succ _⟩
  · exact ⟨h, Nat.le_succ _⟩

section Step

variable {accept : List ℚ} {maxTotalNodes : ℕ} {s : PlanState}

/-- The least entry is out: what is left satisfies the invariant. -/
theorem PlanInv.popped (h : PlanInv accept maxTotalNodes s) {e : HeapEntry}
    {heap : List HeapEntry} (hpop : heappop s.heap = some (e, heap)) :
    PlanInv accept maxTotalNodes { s with heap } ∧
      e.2 < s.widths.length ∧ Reached s.widths e.2 ∧ s.heap.length = heap.length + 1 ∧
        stale accept s = stale accept { s with heap } +
          if Fresh accept s.widths e then 0 else 1 := by
  have hperm := heappop_perm hpop
  have hlen := hperm.length_eq
  rw [List.length_cons] at hlen
  have hsize := h.size
  obtain ⟨hlt, hreached⟩ := h.heap e (hperm.mem_iff.mpr List.mem_cons_self)
  refine ⟨⟨h.length, h.budget, h.noGap,
    fun x hx => h.heap x (hperm.mem_iff.mpr (List.mem_cons_of_mem _ hx)), ?_⟩,
    hlt, hreached, hlen, ?_⟩
  · simp only
    omega
  · rw [stale, hperm.countP_eq, List.countP_cons, stale]
    split_ifs <;> simp_all

theorem PlanInv.grown (h : PlanInv accept maxTotalNodes s) {depth : ℕ}
    (hlt : depth < s.widths.length) (hreached : Reached s.widths depth)
    (hcost : bumpCost s.widths depth ≤ s.remaining)
    (hsize : s.heap.length + s.remaining ≤ maxTotalNodes) :
    PlanInv accept maxTotalNodes
      { widths := bump s.widths depth
        remaining := s.remaining - bumpCost s.widths depth
        heap := [depth, depth + 1].foldl (pushDepth accept (bump s.widths depth)) s.heap } := by
  have hlen : (bump s.widths depth).length = s.widths.length := List.length_modify ..
  have hle : (bump s.widths depth).length ≤ accept.length := hlen ▸ h.length
  have hone := one_le_bumpCost s.widths depth
  have hheap : ∀ e ∈ s.heap, e.2 < (bump s.widths depth).length ∧
      Reached (bump s.widths depth) e.2 := by
    intro e he
    obtain ⟨hin, hr⟩ := h.heap e he
    exact ⟨hlen ▸ hin, hr.bump hlt⟩
  obtain ⟨hfirst, hfirstLen⟩ := pushDepth_spec hle hheap depth
  obtain ⟨hsecond, hsecondLen⟩ := pushDepth_spec hle hfirst (depth + 1)
  refine ⟨hle, ?_, ?_, hsecond, ?_⟩
  · have := treeTotal_bump s.widths depth hlt hreached
    have := h.budget
    simp only
    omega
  · intro i j hij hj
    rw [getD_bump _ _ _ hlt] at hj ⊢
    by_cases hji : j = depth
    · -- the depth itself, above which all depths have a width
      by_cases hi : i = depth
      · rw [if_pos hi]
        omega
      · have := hreached i (by omega)
        omega
    · rw [if_neg hji, Nat.add_zero] at hj
      have := h.noGap i j hij hj
      omega
  · simp only [List.foldl_cons, List.foldl_nil]
    omega

theorem planTurn_cases (h : PlanInv accept maxTotalNodes s) :
    (∃ s', planTurn accept s = .next s' ∧ PlanInv accept maxTotalNodes s' ∧
        variant accept maxTotalNodes s' < variant accept maxTotalNodes s) ∨
      ∃ s', planTurn accept s = .stop s' ∧ PlanInv accept maxTotalNodes s' := by
  rw [planTurn]
  split_ifs with hpos
  · cases hpop : heappop s.heap with
    | none => exact .inr ⟨s, rfl, h⟩
    | some popped =>
      obtain ⟨⟨negRatio, depth⟩, heap⟩ := popped
      obtain ⟨hinv, hlt, hreached, hlen, hstale⟩ := h.popped hpop
      simp only
      rw [planEntry]
      simp only
      split_ifs with hratio hfresh hrepush hcost
      · exact .inr ⟨_, rfl, hinv⟩
      · -- the entry goes back with its fresh ratio
        have hnot : ¬ Fresh accept s.widths (negRatio, depth) := by
          rw [Fresh]
          simp only
          intro heq
          rw [← heq] at hfresh
          linarith
        have hself : Fresh accept s.widths (-marginalRatio accept s.widths depth, depth) := by
          rw [Fresh, neg_neg]
        rw [if_neg hnot] at hstale
        have hlen' : (heappush heap (-marginalRatio accept s.widths depth, depth)).length =
            heap.length + 1 := by rw [heappush, List.length_append, List.length_singleton]
        have hstale' : stale accept
            { s with heap := (heappush heap (-marginalRatio accept s.widths depth, depth)) } =
              stale accept { s with heap } := by
          rw [stale, heappush, List.countP_append, stale]
          simp [hself]
        refine .inl ⟨_, rfl, ⟨hinv.length, hinv.budget, hinv.noGap, fun e he => ?_, ?_⟩, ?_⟩
        · rcases List.mem_append.mp he with he | he
          · exact hinv.heap e he
          · rw [List.mem_singleton] at he
            subst he
            exact ⟨hlt, hreached⟩
        · have := h.size
          simp only [hlen']
          omega
        · rw [variant, variant]
          simp only [hstale', hlen', hlen]
          omega
      · refine .inl ⟨_, rfl, hinv, ?_⟩
        rw [variant, variant]
        simp only
        omega
      · -- too dear: the entry is dropped
        refine .inl ⟨_, rfl, hinv, ?_⟩
        rw [variant, variant]
        simp only
        omega
      · -- a step of growth
        have hsize := h.size
        have hgrown := hinv.grown hlt hreached (not_lt.mp hcost) (by simp only; omega)
        refine .inl ⟨_, rfl, hgrown, ?_⟩
        have hone := one_le_bumpCost s.widths depth
        have hle := stale_le accept
          { widths := bump s.widths depth
            remaining := s.remaining - bumpCost s.widths depth
            heap := [depth, depth + 1].foldl (pushDepth accept (bump s.widths depth)) heap }
        have hsize' := hgrown.size
        have hmul : (s.remaining - bumpCost s.widths depth) * (2 * maxTotalNodes + 3) +
            (2 * maxTotalNodes + 3) ≤ s.remaining * (2 * maxTotalNodes + 3) := by
          rw [← Nat.succ_mul]
          exact Nat.mul_le_mul_right _ (by omega)
        rw [variant, variant]
        simp only at hsize' hle ⊢
        omega
  · exact .inr ⟨s, rfl, h⟩

end Step

/-! ### The run -/

def Turns (accept : List ℚ) : PlanState → PlanState → Prop :=
  Relation.ReflTransGen fun s s' => planTurn accept s = .next s'

theorem PlanInv.turns {accept : List ℚ} {maxTotalNodes : ℕ} {s s' : PlanState}
    (h : PlanInv accept maxTotalNodes s) (hrun : Turns accept s s') :
    PlanInv accept maxTotalNodes s' := by
  induction hrun with
  | refl => exact h
  | tail _ hturn ih =>
    rcases planTurn_cases ih with ⟨t, ht, hinv, -⟩ | ⟨t, ht, -⟩
    · rw [hturn] at ht
      cases ht
      exact hinv
    · rw [hturn] at ht
      cases ht

theorem planStart_inv (accept : List ℚ) (maxTotalNodes : ℕ) {depths : ℕ} (hpos : depths ≠ 0)
    (hle : depths ≤ accept.length) :
    PlanInv accept maxTotalNodes (planStart accept maxTotalNodes depths) := by
  have hzero : ∀ i, (List.replicate depths 0).getD i 0 = 0 := by
    intro i
    rw [List.getD_eq_getElem?_getD, List.getElem?_replicate]
    split_ifs <;> rfl
  refine ⟨?_, ?_, ?_, ?_, ?_⟩
  · rw [planStart, List.length_replicate]
    exact hle
  · rw [planStart, treeTotal_replicate, Nat.add_zero]
  · exact fun i j _ hj => absurd (hzero j) hj
  · intro e he
    rw [planStart, heappush, List.nil_append, List.mem_singleton] at he
    subst he
    refine ⟨?_, fun i hi => absurd hi (Nat.not_lt_zero i)⟩
    rw [planStart, List.length_replicate]
    omega
  · simp [planStart, heappush, Nat.add_comm]

theorem clippedDepth_le (accept : List ℚ) (maxDepth : Option ℤ) :
    clippedDepth accept maxDepth ≤ accept.length := by
  rw [clippedDepth]
  omega

/-- Without its zeros at the end, a list without gaps has no zero. -/
theorem rdropWhile_noGap {widths : List ℕ} (h : NoGap widths) :
    0 ∉ widths.rdropWhile (· = 0) ∧ treeTotal (widths.rdropWhile (· = 0)) = treeTotal widths := by
  induction widths using List.reverseRecOn with
  | nil => exact ⟨List.not_mem_nil, rfl⟩
  | append_singleton ws w ih =>
    by_cases hw : w = 0
    · subst hw
      have hnoGap : NoGap ws := by
        intro i j hij hj
        have hlt : j < ws.length := by
          by_contra hge
          exact hj (List.getD_eq_default _ _ (not_lt.mp hge))
        have := h i j hij
        rw [List.getD_append _ _ _ _ hlt, List.getD_append _ _ _ _ (by omega)] at this
        exact this hj
      rw [List.rdropWhile_concat_pos _ _ _ (by simp)]
      refine ⟨(ih hnoGap).1, (ih hnoGap).2.trans ?_⟩
      rw [← treeTotal_append_zeros ws 1]
      rfl
    · rw [List.rdropWhile_concat_neg _ _ _ (by simpa using hw)]
      refine ⟨fun hmem => ?_, rfl⟩
      obtain ⟨i, hi, hzero⟩ := List.mem_iff_getElem.mp hmem
      rw [List.length_append, List.length_singleton] at hi
      refine h i ws.length (by omega) ?_ ?_
      · rw [List.getD_append_right _ _ _ _ (Nat.le_refl _), Nat.sub_self]
        exact hw
      · rw [List.getD_eq_getElem _ _ (by simpa using hi), hzero]

/-- The plan ends, has no zero, and fits into the budget. At every turn the rest of the budget is
what the tree leaves of it, and the cost of widening the popped depth is what the tree would grow
by. -/
theorem sequoia_within_budget (perDepthAccept : List ℚ) (maxTotalNodes : ℕ)
    (maxDepth : Option ℤ) :
    (∃ widths turns, (∀ fuel > turns,
        sequoiaOptimizeWidths fuel perDepthAccept maxTotalNodes maxDepth = some widths) ∧
      0 ∉ widths ∧ treeTotal widths ≤ maxTotalNodes) ∧
    ∀ s, clippedDepth perDepthAccept maxDepth ≠ 0 →
      Turns perDepthAccept (planStart perDepthAccept maxTotalNodes
        (clippedDepth perDepthAccept maxDepth)) s →
      s.remaining + treeTotal s.widths = maxTotalNodes ∧
      ∀ negRatio depth heap, heappop s.heap = some ((negRatio, depth), heap) →
        treeTotal (bump s.widths depth) = treeTotal s.widths + bumpCost s.widths depth := by
  have hle := clippedDepth_le perDepthAccept maxDepth
  refine ⟨?_, fun s hpos hrun => ?_⟩
  · by_cases hpos : clippedDepth perDepthAccept maxDepth = 0
    · refine ⟨[], 0, fun fuel _ => ?_, List.not_mem_nil, Nat.zero_le _⟩
      rw [sequoiaOptimizeWidths]
      exact if_pos hpos
    · have hinv := planStart_inv perDepthAccept maxTotalNodes hpos hle
      obtain ⟨s, hs, hrun⟩ := @Loop.run_total _ _ (planTurn perDepthAccept) _ _
        (variant perDepthAccept maxTotalNodes) (fun s hs => planTurn_cases hs) _ _ hinv
        (Nat.le_refl _)
      obtain ⟨hzero, htotal⟩ := rdropWhile_noGap hs.noGap
      refine ⟨s.widths.rdropWhile (· = 0), variant perDepthAccept maxTotalNodes
        (planStart perDepthAccept maxTotalNodes (clippedDepth perDepthAccept maxDepth)),
        fun fuel hfuel => ?_, hzero, ?_⟩
      · rw [sequoiaOptimizeWidths]
        simp only [if_neg hpos, hrun fuel hfuel]
      · have := hs.budget
        omega
  · have hinv := (planStart_inv perDepthAccept maxTotalNodes hpos hle).turns hrun
    refine ⟨hinv.budget, fun negRatio depth heap hpop => ?_⟩
    obtain ⟨-, hlt, hreached, -, -⟩ := hinv.popped hpop
    exact treeTotal_bump s.widths depth hlt hreached

end BloomBee.TreeShape

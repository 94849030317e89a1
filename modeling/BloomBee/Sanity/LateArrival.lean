import BloomBee.Spec.LateArrival

/-! One lemma for each loop of the scheduler: greedy decoding token by token, the queues, the
groups of a tick, the steps of a tick and the tokens they give. -/

set_option autoImplicit false

namespace BloomBee.LateArrival

/-! ### Greedy decoding -/

section

variable (next : List ℕ → ℕ) (eosSet : List ℕ)

theorem greedy_length_le (k : ℕ) (history : List ℕ) :
    (greedy next eosSet k history).length ≤ k := by
  induction k generalizing history with
  | zero => exact Nat.le_refl 0
  | succ k ih =>
    rw [greedy]
    split
    · simp
    · have := ih (history ++ [next history])
      rw [List.length_cons]
      omega

theorem greedy_length_pos {k : ℕ} (hk : 0 < k) (history : List ℕ) :
    0 < (greedy next eosSet k history).length := by
  obtain ⟨k, rfl⟩ := Nat.exists_eq_add_of_lt hk
  rw [Nat.zero_add, greedy]
  split <;> simp

/-- The token at `i` is the choice after the tokens before it, and it is not the last one
unless it is EOS or the budget is used up. -/
theorem greedy_getElem (k : ℕ) (history : List ℕ) (i : ℕ)
    (hi : i < (greedy next eosSet k history).length) :
    (greedy next eosSet k history)[i] =
        next (history ++ (greedy next eosSet k history).take i) ∧
      (i + 1 < (greedy next eosSet k history).length ↔
        (greedy next eosSet k history)[i] ∉ eosSet ∧ i + 1 < k) := by
  induction k generalizing history i with
  | zero => exact absurd hi (Nat.not_lt_zero i)
  | succ k ih =>
    by_cases he : next history ∈ eosSet
    · have hg : greedy next eosSet (k + 1) history = [next history] := by rw [greedy, if_pos he]
      simp only [hg, List.length_singleton] at hi ⊢
      obtain rfl : i = 0 := by omega
      simp [he]
    · have hg : greedy next eosSet (k + 1) history =
          next history :: greedy next eosSet k (history ++ [next history]) := by
        rw [greedy, if_neg he]
      simp only [hg, List.length_cons] at hi ⊢
      cases i with
      | zero =>
        have hle := greedy_length_le next eosSet k (history ++ [next history])
        constructor
        · simp
        · rw [List.getElem_cons_zero]
          constructor
          · intro h
            exact ⟨he, by omega⟩
          · rintro ⟨-, h⟩
            have := greedy_length_pos next eosSet (show 0 < k by omega) (history ++ [next history])
            omega
      | succ i =>
        obtain ⟨h1, h2⟩ := ih (history ++ [next history]) i (by omega)
        rw [List.getElem_cons_succ, List.take_succ_cons]
        refine ⟨?_, ?_⟩
        · rw [h1, List.append_assoc, List.singleton_append]
        · rw [Nat.succ_lt_succ_iff, Nat.succ_lt_succ_iff]
          exact h2

end

variable {n : ℕ} {σ ε : Type}

/-! ### The queues -/

theorem notArrived_cons {c : Request n} {tick : ℕ} {a : Fin n} {pending : List (Fin n)}
    (harr : c.arrivalTicks a ≤ tick) {r : Fin n} :
    r ∈ a :: pending ∧ tick < c.arrivalTicks r ↔ r ∈ pending ∧ tick < c.arrivalTicks r := by
  rw [List.mem_cons]
  constructor
  · rintro ⟨rfl | h, ht⟩
    · omega
    · exact ⟨h, ht⟩
  · rintro ⟨h, ht⟩
    exact ⟨Or.inr h, ht⟩

theorem moveArrived_spec (c : Request n) (tick : ℕ) (done : Fin n → Bool) (pending : List (Fin n)) :
    ∀ active : List (Fin n),
      pending.Pairwise (fun a b => c.arrivalTicks a ≤ c.arrivalTicks b) → active.Nodup →
      (∀ r ∈ pending, done r = false) →
      (moveArrived c tick done pending active active.toFinset).active.Nodup ∧
      (moveArrived c tick done pending active active.toFinset).activeSet =
        (moveArrived c tick done pending active active.toFinset).active.toFinset ∧
      (∀ r, r ∈ (moveArrived c tick done pending active active.toFinset).active ↔
        r ∈ active ∨ r ∈ pending ∧ c.arrivalTicks r ≤ tick) ∧
      (moveArrived c tick done pending active active.toFinset).pending.Pairwise
        (fun a b => c.arrivalTicks a ≤ c.arrivalTicks b) ∧
      ∀ r, r ∈ (moveArrived c tick done pending active active.toFinset).pending ↔
        r ∈ pending ∧ tick < c.arrivalTicks r := by
  induction pending with
  | nil => intro active _ hnd _; simp [moveArrived, hnd]
  | cons a pending ih =>
    intro active hsort hnd hdone
    obtain ⟨ha, hsort'⟩ := List.pairwise_cons.mp hsort
    have hdone' : ∀ r ∈ pending, done r = false := fun r hr =>
      hdone r (List.mem_cons_of_mem _ hr)
    by_cases harr : c.arrivalTicks a ≤ tick
    · -- `a` is in the queue afterwards, if it was not in before
      by_cases hmem : a ∈ active
      · have hcond : ¬(a ∉ active.toFinset ∧ done a = false) := fun h =>
          h.1 (List.mem_toFinset.mpr hmem)
        rw [moveArrived, if_pos harr, if_neg hcond]
        obtain ⟨h1, h2, h3, h4, h5⟩ := ih active hsort' hnd hdone'
        refine ⟨h1, h2, ?_, h4, ?_⟩
        · intro r
          rw [h3 r, List.mem_cons]
          constructor
          · rintro (h | ⟨h, ht⟩)
            · exact Or.inl h
            · exact Or.inr ⟨Or.inr h, ht⟩
          · rintro (h | ⟨rfl | h, ht⟩)
            · exact Or.inl h
            · exact Or.inl hmem
            · exact Or.inr ⟨h, ht⟩
        · intro r
          rw [h5 r, notArrived_cons harr]
      · have hcond : a ∉ active.toFinset ∧ done a = false :=
          ⟨fun h => hmem (List.mem_toFinset.mp h), hdone a List.mem_cons_self⟩
        have hset : insert a active.toFinset = (active ++ [a]).toFinset := by
          ext r
          simp
        rw [moveArrived, if_pos harr, if_pos hcond, hset]
        have hnd' : (active ++ [a]).Nodup :=
          hnd.append (List.nodup_singleton a) (by simpa using hmem)
        obtain ⟨h1, h2, h3, h4, h5⟩ := ih (active ++ [a]) hsort' hnd' hdone'
        refine ⟨h1, h2, ?_, h4, ?_⟩
        · intro r
          rw [h3 r, List.mem_cons, List.mem_append, List.mem_singleton]
          constructor
          · rintro ((h | rfl) | ⟨h, ht⟩)
            · exact Or.inl h
            · exact Or.inr ⟨Or.inl rfl, harr⟩
            · exact Or.inr ⟨Or.inr h, ht⟩
          · rintro (h | ⟨rfl | h, ht⟩)
            · exact Or.inl (Or.inl h)
            · exact Or.inl (Or.inr rfl)
            · exact Or.inr ⟨h, ht⟩
        · intro r
          rw [h5 r, notArrived_cons harr]
    · -- nothing further has arrived
      rw [moveArrived, if_neg harr]
      refine ⟨hnd, rfl, ?_, hsort, ?_⟩
      · intro r
        constructor
        · exact Or.inl
        · rintro (h | ⟨h, ht⟩)
          · exact h
          · rcases List.mem_cons.mp h with rfl | h
            · exact absurd ht harr
            · have := ha r h
              omega
      · intro r
        constructor
        · intro h
          refine ⟨h, ?_⟩
          rcases List.mem_cons.mp h with rfl | h
          · omega
          · have := ha r h
            omega
        · exact And.left

/-- With room for the whole queue, all of it is taken. -/
theorem popRows_all (done : Fin n → Bool) (active : List (Fin n)) :
    ∀ (k : ℕ) (rows : List (Fin n)), active.length ≤ k → active.Nodup →
      (∀ r ∈ active, done r = false) →
      popRows done k active active.toFinset rows = ⟨[], ∅, rows ++ active⟩ := by
  induction active with
  | nil => intro k rows _ _ _; cases k <;> simp [popRows]
  | cons a active ih =>
    intro k rows hk hnd hdone
    obtain ⟨ha, hnd⟩ := List.nodup_cons.mp hnd
    obtain ⟨k, rfl⟩ : ∃ m, k = m + 1 := ⟨k - 1, by rw [List.length_cons] at hk; omega⟩
    have herase : (a :: active).toFinset.erase a = active.toFinset := by
      rw [List.toFinset_cons, Finset.erase_insert (by simpa using ha)]
    rw [popRows, herase, hdone a List.mem_cons_self, ih k _ (Nat.le_of_succ_le_succ hk) hnd
      fun r hr => hdone r (List.mem_cons_of_mem _ hr)]
    simp

/-! ### The groups of a tick -/

structure IsGroup (position : Fin n → ℕ) (g : List (Fin n)) : Prop where
  nonempty : g ≠ []
  contiguous : g.IsChain fun a b => b.val = a.val + 1
  samePosition : ∀ r ∈ g, ∀ r' ∈ g, position r = position r'

theorem isGroup_singleton (position : Fin n → ℕ) (r : Fin n) : IsGroup position [r] where
  nonempty := List.cons_ne_nil _ _
  contiguous := List.IsChain.singleton r
  samePosition := by
    intro a ha b hb
    rw [List.mem_singleton.mp ha, List.mem_singleton.mp hb]

theorem isGroup_append {position : Fin n → ℕ} {g : List (Fin n)} (hg : IsGroup position g)
    {r : Fin n} (hlast : g.getLast?.map (fun last => last.val + 1) = some r.val)
    (hhead : g.head?.map position = some (position r)) : IsGroup position (g ++ [r]) where
  nonempty := by simp
  contiguous := by
    rw [List.isChain_append]
    refine ⟨hg.contiguous, List.IsChain.singleton r, ?_⟩
    intro a ha b hb
    rw [Option.mem_def] at ha
    rw [List.head?_singleton, Option.mem_some] at hb
    rw [ha, Option.map_some, Option.some.injEq] at hlast
    rw [← hb, hlast]
  samePosition := by
    obtain ⟨a, ha, hpos⟩ := Option.map_eq_some_iff.mp hhead
    have hmem : a ∈ g := List.mem_of_head? ha
    -- every row of the larger group has the position of its first one
    have hall : ∀ b ∈ g ++ [r], position b = position a := by
      intro b hb
      rcases List.mem_append.mp hb with hb | hb
      · exact hg.samePosition b hb a hmem
      · rw [List.mem_singleton.mp hb, hpos]
    intro b hb b' hb'
    rw [hall b hb, hall b' hb']

theorem addToGroups_spec (position : Fin n → ℕ) {groups : List (List (Fin n))}
    (hg : ∀ g ∈ groups, IsGroup position g) (r : Fin n) :
    (∀ g ∈ addToGroups position groups r, IsGroup position g) ∧
      (addToGroups position groups r).flatten = groups.flatten ++ [r] := by
  have hnew : (∀ g ∈ groups ++ [[r]], IsGroup position g) ∧
      (groups ++ [[r]]).flatten = groups.flatten ++ [r] := by
    refine ⟨fun g h => ?_, by simp⟩
    rcases List.mem_append.mp h with h | h
    · exact hg g h
    · rw [List.mem_singleton.mp h]
      exact isGroup_singleton position r
  unfold addToGroups
  cases hl : groups.getLast? with
  | none => exact hnew
  | some g =>
    dsimp only
    split
    · next hc =>
      have hsplit : groups.dropLast ++ [g] = groups := List.dropLast_append_getLast? g hl
      constructor
      · intro g' h
        rcases List.mem_append.mp h with h | h
        · exact hg g' (List.mem_of_mem_dropLast h)
        · rw [List.mem_singleton.mp h]
          exact isGroup_append (hg g (List.mem_of_getLast? hl)) hc.1 hc.2
      · rw [← hsplit, List.dropLast_concat]
        simp
    · exact hnew

theorem computeGroups_spec (position : Fin n → ℕ) (rows : List (Fin n)) :
    (∀ g ∈ computeGroups position rows, IsGroup position g) ∧
      (computeGroups position rows).flatten = rows := by
  have key : ∀ (rows : List (Fin n)) (groups : List (List (Fin n))),
      (∀ g ∈ groups, IsGroup position g) →
      (∀ g ∈ rows.foldl (addToGroups position) groups, IsGroup position g) ∧
        (rows.foldl (addToGroups position) groups).flatten = groups.flatten ++ rows := by
    intro rows
    induction rows with
    | nil => intro groups hg; exact ⟨hg, by simp⟩
    | cons r rows ih =>
      intro groups hg
      obtain ⟨h1, h2⟩ := addToGroups_spec position hg r
      obtain ⟨h3, h4⟩ := ih _ h1
      refine ⟨h3, ?_⟩
      rw [List.foldl_cons, h4, h2, List.append_assoc, List.singleton_append]
  exact key rows [] (by intro g hg; cases hg)

/-! ### The steps of a tick -/

def fedBefore (c : Request n) (generatedByRow : Fin n → List ℕ) (r : Fin n) : List ℕ :=
  (c.inputIds r :: generatedByRow r).dropLast

theorem fedBefore_length (c : Request n) (generatedByRow : Fin n → List ℕ) (r : Fin n) :
    (fedBefore c generatedByRow r).length = (generatedByRow r).length := by
  rw [fedBefore, List.length_dropLast, List.length_cons, Nat.add_sub_cancel]

theorem fedBefore_append (c : Request n) (generatedByRow : Fin n → List ℕ) (r : Fin n) :
    fedBefore c generatedByRow r ++ [inputToken c generatedByRow r] =
      c.inputIds r :: generatedByRow r := by
  have hlast : (c.inputIds r :: generatedByRow r).getLast? =
      some (inputToken c generatedByRow r) := by
    rw [inputToken, List.getLast?_cons, List.getLastD_eq_getLast?]
  exact List.dropLast_append_getLast? _ hlast

theorem foldl_update_zip (g : List (Fin n)) (f : Fin n → ℕ) (extra : List ℕ) :
    ∀ output : Fin n → ℕ,
      (g.zip (g.map f ++ extra)).foldl (fun out p => Function.update out p.1 p.2) output =
        fun r => if r ∈ g then f r else output r := by
  induction g with
  | nil => intro output; simp
  | cons a g ih =>
    intro output
    rw [List.map_cons, List.cons_append, List.zip_cons_cons, List.foldl_cons, ih]
    funext r
    by_cases hr : r ∈ g
    · rw [if_pos hr, if_pos (List.mem_cons_of_mem _ hr)]
    · rw [if_neg hr]
      by_cases ha : r = a
      · subst ha
        rw [Function.update_self, if_pos List.mem_cons_self]
      · rw [Function.update_of_ne ha, if_neg (by simp [ha, hr])]

section

variable {step : σ → GroupStep n → Except ε (σ × List ℕ)} {next : List ℕ → ℕ}
  {fed : σ → Fin n → List ℕ} {maxLength : ℕ} {c : Request n}
  {generatedByRow : Fin n → List ℕ} (tick : ℕ)

theorem fits_groupStep {g : List (Fin n)} {s : σ}
    (hg : IsGroup (fun r => (generatedByRow r).length) g)
    (hfed : ∀ r ∈ g, fed s r = fedBefore c generatedByRow r)
    (hlen : ∀ r ∈ g, (generatedByRow r).length < maxLength) :
    Fits (groupStep c generatedByRow tick g) g (fed s) maxLength := by
  have hfl : ∀ r ∈ g, (fed s r).length = (generatedByRow r).length := by
    intro r hr
    rw [hfed r hr, fedBefore_length]
  exact
    { nonempty := hg.nonempty
      contiguous := hg.contiguous
      offset := by
        obtain ⟨a, g, rfl⟩ := List.exists_cons_of_ne_nil hg.nonempty
        rfl
      full := rfl
      micro := rfl
      mask := by intro r; simp [groupStep, maskOf]
      tokens := rfl
      prefill := List.map_congr_left fun r hr => (hfl r hr).symm
      positions := fun r hr => (hfl r hr).symm
      samePosition := by
        intro r hr r' hr'
        rw [hfl r hr, hfl r' hr']
        exact hg.samePosition r hr r' hr'
      length := by
        intro r hr
        rw [hfl r hr]
        exact hlen r hr }

theorem computeGroup_spec (h : RowByRow step next fed maxLength) {g : List (Fin n)} {s : σ}
    (hg : IsGroup (fun r => (generatedByRow r).length) g)
    (hfed : ∀ r ∈ g, fed s r = fedBefore c generatedByRow r)
    (hlen : ∀ r ∈ g, (generatedByRow r).length < maxLength) (output : Fin n → ℕ) :
    ∃ s', computeGroup step c generatedByRow tick s output g =
        .ok (s', fun r => if r ∈ g then next (c.inputIds r :: generatedByRow r) else output r) ∧
      ∀ r, fed s' r = if r ∈ g then c.inputIds r :: generatedByRow r else fed s r := by
  obtain ⟨s', extra, hstep, hfed'⟩ := h.returns s _ g (fits_groupStep tick hg hfed hlen)
  have hfull : ∀ r ∈ g, fed s r ++ [((groupStep c generatedByRow tick g).rows r).inputTokenId] =
      c.inputIds r :: generatedByRow r := by
    intro r hr
    rw [hfed r hr]
    exact fedBefore_append c generatedByRow r
  have hout : (g.map fun r =>
      next (fed s r ++ [((groupStep c generatedByRow tick g).rows r).inputTokenId])) =
      g.map fun r => next (c.inputIds r :: generatedByRow r) :=
    List.map_congr_left fun r hr => congrArg next (hfull r hr)
  refine ⟨s', ?_, ?_⟩
  · rw [computeGroup, hstep, hout]
    simp only
    rw [if_neg (by simp), foldl_update_zip]
  · intro r
    rw [hfed' r]
    by_cases hr : r ∈ g
    · rw [if_pos hr, if_pos hr, hfull r hr]
    · rw [if_neg hr, if_neg hr]

/-- The steps of a tick give every row of its groups the greedy choice after all its tokens. -/
theorem runGroups_spec (h : RowByRow step next fed maxLength) (groups : List (List (Fin n))) :
    ∀ (s : σ) (output : Fin n → ℕ),
      (∀ g ∈ groups, IsGroup (fun r => (generatedByRow r).length) g) → groups.flatten.Nodup →
      (∀ r ∈ groups.flatten, fed s r = fedBefore c generatedByRow r) →
      (∀ r ∈ groups.flatten, (generatedByRow r).length < maxLength) →
      ∃ s' output', runGroups step c generatedByRow tick groups s output = .ok (s', output') ∧
        (∀ r ∈ groups.flatten, output' r = next (c.inputIds r :: generatedByRow r)) ∧
        (∀ r, r ∉ groups.flatten → output' r = output r) ∧
        ∀ r, fed s' r =
          if r ∈ groups.flatten then c.inputIds r :: generatedByRow r else fed s r := by
  induction groups with
  | nil =>
    intro s output _ _ _ _
    exact ⟨s, output, rfl, fun r hr => absurd hr List.not_mem_nil, fun r _ => rfl, fun r => by simp⟩
  | cons g groups ih =>
    intro s output hg hnd hfed hlen
    rw [List.flatten_cons] at hnd hfed hlen
    obtain ⟨-, hnd', hdisj⟩ := List.nodup_append.mp hnd
    obtain ⟨s1, hrun1, hfed1⟩ := computeGroup_spec tick h (hg g List.mem_cons_self)
      (fun r hr => hfed r (List.mem_append_left _ hr))
      (fun r hr => hlen r (List.mem_append_left _ hr)) output
    -- the first group has none of the later rows
    have hlater : ∀ r ∈ groups.flatten, r ∉ g := fun r hr hin => hdisj r hin r hr rfl
    obtain ⟨s2, output2, hrun2, hout2, hrest2, hfed2⟩ := ih s1 _
      (fun g' hg' => hg g' (List.mem_cons_of_mem _ hg')) hnd'
      (fun r hr => by
        rw [hfed1 r, if_neg (hlater r hr)]
        exact hfed r (List.mem_append_right _ hr))
      (fun r hr => hlen r (List.mem_append_right _ hr))
    refine ⟨s2, output2, ?_, ?_, ?_, ?_⟩
    · rw [runGroups, hrun1]
      exact hrun2
    · intro r hr
      by_cases hin : r ∈ groups.flatten
      · exact hout2 r hin
      · have hrg : r ∈ g := (List.mem_append.mp hr).resolve_right hin
        rw [hrest2 r hin, if_pos hrg]
    · intro r hr
      rw [List.flatten_cons, List.mem_append, not_or] at hr
      rw [hrest2 r hr.2, if_neg hr.1]
    · intro r
      rw [hfed2 r, hfed1 r, List.flatten_cons]
      by_cases hin : r ∈ groups.flatten
      · rw [if_pos hin, if_pos (List.mem_append_right _ hin)]
      · rw [if_neg hin]
        by_cases hrg : r ∈ g
        · rw [if_pos hrg, if_pos (List.mem_append_left _ hrg)]
        · rw [if_neg hrg, if_neg (by simp only [List.mem_append, hrg, hin, or_self,
            not_false_eq_true])]

end

/-! ### The end of a tick -/

def Again (c : Request n) (p : Progress n) (output : Fin n → ℕ) (r : Fin n) : Prop :=
  p.done r = false ∧ output r ∉ c.eosSet ∧ (p.generatedByRow r).length + 1 < c.maxNewTokens

theorem commitRow_active (c : Request n) (output : Fin n → ℕ) {p : Progress n}
    (hset : p.activeSet = p.active.toFinset) (r : Fin n) :
    (commitRow c output p r).activeSet = (commitRow c output p r).active.toFinset ∧
      ∀ r', r' ∈ (commitRow c output p r).active ↔
        r' ∈ p.active ∨ r' = r ∧ Again c p output r := by
  have hagain : ((p.done r || decide (output r ∈ c.eosSet)) = false ∧
      (p.generatedByRow r ++ [output r]).length < c.maxNewTokens) ↔ Again c p output r := by
    simp [Again, and_assoc]
  simp only [commitRow]
  split
  · next ha =>
    have hag := hagain.mp ha
    constructor
    · rw [hset]
      ext r'
      simp
    · intro r'
      simp [hag]
  · next ha =>
    have hag : ¬Again c p output r := fun h => ha (hagain.mpr h)
    exact ⟨hset, fun r' => by simp [hag]⟩

theorem foldl_commitRow (c : Request n) (output : Fin n → ℕ) (rows : List (Fin n)) :
    ∀ p : Progress n, rows.Nodup → p.activeSet = p.active.toFinset → p.active.Nodup →
      (∀ r ∈ rows, r ∉ p.active) →
      (∀ r, (rows.foldl (commitRow c output) p).generatedByRow r =
        if r ∈ rows then p.generatedByRow r ++ [output r] else p.generatedByRow r) ∧
      (∀ r, (rows.foldl (commitRow c output) p).done r = true ↔
        p.done r = true ∨ r ∈ rows ∧ output r ∈ c.eosSet) ∧
      (rows.foldl (commitRow c output) p).activeSet =
        (rows.foldl (commitRow c output) p).active.toFinset ∧
      (rows.foldl (commitRow c output) p).active.Nodup ∧
      ∀ r, r ∈ (rows.foldl (commitRow c output) p).active ↔
        r ∈ p.active ∨ r ∈ rows ∧ Again c p output r := by
  induction rows with
  | nil => intro p _ hset hnd _; simp [hset, hnd]
  | cons a rows ih =>
    intro p hnd hset hact hnew
    obtain ⟨ha, hnd⟩ := List.nodup_cons.mp hnd
    obtain ⟨hset', hmem'⟩ := commitRow_active c output hset a
    have hact' : (commitRow c output p a).active.Nodup := by
      simp only [commitRow]
      split
      · exact hact.append (List.nodup_singleton a)
          (by simpa using hnew a List.mem_cons_self)
      · exact hact
    have hnew' : ∀ r ∈ rows, r ∉ (commitRow c output p a).active := by
      intro r hr hin
      rcases (hmem' r).mp hin with hin | ⟨rfl, -⟩
      · exact hnew r (List.mem_cons_of_mem _ hr) hin
      · exact ha hr
    -- the first row does not touch what the later ones read
    have hgen : ∀ r, r ≠ a →
        (commitRow c output p a).generatedByRow r = p.generatedByRow r := fun r hr =>
      Function.update_of_ne hr _ _
    have hdone : ∀ r, r ≠ a → (commitRow c output p a).done r = p.done r := fun r hr =>
      Function.update_of_ne hr _ _
    have hagain : ∀ r, r ≠ a → (Again c (commitRow c output p a) output r ↔ Again c p output r) :=
      fun r hr => by rw [Again, Again, hgen r hr, hdone r hr]
    obtain ⟨h1, h2, h3, h4, h5⟩ := ih _ hnd hset' hact' hnew'
    rw [List.foldl_cons]
    refine ⟨?_, ?_, h3, h4, ?_⟩
    · intro r
      rw [h1 r]
      by_cases hra : r = a
      · subst hra
        rw [if_neg ha, if_pos List.mem_cons_self]
        exact Function.update_self _ _ _
      · simp only [hgen r hra, List.mem_cons, hra, false_or]
    · intro r
      rw [h2 r]
      by_cases hra : r = a
      · subst hra
        simp [ha, commitRow]
      · simp [hdone r hra, hra]
    · intro r
      rw [h5 r, hmem' r]
      by_cases hra : r = a
      · subst hra
        simp [ha]
      · simp [hra, hagain r hra]

end BloomBee.LateArrival

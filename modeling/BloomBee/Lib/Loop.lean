import Mathlib.Order.Basic

/-! A `while` loop with `continue`, `break` and exceptions, and the rule for its total
correctness: an invariant and a variant that every turn lowers. -/

set_option autoImplicit false

namespace BloomBee.Loop

inductive Turn (σ ε : Type) where
  | next (s : σ)
  | stop (s : σ)
  | raise (e : ε)

variable {σ ε : Type}

/-- `none` when the turns run out. -/
def run (body : σ → Turn σ ε) : ℕ → σ → Option (Except ε σ)
  | 0, _ => none
  | fuel + 1, s =>
    match body s with
    | .next s' => run body fuel s'
    | .stop s' => some (.ok s')
    | .raise e => some (.error e)

theorem run_mono {body : σ → Turn σ ε} {fuel fuel' : ℕ} {s : σ} {r : Except ε σ}
    (h : run body fuel s = some r) (hle : fuel ≤ fuel') : run body fuel' s = some r := by
  induction fuel generalizing fuel' s with
  | zero => cases h
  | succ fuel ih =>
    obtain ⟨fuel', rfl⟩ : ∃ f, fuel' = f + 1 := ⟨fuel' - 1, by omega⟩
    rw [run] at h ⊢
    split at h
    · exact ih h (Nat.le_of_succ_le_succ hle)
    · exact h
    · exact h

/-- A loop whose turns keep `inv` and lower `variant` ends within `variant` further turns, in a
state with `post`. -/
theorem run_total {body : σ → Turn σ ε} {inv post : σ → Prop} (variant : σ → ℕ)
    (hbody : ∀ s, inv s →
      (∃ s', body s = .next s' ∧ inv s' ∧ variant s' < variant s) ∨
      ∃ s', body s = .stop s' ∧ post s') :
    ∀ (k : ℕ) (s : σ), inv s → variant s ≤ k →
      ∃ s', post s' ∧ ∀ fuel > k, run body fuel s = some (.ok s') := by
  intro k
  induction k with
  | zero =>
    intro s hi hk
    rcases hbody s hi with ⟨s', -, -, hlt⟩ | ⟨s', hb, hp⟩
    · omega
    · refine ⟨s', hp, fun fuel hf => ?_⟩
      obtain ⟨fuel, rfl⟩ := Nat.exists_eq_add_of_lt hf
      simp [run, hb]
  | succ k ih =>
    intro s hi hk
    rcases hbody s hi with ⟨s', hb, hi', hlt⟩ | ⟨s', hb, hp⟩
    · obtain ⟨s'', hp, hrun⟩ := ih s' hi' (by omega)
      refine ⟨s'', hp, fun fuel hf => ?_⟩
      obtain ⟨fuel, rfl⟩ : ∃ f, fuel = f + 1 := ⟨fuel - 1, by omega⟩
      rw [run, hb]
      exact hrun fuel (by omega)
    · refine ⟨s', hp, fun fuel hf => ?_⟩
      obtain ⟨fuel, rfl⟩ : ∃ f, fuel = f + 1 := ⟨fuel - 1, by omega⟩
      rw [run, hb]

/-- Two loops whose turns keep a relation and go on or stop together end together. -/
theorem run_lockstep {σ' ε' : Type} {body : σ → Turn σ ε} {body' : σ' → Turn σ' ε'}
    {rel : σ → σ' → Prop}
    (hbody : ∀ s s', rel s s' →
      (∃ t t', body s = .next t ∧ body' s' = .next t' ∧ rel t t') ∨
      ∃ t t', body s = .stop t ∧ body' s' = .stop t' ∧ rel t t')
    (fuel : ℕ) {s : σ} {s' : σ'} (h : rel s s') :
    (run body fuel s = none ∧ run body' fuel s' = none) ∨
      ∃ t t', run body fuel s = some (.ok t) ∧ run body' fuel s' = some (.ok t') ∧ rel t t' := by
  induction fuel generalizing s s' with
  | zero => exact .inl ⟨rfl, rfl⟩
  | succ fuel ih =>
    rcases hbody s s' h with ⟨t, t', hb, hb', ht⟩ | ⟨t, t', hb, hb', ht⟩
    · simpa only [run, hb, hb'] using ih ht
    · exact .inr ⟨t, t', by rw [run, hb], by rw [run, hb'], ht⟩

/-! ### The states on the way -/

inductive Reaches (body : σ → Turn σ ε) (s : σ) : σ → Prop where
  | refl : Reaches body s s
  | tail {s' s'' : σ} (h : Reaches body s s') (hturn : body s' = .next s'') : Reaches body s s''

variable {body : σ → Turn σ ε} {s s' s'' : σ}

theorem Reaches.trans (h : Reaches body s s') (h' : Reaches body s' s'') : Reaches body s s'' := by
  induction h' with
  | refl => exact h
  | tail _ hturn ih => exact ih.tail hturn

theorem Reaches.head (hturn : body s = .next s') (h : Reaches body s' s'') : Reaches body s s'' :=
  (Reaches.refl.tail hturn).trans h

theorem Reaches.eq_or_head (h : Reaches body s s'') :
    s'' = s ∨ ∃ s', body s = .next s' ∧ Reaches body s' s'' := by
  induction h with
  | refl => exact .inl rfl
  | @tail t t' _ hturn ih =>
    rcases ih with rfl | ⟨s', hs', h⟩
    · exact .inr ⟨t', hturn, .refl⟩
    · exact .inr ⟨s', hs', h.tail hturn⟩

/-- Of two states on the way one is reached from the other. -/
theorem Reaches.total {t : σ} (h : Reaches body s s') (h' : Reaches body s t) :
    Reaches body s' t ∨ Reaches body t s' := by
  induction h with
  | refl => exact .inl h'
  | @tail u v hu hturn ih =>
    rcases ih with h | h
    · rcases h.eq_or_head with rfl | ⟨v', hv', h⟩
      · exact .inr (Reaches.refl.tail hturn)
      · obtain rfl := Turn.next.inj (hturn.symm.trans hv')
        exact .inl h
    · exact .inr (h.tail hturn)

/-- A loop that ends goes on from every state on its way. -/
theorem Reaches.run {fuel : ℕ} {r : Except ε σ} (h : Reaches body s s')
    (hrun : run body fuel s = some r) : ∃ fuel', run body fuel' s' = some r := by
  induction h with
  | refl => exact ⟨fuel, hrun⟩
  | tail _ hturn ih =>
    obtain ⟨fuel', hrun⟩ := ih
    rcases fuel' with - | fuel'
    · cases hrun
    · rw [Loop.run, hturn] at hrun
      exact ⟨fuel', hrun⟩

/-- The last turn of a loop that ends without an error. -/
theorem exists_stop {fuel : ℕ} (h : run body fuel s = some (.ok s'')) :
    ∃ s', Reaches body s s' ∧ body s' = .stop s'' := by
  induction fuel generalizing s with
  | zero => cases h
  | succ fuel ih =>
    rw [run] at h
    split at h
    · rename_i t hturn
      obtain ⟨s', hreach, hstop⟩ := ih h
      exact ⟨s', .head hturn hreach, hstop⟩
    · rename_i t hturn
      obtain rfl := Except.ok.inj (Option.some.inj h)
      exact ⟨s, .refl, hturn⟩
    · cases h

end BloomBee.Loop

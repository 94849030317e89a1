import Mathlib.Data.List.Basic

/-! Computations that may fail: what is known of the parts of one that returned, what one can
raise, and a list of them that all return. -/

set_option autoImplicit false

namespace Fallible

variable {ε α β : Type}

theorem bind_eq_ok {x : Except ε α} {f : α → Except ε β} {b : β} (h : (x >>= f) = .ok b) :
    ∃ a, x = .ok a ∧ f a = .ok b := by
  rcases x with e | a
  · cases h
  · exact ⟨a, rfl, h⟩

@[simp] theorem ok_bind (a : α) (f : α → Except ε β) : (.ok a : Except ε α) >>= f = f a := rfl

/-- Every error of `x` satisfies `S`. -/
def RaisesOnly (S : ε → Prop) (x : Except ε α) : Prop := ∀ e, x = .error e → S e

section RaisesOnly

variable {S : ε → Prop}

theorem RaisesOnly.ok (a : α) : RaisesOnly S (.ok a : Except ε α) := fun _ h => by cases h

theorem RaisesOnly.error {e : ε} (h : S e) : RaisesOnly S (.error e : Except ε α) := by
  intro e' he
  obtain rfl := Except.error.inj he
  exact h

theorem RaisesOnly.bind {x : Except ε α} {f : α → Except ε β} (hx : RaisesOnly S x)
    (hf : ∀ a, x = .ok a → RaisesOnly S (f a)) : RaisesOnly S (x >>= f) := by
  rcases x with e | a
  · intro e' he
    obtain rfl := Except.error.inj he
    exact hx e rfl
  · exact hf a rfl

end RaisesOnly

theorem mapM_eq_ok {f : α → Except ε β} {g : α → β} {xs : List α}
    (h : ∀ a ∈ xs, f a = .ok (g a)) : xs.mapM f = .ok (xs.map g) := by
  induction xs with
  | nil => rfl
  | cons a xs ih =>
    obtain ⟨ha, hxs⟩ := List.forall_mem_cons.mp h
    rw [List.mapM_cons, ha, ih hxs]
    rfl

/-- A list of computations that return or raise `e` raises `e` if one of them does. -/
theorem mapM_eq_error {f : α → Except ε β} {e : ε} {xs : List α}
    (h : ∀ a ∈ xs, (∃ b, f a = .ok b) ∨ f a = .error e) (hx : ∃ a ∈ xs, f a = .error e) :
    xs.mapM f = .error e := by
  induction xs with
  | nil =>
    obtain ⟨a, ha, -⟩ := hx
    exact absurd ha List.not_mem_nil
  | cons a xs ih =>
    obtain ⟨ha, hxs⟩ := List.forall_mem_cons.mp h
    rw [List.mapM_cons]
    rcases ha with ⟨b, ha⟩ | ha
    · obtain ⟨a', ha', hf⟩ := hx
      have hrest : ∃ a ∈ xs, f a = .error e := by
        rcases List.mem_cons.mp ha' with rfl | ha'
        · rw [ha] at hf
          cases hf
        · exact ⟨a', ha', hf⟩
      rw [ha, ih hxs hrest]
      rfl
    · rw [ha]
      rfl

theorem eq_map_of_mapM {f : α → Except ε β} {g : α → β} (hg : ∀ a b, f a = .ok b → b = g a)
    {xs : List α} : ∀ {ys : List β}, xs.mapM f = .ok ys → ys = xs.map g := by
  induction xs with
  | nil =>
    intro ys h
    exact (Except.ok.inj h).symm
  | cons a xs ih =>
    intro ys h
    rw [List.mapM_cons] at h
    obtain ⟨b, ha, h⟩ := bind_eq_ok h
    obtain ⟨bs, hxs, h⟩ := bind_eq_ok h
    rw [← Except.ok.inj h, List.map_cons, hg a b ha, ih hxs]

/-! ### Lists of options -/

theorem mapM_eq_some_iff {f : α → Option β} {xs : List α} {ys : List β} :
    xs.mapM f = some ys ↔ xs.map f = ys.map some := by
  induction xs generalizing ys with
  | nil => cases ys <;> simp
  | cons x xs ih =>
    rw [List.mapM_cons, List.map_cons]
    cases hx : f x with
    | none => cases ys <;> simp
    | some y =>
      have hbind : (some y >>= fun b => xs.mapM f >>= fun bs => pure (b :: bs)) = some ys ↔
          ∃ bs, xs.mapM f = some bs ∧ y :: bs = ys := by
        simp [Option.bind_eq_some_iff]
      rw [hbind]
      cases ys with
      | nil => simp
      | cons y' ys => simp [ih, and_comm]

/-- If `f` is defined at every entry, it is on the list, and what holds of the values there holds
of the entries of the result. -/
theorem mapM_total {f : α → Option β} : ∀ {l : List α} {g : ℕ → β → Prop},
    (∀ i x, l[i]? = some x → ∃ y, f x = some y ∧ g i y) →
      ∃ ys, l.mapM f = some ys ∧ ys.length = l.length ∧ ∀ i y, ys[i]? = some y → g i y
  | [], _, _ => ⟨[], rfl, rfl, fun i y h => by cases h⟩
  | x :: l, g, h => by
    obtain ⟨y, hy, hgy⟩ := h 0 x rfl
    obtain ⟨ys, hys, hlen, hg⟩ := @mapM_total f l (fun i => g (i + 1)) fun i x hx =>
      h (i + 1) x hx
    refine ⟨y :: ys, by simp [hy, hys], by simp [hlen], fun i z hz => ?_⟩
    cases i with
    | zero => cases hz; exact hgy
    | succ i => exact hg i z hz

end Fallible

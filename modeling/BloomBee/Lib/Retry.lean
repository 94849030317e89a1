import Mathlib.Data.List.Basic
import Mathlib.Data.Nat.Notation

/-! Attempts at pieces of work one after another, each of which gives up after a number of
failures in a row. -/

set_option autoImplicit false

namespace Retry

variable {α : Type}

/-- The attempts get `n` pieces done, the first of them with `k` failures behind it, and none
fails `maxRetries` times in a row. Whether an attempt succeeds may depend on how many failed
before it at the same piece. -/
def endures (succeeds : ℕ → α → Bool) (maxRetries : Option ℕ) : ℕ → ℕ → List α → Bool
  | 0, _, _ => true
  | _ + 1, _, [] => false
  | n + 1, k, a :: attempts =>
    if succeeds k a then endures succeeds maxRetries n 0 attempts
    else decide (maxRetries ≠ some (k + 1)) && endures succeeds maxRetries (n + 1) (k + 1) attempts

variable {succeeds : ℕ → α → Bool} {maxRetries : Option ℕ} {n k : ℕ} {a : α} {attempts : List α}

theorem endures_nil (h : endures succeeds maxRetries n k [] = true) : n = 0 := by
  rcases n with - | n
  · rfl
  · cases h

theorem endures_of_success (h : endures succeeds maxRetries (n + 1) k (a :: attempts) = true)
    (ha : succeeds k a = true) : endures succeeds maxRetries n 0 attempts = true := by
  rwa [endures, if_pos ha] at h

theorem endures_of_failure (h : endures succeeds maxRetries (n + 1) k (a :: attempts) = true)
    (ha : ¬ succeeds k a = true) : maxRetries ≠ some (k + 1) ∧
      endures succeeds maxRetries (n + 1) (k + 1) attempts = true := by
  rwa [endures, if_neg ha, Bool.and_eq_true, decide_eq_true_iff] at h

/-- What is enough for `n` pieces is enough for fewer. -/
theorem endures_mono (attempts : List α) : ∀ {n m k : ℕ}, m ≤ n →
    endures succeeds maxRetries n k attempts = true →
    endures succeeds maxRetries m k attempts = true := by
  induction attempts with
  | nil =>
    intro n m k hm h
    obtain rfl := endures_nil h
    obtain rfl := Nat.le_zero.mp hm
    rfl
  | cons a attempts ih =>
    intro n m k hm h
    rcases m with - | m
    · rfl
    obtain ⟨n, rfl⟩ := Nat.exists_eq_add_of_le' (Nat.lt_of_lt_of_le (Nat.succ_pos m) hm)
    rw [endures]
    split_ifs with ha
    · exact ih (Nat.le_of_succ_le_succ hm) (endures_of_success h ha)
    · obtain ⟨hmax, h⟩ := endures_of_failure h ha
      rw [Bool.and_eq_true, decide_eq_true_iff]
      exact ⟨hmax, ih hm h⟩

/-- Fewer failures behind an attempt do no harm, if they make no success less likely. -/
theorem endures_antitone (hsucceeds : ∀ (j k : ℕ) (a : α), j ≤ k → succeeds k a = true →
    succeeds j a = true) (attempts : List α) : ∀ {n j k : ℕ}, j ≤ k →
    (∀ m ∈ maxRetries, 0 < m → k < m) → endures succeeds maxRetries n k attempts = true →
    endures succeeds maxRetries n j attempts = true := by
  induction attempts with
  | nil =>
    intro n j k _ _ h
    obtain rfl := endures_nil h
    rfl
  | cons a attempts ih =>
    intro n j k hjk hk h
    rcases n with - | n
    · rfl
    rw [endures]
    by_cases ha : succeeds k a = true
    · rw [if_pos (hsucceeds j k a hjk ha)]
      exact endures_of_success h ha
    · obtain ⟨hmax, h⟩ := endures_of_failure h ha
      have hk' : ∀ m ∈ maxRetries, 0 < m → k + 1 < m := by
        intro m hm h0
        have := hk m hm h0
        have : m ≠ k + 1 := fun h => hmax (h ▸ hm)
        omega
      split_ifs with ha'
      · exact endures_mono attempts (Nat.le_succ n) (ih (Nat.zero_le _) hk' h)
      · rw [Bool.and_eq_true, decide_eq_true_iff]
        refine ⟨fun hm => ?_, ih (Nat.succ_le_succ hjk) hk' h⟩
        have := hk' _ hm (Nat.succ_pos j)
        omega

/-! ### Loops over attempts -/

/-- What a loop over attempts returns satisfies `P`, and it returns if the attempts endure: at
most `left` pieces are to be done, the first of them with `k` failures behind it. -/
structure Meets {ε ρ : Type} (succeeds : ℕ → α → Bool) (maxRetries : Option ℕ) (P : ρ → Prop)
    (left k : ℕ) (attempts : List α) (r : Except ε ρ) : Prop where
  exact : ∀ f, r = .ok f → P f
  returns : ∀ n, left ≤ n → (∀ m ∈ maxRetries, 0 < m → k < m) →
    endures succeeds maxRetries n k attempts = true → ∃ f, r = .ok f

section

variable {ε ρ : Type} {P : ρ → Prop} {left left' : ℕ} {r : Except ε ρ}

theorem Meets.done {f : ρ} (hf : P f) :
    Meets succeeds maxRetries P left k attempts (.ok f : Except ε ρ) := by
  refine ⟨fun g hg => ?_, fun _ _ _ _ => ⟨f, rfl⟩⟩
  obtain rfl := Except.ok.inj hg
  exact hf

theorem Meets.pending {e : ε} (hleft : 0 < left) :
    Meets succeeds maxRetries P left k [] (.error e : Except ε ρ) := by
  refine ⟨fun f hf => (by cases hf), fun n hn _ hendures => ?_⟩
  have hnone := endures_nil hendures
  omega

theorem Meets.failure {e : ε} (ha : ¬ succeeds k a = true) (hleft : 0 < left)
    (h : Meets succeeds maxRetries P left (k + 1) attempts r) :
    Meets succeeds maxRetries P left k (a :: attempts)
      (if maxRetries = some (k + 1) then .error e else r) := by
  by_cases hmax : maxRetries = some (k + 1)
  · rw [if_pos hmax]
    refine ⟨fun f hf => (by cases hf), fun n hn _ hendures => ?_⟩
    obtain ⟨n, rfl⟩ : ∃ m, n = m + 1 := ⟨n - 1, by omega⟩
    exact absurd hmax (endures_of_failure hendures ha).1
  · rw [if_neg hmax]
    refine ⟨h.exact, fun n hn hvalid hendures => h.returns n hn ?_ ?_⟩
    · intro m hm h0
      have hlt := hvalid m hm h0
      have hne : m ≠ k + 1 := fun h => hmax (h ▸ hm)
      omega
    · obtain ⟨n, rfl⟩ : ∃ m, n = m + 1 := ⟨n - 1, by omega⟩
      exact (endures_of_failure hendures ha).2

/-- A piece is done, even if the attempt does not count as a success. -/
theorem Meets.success (hsucceeds : ∀ (j k : ℕ) (a : α), j ≤ k → succeeds k a = true →
    succeeds j a = true) (hleft : left' < left)
    (h : Meets succeeds maxRetries P left' 0 attempts r) :
    Meets succeeds maxRetries P left k (a :: attempts) r := by
  refine ⟨h.exact, fun n hn hvalid hendures => ?_⟩
  obtain ⟨n, rfl⟩ : ∃ m, n = m + 1 := ⟨n - 1, by omega⟩
  refine h.returns n (by omega) (fun m _ h0 => h0) ?_
  by_cases ha : succeeds k a = true
  · exact endures_of_success hendures ha
  · -- the count is a piece behind, and this failure does it no harm
    obtain ⟨hmax, hendures⟩ := endures_of_failure hendures ha
    have hvalid' : ∀ m ∈ maxRetries, 0 < m → k + 1 < m := by
      intro m hm h0
      have hlt := hvalid m hm h0
      have hne : m ≠ k + 1 := fun h => hmax (h ▸ hm)
      omega
    exact endures_mono attempts (Nat.le_succ n)
      (endures_antitone hsucceeds attempts (Nat.zero_le _) hvalid' hendures)

end

end Retry

import Mathlib.Data.List.Induction

/-! Machines that take one event after the other and may refuse it, and the rule for what holds
after any run of them. -/

set_option autoImplicit false

namespace Runs

variable {σ ε : Type*} {step : σ → ε → Option σ} {s s' : σ} {events : List ε} {e : ε}

def run (step : σ → ε → Option σ) (s : σ) (events : List ε) : Option σ := events.foldlM step s

@[simp] theorem run_nil : run step s [] = some s := rfl

theorem run_concat_eq_some {s'' : σ} : run step s (events ++ [e]) = some s'' ↔
    ∃ s', run step s events = some s' ∧ step s' e = some s'' := by
  unfold run
  simp [List.foldlM_append, Option.bind_eq_some_iff]

/-- What holds at first and is kept by every step holds after any run; it may speak of the
events so far. -/
theorem run_invariant (inv : List ε → σ → Prop) (hinit : inv [] s)
    (hstep : ∀ events s' e s'', inv events s' → step s' e = some s'' → inv (events ++ [e]) s'')
    (hrun : run step s events = some s') : inv events s' := by
  induction events using List.reverseRecOn generalizing s' with
  | nil =>
    obtain rfl := Option.some.inj hrun
    exact hinit
  | append_singleton events e ih =>
    obtain ⟨t, ht, hlast⟩ := run_concat_eq_some.mp hrun
    exact hstep events t e s' (ih ht) hlast

/-- Every step of the run is taken where `P` allows it. -/
def Along (step : σ → ε → Option σ) (P : σ → ε → Prop) (s : σ) (events : List ε) : Prop :=
  ∀ before e after s' s'', events = before ++ e :: after → run step s before = some s' →
    step s' e = some s'' → P s' e

variable {P Q : σ → ε → Prop}

theorem along_nil : Along step P s [] := by
  intro before e after s' s'' hsplit
  exact absurd hsplit.symm (List.append_ne_nil_of_right_ne_nil before (List.cons_ne_nil e after))

theorem along_cons (he : P s e) (h : ∀ s', step s e = some s' → Along step P s' events) :
    Along step P s (e :: events) := by
  intro before f after s' s'' hsplit hrun hstep
  rcases before with - | ⟨e', before⟩
  · obtain ⟨rfl, rfl⟩ := List.cons.inj hsplit
    obtain rfl := Option.some.inj hrun
    exact he
  · obtain ⟨rfl, rfl⟩ := List.cons.inj hsplit
    obtain ⟨t, ht, hrun⟩ := Option.bind_eq_some_iff.mp hrun
    exact h t ht before f after s' s'' rfl hrun hstep

theorem along_of_forall {A : ε → Prop} (h : ∀ e ∈ events, A e) :
    Along step (fun _ e => A e) s events := by
  intro before e after s' s'' hsplit _ _
  refine h e ?_
  rw [hsplit]
  exact List.mem_append_right before List.mem_cons_self

/-- `Along`, by going through the run. -/
def check (step : σ → ε → Option σ) (P : σ → ε → Prop) [∀ s e, Decidable (P s e)] :
    σ → List ε → Bool
  | _, [] => true
  | s, e :: events =>
    decide (P s e) && match step s e with
      | none => true
      | some s' => check step P s' events

theorem along_of_check [∀ s e, Decidable (P s e)] :
    ∀ {events : List ε} {s : σ}, check step P s events = true → Along step P s events := by
  intro events
  induction events with
  | nil => exact fun _ => along_nil
  | cons e events ih =>
    intro s h
    rw [check, Bool.and_eq_true, decide_eq_true_iff] at h
    refine along_cons h.1 fun s' hs => ih ?_
    have hrest := h.2
    rw [hs] at hrest
    exact hrest

theorem Along.init (h : Along step P s (events ++ [e])) : Along step P s events := by
  intro before e' after s' s'' hsplit
  refine h before e' (after ++ [e]) s' s'' ?_
  rw [hsplit, List.append_assoc, List.cons_append]

/-- The rule for runs whose steps are taken where `P` allows them. -/
theorem run_invariant_along {inv : σ → Prop} (hinit : inv s)
    (hstep : ∀ s' e s'', inv s' → P s' e → step s' e = some s'' → inv s'')
    (hP : Along step P s events) (hrun : run step s events = some s') : inv s' := by
  induction events using List.reverseRecOn generalizing s' with
  | nil =>
    obtain rfl := Option.some.inj hrun
    exact hinit
  | append_singleton events e ih =>
    obtain ⟨t, ht, hlast⟩ := run_concat_eq_some.mp hrun
    exact hstep t e s' (ih hP.init ht) (hP events e [] t s' rfl ht hlast) hlast

/-- What `P` allows is also allowed by `Q`, where an invariant sees to it. -/
theorem Along.imp {inv : σ → Prop} (hP : Along step P s events) (hinit : inv s)
    (hstep : ∀ s' e s'', inv s' → P s' e → step s' e = some s'' → inv s'' ∧ Q s' e) :
    Along step Q s events := by
  intro before e after s' s'' hsplit hrun hs
  have hbefore : Along step P s before := by
    intro before' e' after' t t' hsplit'
    refine hP before' e' (after' ++ e :: after) t t' ?_
    rw [hsplit, hsplit', List.append_assoc, List.cons_append]
  have hinv : inv s' := run_invariant_along hinit
    (fun s' e s'' h he hs => (hstep s' e s'' h he hs).1) hbefore hrun
  exact (hstep s' e s'' hinv (hP before e after s' s'' hsplit hrun hs) hs).2

def Always (step : σ → ε → Option σ) (R : σ → Prop) (s : σ) (events : List ε) : Prop :=
  ∀ before after s', events = before ++ after → run step s before = some s' → R s'

/-- Where every step from a state with `R` keeps it just when `P` allows the step, all states of
a run have it just when all its steps are allowed. -/
theorem always_iff_along {R : σ → Prop} (hinit : R s)
    (hstep : ∀ s' e s'', R s' → step s' e = some s'' → (R s'' ↔ P s' e)) :
    Always step R s events ↔ Along step P s events := by
  constructor
  · intro h before e after s' s'' hsplit hrun hs
    refine (hstep s' e s'' (h before (e :: after) s' hsplit hrun) hs).mp ?_
    refine h (before ++ [e]) after s'' ?_ (run_concat_eq_some.mpr ⟨s', hrun, hs⟩)
    rw [hsplit, List.append_assoc, List.singleton_append]
  · intro h before after s' hsplit hrun
    refine run_invariant_along hinit (fun s' e s'' hr he hs => (hstep s' e s'' hr hs).mpr he) ?_ hrun
    intro before' e after' t t' hsplit'
    refine h before' e (after' ++ after) t t' ?_
    rw [hsplit, hsplit', List.append_assoc, List.cons_append]

end Runs

import Mathlib.Logic.Basic

/-! Computations with a log that is kept when they fail, and the rules for what is in the log. -/

set_option autoImplicit false

namespace BloomBee

structure Logged (ω ε α : Type) where
  log : List ω
  result : Except ε α

namespace Logged

variable {ω ε α β : Type}

def pure (a : α) : Logged ω ε α := ⟨[], .ok a⟩

def fail (e : ε) : Logged ω ε α := ⟨[], .error e⟩

def bind (t : Logged ω ε α) (f : α → Logged ω ε β) : Logged ω ε β :=
  match t.result with
  | .ok a => ⟨t.log ++ (f a).log, (f a).result⟩
  | .error e => ⟨t.log, .error e⟩

/-- A failure is dropped, and the computation goes on with `a`. -/
def recover (t : Logged ω ε α) (a : α) : Logged ω ε α :=
  match t.result with
  | .ok _ => t
  | .error _ => ⟨t.log, .ok a⟩

/-- Every entry of the log satisfies `P`, and the value, when there is one, `Q`. -/
structure Satisfies (P : ω → Prop) (Q : α → Prop) (t : Logged ω ε α) : Prop where
  entry : ∀ w ∈ t.log, P w
  value : ∀ a, t.result = .ok a → Q a

def Refused (t : Logged ω ε α) : Prop := t.log = [] ∧ ∃ e, t.result = .error e

variable {P : ω → Prop} {Q : α → Prop} {R : β → Prop}

theorem satisfies_pure {a : α} (h : Q a) : (pure a : Logged ω ε α).Satisfies P Q where
  entry := by
    intro w hw
    cases hw
  value := by
    intro b hb
    cases hb
    exact h

theorem satisfies_fail (e : ε) : (fail e : Logged ω ε α).Satisfies P Q where
  entry := by
    intro w hw
    cases hw
  value := by
    intro b hb
    cases hb

theorem Satisfies.bind {t : Logged ω ε α} {f : α → Logged ω ε β} (ht : t.Satisfies P Q)
    (hf : ∀ a, Q a → (f a).Satisfies P R) : (t.bind f).Satisfies P R := by
  rw [Logged.bind]
  cases hr : t.result with
  | error e => exact ⟨ht.entry, fun b hb => by cases hb⟩
  | ok a =>
    have ha := hf a (ht.value a hr)
    refine ⟨fun w hw => ?_, ha.value⟩
    rcases List.mem_append.mp hw with hw | hw
    · exact ht.entry w hw
    · exact ha.entry w hw

theorem Satisfies.recover {t : Logged ω ε α} {a : α} (ht : t.Satisfies P Q) (h : Q a) :
    (t.recover a).Satisfies P Q := by
  rw [Logged.recover]
  cases hr : t.result with
  | ok b => exact ht
  | error e =>
    refine ⟨ht.entry, fun b hb => ?_⟩
    cases hb
    exact h

theorem refused_fail (e : ε) : (fail e : Logged ω ε α).Refused := ⟨rfl, e, rfl⟩

theorem Refused.satisfies {t : Logged ω ε α} (h : t.Refused) : t.Satisfies P Q := by
  obtain ⟨hlog, e, he⟩ := h
  refine ⟨fun w hw => ?_, fun a ha => ?_⟩
  · rw [hlog] at hw
    cases hw
  · rw [he] at ha
    cases ha

theorem Refused.bind {t : Logged ω ε α} (h : t.Refused) (f : α → Logged ω ε β) :
    (t.bind f).Refused := by
  obtain ⟨hlog, e, he⟩ := h
  rw [Logged.bind, he]
  exact ⟨hlog, e, rfl⟩

theorem result_bind (t : Logged ω ε α) (f : α → Logged ω ε β) :
    (t.bind f).result = t.result.bind fun a => (f a).result := by
  rw [Logged.bind]
  cases t.result <;> rfl

theorem result_recover (t : Logged ω ε α) (a : α) :
    (t.recover a).result = .ok (t.result.toOption.getD a) := by
  rw [Logged.recover]
  cases hr : t.result with
  | ok b => exact hr
  | error e => rfl

end Logged

end BloomBee

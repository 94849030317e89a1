import BloomBee.Spec.InferenceSession

/-! One call of `_ServerInferenceSession.step` inside a step of the client. The sessions
before the step have consumed `toks`, the step brings `x`; whatever a session is sent is
the hidden states of `toks ++ x` from some position on. -/

set_option autoImplicit false

namespace BloomBee.InferenceSession

variable {τ : Type} (blocks : ℕ → Causal τ τ)

/-- The blocks before `b` as one function of the tokens. -/
def stage : ℕ → Causal τ τ
  | 0 => .id τ
  | b + 1 => (blocks b).comp (stage b)

def hidden (b : ℕ) (toks : List τ) : List τ := (stage blocks b).run toks

@[simp] theorem length_hidden (b : ℕ) (toks : List τ) :
    (hidden blocks b toks).length = toks.length := (stage blocks b).length_run toks

@[simp] theorem hidden_zero (toks : List τ) : hidden blocks 0 toks = toks := rfl

theorem hidden_succ (b : ℕ) (toks : List τ) :
    hidden blocks (b + 1) toks = (blocks b).run (hidden blocks b toks) := rfl

theorem hidden_append (b : ℕ) (toks x : List τ) :
    hidden blocks b (toks ++ x) =
      hidden blocks b toks ++ (hidden blocks b (toks ++ x)).drop toks.length :=
  (stage blocks b).run_append toks x

theorem take_hidden_append (b : ℕ) (toks x : List τ) {k : ℕ} (hk : k ≤ toks.length) :
    (hidden blocks b toks).take k ++ (hidden blocks b (toks ++ x)).drop k =
      hidden blocks b (toks ++ x) := by
  have h : (hidden blocks b (toks ++ x)).take k = (hidden blocks b toks).take k :=
    (stage blocks b).take_run_append toks x hk
  rw [← h, List.take_append_drop]

def spanCaches (span : Span) (toks : List τ) : List (List τ) :=
  (List.range' span.start (span.stop - span.start)).map fun b => hidden blocks b toks

theorem spanCaches_nil (span : Span) :
    spanCaches blocks span [] = List.replicate (span.stop - span.start) [] := by
  refine List.eq_replicate_iff.mpr ⟨by simp [spanCaches], ?_⟩
  intro c hc
  obtain ⟨b, -, rfl⟩ := List.mem_map.mp hc
  exact List.eq_nil_of_length_eq_zero (length_hidden blocks b [])

/-- Caches that hold `old` answer a copy of the later tokens with the next hidden states,
from wherever in `old` the copy starts. -/
theorem serveBlocks_hidden (old new : List τ) {start : ℕ} (hs : start ≤ old.length) :
    ∀ k b, serveBlocks blocks start b
        ((List.range' b k).map fun b => hidden blocks b old)
        ((hidden blocks b (old ++ new)).drop start) =
      ((List.range' b k).map fun b => hidden blocks b (old ++ new),
        (hidden blocks (b + k) (old ++ new)).drop start) := by
  intro k
  induction k with
  | zero => intro b; rfl
  | succ k ih =>
    intro b
    simp only [List.range'_succ, List.map_cons, serveBlocks,
      take_hidden_append blocks b old new hs]
    rw [← hidden_succ, ih (b + 1), show b + 1 + k = b + (k + 1) by omega]

/-- The session has consumed exactly the hidden states of `toks`. -/
structure Consumed (toks : List τ) (s : ServerSession τ) : Prop where
  history : s.history = some (hidden blocks s.span.start toks)
  position : s.position = toks.length
  caches : s.caches = spanCaches blocks s.span toks

structure Warm (toks : List τ) (s : ServerSession τ) : Prop extends Consumed blocks toks s where
  stepped : s.stepped = true
  closed : s.closed = false

/-- Where the hidden states that one stage hands to the next may begin. A step without
tokens hands on nothing at all. -/
def Cut (toks x : List τ) (w : ℕ) : Prop := w ≤ toks.length ∧ (x = [] → w = toks.length)

/-- A copy of the step for the session at block `b`. -/
def IsCopy (toks x : List τ) (b : ℕ) (c : ℕ × List τ) : Prop :=
  c.2 = (hidden blocks b (toks ++ x)).drop c.1 ∧ Cut toks x c.1

def Waiting (toks x : List τ) (s : ServerSession τ) : Prop :=
  Warm blocks toks s ∧ ∀ c ∈ s.pushed, IsCopy blocks toks x s.span.start c

/-- A session that is up next, when the stage before it hands on the hidden states from `w`
on. -/
inductive Ready (toks x : List τ) (w : ℕ) : ServerSession τ → Prop where
  | waiting {s : ServerSession τ} (h : Waiting blocks toks x s) : Ready toks x w s
  /-- Opened in this step, with no history: the stage before it hands on everything. -/
  | fresh {span : Span} (h : w = 0) : Ready toks x w (.create span)
  /-- Opened in place of a failed session. -/
  | heir {span : Span} (h : Cut toks x 0) :
      Ready toks x w { ServerSession.create span with
        history := some (hidden blocks span.start (toks ++ x)) }

/-- What a session that is up next does with its inputs: it has consumed `old`, its log
becomes the whole history, and every copy it may take goes on from what it has consumed. -/
structure Takes (toks x : List τ) (s : ServerSession τ) (inputs old new : List τ) : Prop where
  split : old ++ new = toks ++ x
  closed : s.closed = false
  caches : s.caches = spanCaches blocks s.span old
  position : s.position = old.length
  log : s.log inputs = hidden blocks s.span.start (toks ++ x)
  sent : s.sent inputs =
    (hidden blocks s.span.start (toks ++ x)).drop s.position
  copies : ∀ c ∈ (s.position, (hidden blocks s.span.start (toks ++ x)).drop s.position) ::
      s.pushed, IsCopy blocks toks x s.span.start c ∧ c.1 ≤ old.length
  fresh : s.stepped = false → old = []

variable {blocks} {toks x : List τ} {w : ℕ}

/-- A warm session is only sent the new tokens, whatever the stage before it answered. -/
theorem trimRecoveredHistory_drop (b : ℕ) (hw : Cut toks x w) :
    trimRecoveredHistory ((hidden blocks b (toks ++ x)).drop w) x.length toks.length =
      (hidden blocks b (toks ++ x)).drop toks.length := by
  obtain ⟨hle, hzero⟩ := hw
  have hlen : ((hidden blocks b (toks ++ x)).drop w).length = toks.length + x.length - w := by simp
  unfold trimRecoveredHistory
  split_ifs with h₁ h₂
  · rcases h₁ with h₁ | h₁
    · rw [hzero (List.eq_nil_of_length_eq_zero h₁)]
    · rw [show w = toks.length by omega]
  · rw [show w = toks.length by omega]
  · rw [lastTokens, if_neg (fun h => h₁ (.inl h)), hlen, List.drop_drop]
    congr 1
    omega

theorem trimRecoveredHistory_fresh (inputs : List τ) (n : ℕ) :
    trimRecoveredHistory inputs n 0 = inputs := by
  simp [trimRecoveredHistory]

theorem lastTokens_length (xs : List τ) : lastTokens xs.length xs = xs := by
  simp [lastTokens]

theorem Waiting.log {s : ServerSession τ} (h : Waiting blocks toks x s) :
    s.log ((hidden blocks s.span.start (toks ++ x)).drop toks.length) =
      hidden blocks s.span.start (toks ++ x) := by
  simp only [ServerSession.log, h.1.history, h.1.position, length_hidden, if_true,
    lastTokens_length]
  exact (hidden_append blocks s.span.start toks x).symm

theorem Waiting.takes {s : ServerSession τ} (h : Waiting blocks toks x s) (hw : Cut toks x w) :
    Takes blocks toks x s (trimRecoveredHistory
      ((hidden blocks s.span.start (toks ++ x)).drop w) x.length s.position) toks x := by
  rw [h.1.position, trimRecoveredHistory_drop s.span.start hw]
  refine ⟨rfl, h.1.closed, h.1.caches, h.1.position, h.log, ?_, ?_, ?_⟩
  · rw [ServerSession.sent, if_pos h.1.stepped, h.1.position]
  · intro c hc
    rcases List.mem_cons.mp hc with rfl | hc
    · exact ⟨⟨rfl, by rw [h.1.position]; exact ⟨Nat.le_refl _, fun _ => rfl⟩⟩,
        Nat.le_of_eq h.1.position⟩
    · exact ⟨h.2 c hc, (h.2 c hc).2.1⟩
  · intro hs
    rw [h.1.stepped] at hs
    cases hs

/-- A session opened in this step sends its whole log, which is the whole history. -/
theorem create_takes {span : Span} {history : Option (List τ)} {inputs : List τ}
    (hw : Cut toks x 0)
    (hlog : { ServerSession.create span with history }.log inputs =
      hidden blocks span.start (toks ++ x)) :
    Takes blocks toks x { ServerSession.create span with history } inputs [] (toks ++ x) := by
  refine ⟨rfl, rfl, (spanCaches_nil blocks span).symm, rfl, hlog, hlog, ?_, fun _ => rfl⟩
  intro c hc
  obtain rfl := List.mem_singleton.mp hc
  exact ⟨⟨rfl, hw⟩, Nat.le_refl 0⟩

theorem Ready.takes {s : ServerSession τ} (h : Ready blocks toks x w s) (hw : Cut toks x w) :
    ∃ old new, Takes blocks toks x s (trimRecoveredHistory
      ((hidden blocks s.span.start (toks ++ x)).drop w) x.length s.position) old new := by
  cases h with
  | waiting h => exact ⟨_, _, h.takes hw⟩
  | @fresh span hz =>
    subst hz
    refine ⟨_, _, create_takes hw ?_⟩
    exact trimRecoveredHistory_fresh _ _
  | @heir span hz =>
    refine ⟨_, _, create_takes hz ?_⟩
    simp only [ServerSession.log, ServerSession.create, length_hidden, trimRecoveredHistory_fresh,
      lastTokens_length]
    split_ifs with hn
    · rw [List.eq_nil_of_length_eq_zero hn]
      simp [List.eq_nil_of_length_eq_zero (length_hidden blocks span.start [])]
    · rfl

/-- A server that takes a copy ends with the caches of all tokens. -/
theorem Takes.serve {s : ServerSession τ} {inputs old new : List τ} {cfg : Config}
    (h : Takes blocks toks x s inputs old new) (hspan : s.span.start ≤ s.span.stop)
    (hroom : (toks ++ x).length ≤ cfg.maxLength) {c : ℕ × List τ}
    (hc : IsCopy blocks toks x s.span.start c) (hle : c.1 ≤ old.length) :
    s.serve cfg blocks c = some (spanCaches blocks s.span (toks ++ x),
      (hidden blocks s.span.stop (toks ++ x)).drop c.1) := by
  have hfit : ¬ cfg.maxLength < c.1 + c.2.length := by
    have := hc.2.1
    rw [hc.1, List.length_drop, length_hidden]
    simp only [List.length_append] at hroom ⊢
    omega
  rw [ServerSession.serve, if_neg hfit, h.caches, hc.1, ← h.split, spanCaches,
    serveBlocks_hidden blocks old new hle, Nat.add_sub_cancel' hspan]
  rfl

/-- What one call of `_ServerInferenceSession.step` leaves, whatever its fate: the log of the
session is the whole history, and a push is a copy for the next session. -/
structure Stepped (blocks : ℕ → Causal τ τ) (toks x : List τ) (s : ServerSession τ)
    (o : Outcome τ) : Prop where
  span : o.session.span = s.span
  history : o.session.history = some (hidden blocks s.span.start (toks ++ x))
  push : ∀ c ∈ o.push, IsCopy blocks toks x s.span.stop c

theorem Takes.taken {s : ServerSession τ} {inputs old new : List τ}
    (h : Takes blocks toks x s inputs old new) (a : Attempt) :
    IsCopy blocks toks x s.span.start (s.taken a inputs) ∧ (s.taken a inputs).1 ≤ old.length := by
  refine h.copies _ ?_
  rw [← h.sent, ServerSession.taken, List.getD_eq_getElem?_getD]
  rcases Nat.lt_or_ge a.copy (List.length ((s.position, s.sent inputs) :: s.pushed)) with ha | ha
  · rw [List.getElem?_eq_getElem ha]
    exact List.getElem_mem ha
  · rw [List.getElem?_eq_none ha]
    exact List.mem_cons_self

theorem Takes.step_fails {s : ServerSession τ} {inputs old new : List τ} {cfg : Config}
    (h : Takes blocks toks x s inputs old new) (hspan : s.span.start ≤ s.span.stop)
    (hroom : (toks ++ x).length ≤ cfg.maxLength) {a : Attempt} (ha : a.fate ≠ .answered) :
    Stepped blocks toks x s (s.step cfg blocks a inputs) ∧
      (s.step cfg blocks a inputs).answer = none := by
  obtain ⟨hc, hle⟩ := h.taken a
  have hserve := h.serve hspan hroom hc hle
  have hlog := congrArg some h.log
  cases hf : a.fate with
  | answered => exact absurd hf ha
  | unreachable =>
    simp only [ServerSession.step, h.closed, hf, Bool.false_eq_true, if_false]
    exact ⟨⟨rfl, hlog, by simp⟩, trivial⟩
  | lost =>
    simp only [ServerSession.step, h.closed, hf, Bool.false_eq_true, if_false]
    exact ⟨⟨rfl, hlog, by simp⟩, trivial⟩
  | dropped =>
    simp only [ServerSession.step, h.closed, hf, hserve, Bool.false_eq_true, if_false, reduceCtorEq]
    refine ⟨⟨rfl, hlog, ?_⟩, trivial⟩
    rintro c ⟨⟩
    exact ⟨rfl, hc.2⟩

theorem Takes.step_answers {s : ServerSession τ} {inputs old new : List τ} {cfg : Config}
    (h : Takes blocks toks x s inputs old new) (hspan : s.span.start ≤ s.span.stop)
    (hroom : (toks ++ x).length ≤ cfg.maxLength) {a : Attempt} (ha : a.fate = .answered) :
    Stepped blocks toks x s (s.step cfg blocks a inputs) ∧
      Warm blocks (toks ++ x) (s.step cfg blocks a inputs).session ∧
      ∃ w', Cut toks x w' ∧ (s.stepped = false → w' = 0) ∧
        (s.step cfg blocks a inputs).answer =
          some ((hidden blocks s.span.stop (toks ++ x)).drop w') := by
  obtain ⟨hc, hle⟩ := h.taken a
  have hserve := h.serve hspan hroom hc hle
  have hlog := congrArg some h.log
  have hpos : s.position + (s.sent inputs).length = (toks ++ x).length := by
    rw [h.sent, List.length_drop, length_hidden, h.position, ← h.split, List.length_append]
    omega
  simp only [ServerSession.step, h.closed, ha, hserve, Bool.false_eq_true, if_false, if_true]
  refine ⟨⟨rfl, hlog, ?_⟩, ⟨⟨hlog, hpos, rfl⟩, rfl, rfl⟩, (s.taken a inputs).1, hc.2, ?_, rfl⟩
  · rintro c ⟨⟩
    exact ⟨rfl, hc.2⟩
  · intro hs
    have := h.fresh hs
    subst this
    exact Nat.le_zero.mp hle

end BloomBee.InferenceSession

import BloomBee.Sanity.SessionRetry

/-! Failures of servers are transparent: over every run of `InferenceSession.step`, whatever
attempts fail and however the failed spans are replaced, the calls return what they return
without failures and every session has consumed the history of all tokens. The exception is
a step without tokens after the first token: a replaced session answers it with its whole
history, which is passed on and returned as if it were new. -/

set_option autoImplicit false

namespace BloomBee.InferenceSession

variable {τ : Type}

/-- The tokens taken in by a call; one beyond `max_length` raises at once. -/
def Config.extend (cfg : Config) (toks inputs : List τ) : List τ :=
  if cfg.maxLength < toks.length + inputs.length then toks else toks ++ inputs

def tokensSoFar (cfg : Config) (toks : List τ) (calls : List (Call τ)) : List τ :=
  calls.foldl (fun toks c => cfg.extend toks c.inputs) toks

/-- `make_sequence` tiles what it is asked for, and the call does not exhaust
`max_retries`. -/
structure Call.Admissible (cfg : Config) (c : Call τ) : Prop where
  routed : ∀ a ∈ c.attempts, a.Routed cfg
  endures : endures cfg.maxRetries cfg.numBlocks 0 c.attempts = true

def Call.FailureFree (c : Call τ) : Prop := ∀ a ∈ c.attempts, a.fate = .answered

/-- No attempt fails in a step without tokens that comes after some token. -/
def EmptyStepsFailureFree (cfg : Config) : List τ → List (Call τ) → Prop
  | _, [] => True
  | toks, c :: calls => (c.inputs = [] → toks = [] ∨ c.FailureFree) ∧
    EmptyStepsFailureFree cfg (cfg.extend toks c.inputs) calls

/-- The run returns what the other run returns, and after each step every session has
consumed exactly the history of the tokens so far. -/
def Transparent (cfg : Config) (blocks : ℕ → Causal τ τ) (calls failureFree : List (Call τ)) :
    Prop :=
  (Session.init.run cfg blocks calls).2 = (Session.init.run cfg blocks failureFree).2 ∧
    ∀ k, ∀ s ∈ (Session.init.run cfg blocks (calls.take k)).1.sessions,
      Consumed blocks (tokensSoFar cfg [] (calls.take k)) s

structure Holds (cfg : Config) (blocks : ℕ → Causal τ τ) (toks : List τ) (s : Session τ) :
    Prop where
  position : s.position = toks.length
  warm : ∀ t ∈ s.sessions, Warm blocks toks t
  covers : s.sessions = [] ∧ toks = [] ∨ Covers 0 cfg.numBlocks (s.sessions.map fun t => t.span)

/-- What a call returns, as a function of the tokens before it. -/
def expected (cfg : Config) (blocks : ℕ → Causal τ τ) (toks inputs : List τ) :
    Except Error (List τ) :=
  if cfg.maxLength < toks.length + inputs.length then .error .maximumLengthExceeded
  else .ok ((hidden blocks cfg.numBlocks (toks ++ inputs)).drop toks.length)

variable {cfg : Config} {blocks : ℕ → Causal τ τ} {toks : List τ} {s : Session τ}

theorem holds_init (cfg : Config) (blocks : ℕ → Causal τ τ) : Holds cfg blocks [] Session.init :=
  ⟨rfl, fun _ => (List.not_mem_nil · |>.elim), .inl ⟨rfl, rfl⟩⟩

/-- The loop starts from sessions to which nothing of the step was pushed yet. -/
theorem Holds.stage (h : Holds cfg blocks toks s) (x : List τ) :
    ∃ w, Cut toks x w ∧ x = (hidden blocks 0 (toks ++ x)).drop w ∧
      Stage blocks toks x w 0 cfg.numBlocks [] 0
        (s.sessions.map fun t => { t with pushed := [] }) := by
  rcases h.covers with ⟨hs, ht⟩ | hcov
  · subst ht
    refine ⟨0, ⟨Nat.le_refl 0, fun _ => rfl⟩, rfl, ?_⟩
    rw [hs]
    exact .unopened rfl rfl rfl rfl
  · refine ⟨toks.length, ⟨Nat.le_refl _, fun _ => rfl⟩, by simp, .queue ⟨?_, [], _, rfl, ?_, ?_⟩⟩
    · simpa [Function.comp_def] using hcov
    · exact fun hne => absurd rfl hne
    · intro t ht
      obtain ⟨t, hmem, rfl⟩ := List.mem_map.mp ht
      have hw := h.warm t hmem
      exact ⟨⟨⟨hw.history, hw.position, hw.caches⟩, hw.stepped, hw.closed⟩, fun c hc => by cases hc⟩

theorem lastTokens_drop {x : List τ} {w : ℕ} (b : ℕ) (hw : Cut toks x w) (hx : x.length ≠ 0) :
    lastTokens x.length ((hidden blocks b (toks ++ x)).drop w) =
      (hidden blocks b (toks ++ x)).drop toks.length := by
  have := hw.1
  rw [lastTokens, if_neg hx, List.drop_drop, List.length_drop, length_hidden, List.length_append]
  congr 1
  omega

/-- The last trim of `step` leaves the new tokens. -/
theorem step_of_finished {c : Call τ} {x : List τ} (hpos : s.position = toks.length) (hroom : ¬ cfg.maxLength < toks.length + x.length)
    (h : Finished blocks toks x cfg.numBlocks (stepLoop cfg blocks x.length c.attempts []
      (s.sessions.map fun t => { t with pushed := [] }) 0 0 x)) :
    (s.step cfg blocks c.attempts x).2 =
        .ok ((hidden blocks cfg.numBlocks (toks ++ x)).drop toks.length) ∧
      Holds cfg blocks (toks ++ x) (s.step cfg blocks c.attempts x).1 := by
  rcases hloop : stepLoop cfg blocks x.length c.attempts []
    (s.sessions.map fun t => { t with pushed := [] }) 0 0 x with ⟨sessions, result⟩
  rw [hloop] at h
  obtain ⟨hwarm, hcov, w, hw, rfl⟩ := h
  have hholds : Holds cfg blocks (toks ++ x) ⟨sessions, s.position + x.length⟩ :=
    ⟨by rw [hpos, List.length_append], hwarm, .inr hcov⟩
  have hlen : ((hidden blocks cfg.numBlocks (toks ++ x)).drop w).length =
      toks.length + x.length - w := by simp
  have hle := hw.1
  simp only [Session.step, hpos, if_neg hroom, hloop]
  rw [hpos] at hholds
  by_cases htrim : 0 < x.length ∧ x.length < toks.length + x.length - w
  · rw [hlen, if_pos htrim, lastTokens_drop _ hw (Nat.ne_of_gt htrim.1)]
    exact ⟨rfl, hholds⟩
  · have hfew : ¬ (0 < x.length ∧ toks.length + x.length - w < x.length) := by omega
    have hw' : w = toks.length := by
      by_cases h0 : x.length = 0
      · exact hw.2 (List.eq_nil_of_length_eq_zero h0)
      · omega
    rw [hlen, if_neg htrim, if_neg hfew, hw']
    exact ⟨rfl, hholds⟩

/-- One call of `step`, when its loop comes to the end. -/
theorem Holds.step_of_returns (h : Holds cfg blocks toks s) {c : Call τ}
    (hroute : ∀ a ∈ c.attempts, a.Routed cfg)
    (hreturns : endures cfg.maxRetries cfg.numBlocks 0 c.attempts = true ∨
      ∃ y, (stepLoop cfg blocks c.inputs.length c.attempts []
        (s.sessions.map fun t => { t with pushed := [] }) 0 0 c.inputs).2 = .ok y)
    (hempty : c.inputs = [] → toks = [] ∨ c.FailureFree) :
    (s.step cfg blocks c.attempts c.inputs).2 = expected cfg blocks toks c.inputs ∧
      Holds cfg blocks (cfg.extend toks c.inputs) (s.step cfg blocks c.attempts c.inputs).1 := by
  by_cases hroom : cfg.maxLength < toks.length + c.inputs.length
  · rw [expected, if_pos hroom, Config.extend, if_pos hroom, Session.step, h.position, if_pos hroom]
    exact ⟨rfl, h⟩
  rw [expected, if_neg hroom, Config.extend, if_neg hroom]
  obtain ⟨w, hw, hx, hstage⟩ := h.stage c.inputs
  refine step_of_finished h.position hroom ?_
  have hcalm : Cut toks c.inputs 0 ∨ 0 = 0 ∧ ∀ a ∈ c.attempts, a.fate = .answered := by
    by_cases hnil : c.inputs = []
    · rcases hempty hnil with rfl | hff
      · exact .inl ⟨Nat.le_refl 0, fun _ => rfl⟩
      · exact .inr ⟨rfl, hff⟩
    · exact .inl ⟨Nat.zero_le _, fun h0 => absurd h0 hnil⟩
  have hloop := stepLoop_finished (by rw [List.length_append]; omega) c.attempts cfg.numBlocks 0 []
    _ 0 w (by rwa [← hx]) (by omega) (Nat.zero_le _) hroute hcalm
    (fun t ht => (List.not_mem_nil ht).elim) rfl hw hstage
  rwa [← hx] at hloop

theorem Holds.step (h : Holds cfg blocks toks s) {c : Call τ} (hc : c.Admissible cfg)
    (hempty : c.inputs = [] → toks = [] ∨ c.FailureFree) :
    (s.step cfg blocks c.attempts c.inputs).2 = expected cfg blocks toks c.inputs ∧
      Holds cfg blocks (cfg.extend toks c.inputs) (s.step cfg blocks c.attempts c.inputs).1 :=
  h.step_of_returns hc.routed (.inl hc.endures) hempty

def expectedRun (cfg : Config) (blocks : ℕ → Causal τ τ) :
    List τ → List (List τ) → List (Except Error (List τ))
  | _, [] => []
  | toks, x :: xs => expected cfg blocks toks x :: expectedRun cfg blocks (cfg.extend toks x) xs

theorem Holds.run (calls : List (Call τ)) :
    ∀ {toks : List τ} {s : Session τ}, Holds cfg blocks toks s →
      (∀ c ∈ calls, c.Admissible cfg) → EmptyStepsFailureFree cfg toks calls →
      (s.run cfg blocks calls).2 = expectedRun cfg blocks toks (calls.map fun c => c.inputs) ∧
        Holds cfg blocks (tokensSoFar cfg toks calls) (s.run cfg blocks calls).1 := by
  induction calls with
  | nil => exact fun h _ _ => ⟨rfl, h⟩
  | cons c calls ih =>
    intro toks s h hadm hempty
    obtain ⟨hc, hadm⟩ := List.forall_mem_cons.mp hadm
    obtain ⟨hresult, hs⟩ := h.step hc hempty.1
    obtain ⟨hresults, hfinal⟩ := ih hs hadm hempty.2
    refine ⟨?_, hfinal⟩
    simp only [Session.run, List.map_cons, expectedRun]
    rw [hresult, hresults]

theorem emptyStepsFailureFree_of_failureFree {calls : List (Call τ)}
    (h : ∀ c ∈ calls, c.FailureFree) (toks : List τ) : EmptyStepsFailureFree cfg toks calls := by
  induction calls generalizing toks with
  | nil => trivial
  | cons c calls ih =>
    obtain ⟨hc, hrest⟩ := List.forall_mem_cons.mp h
    exact ⟨fun _ => .inr hc, ih hrest _⟩

theorem EmptyStepsFailureFree.take {calls : List (Call τ)} {toks : List τ}
    (h : EmptyStepsFailureFree cfg toks calls) (k : ℕ) :
    EmptyStepsFailureFree cfg toks (calls.take k) := by
  induction calls generalizing toks k with
  | nil => rwa [List.take_nil]
  | cons c calls ih =>
    rcases k with - | k
    · trivial
    · exact ⟨h.1, ih h.2 k⟩

/-- In every run in which no step exhausts `max_retries` and no step without tokens fails
once there are tokens, failures are transparent. -/
theorem failures_transparent (cfg : Config) (blocks : ℕ → Causal τ τ)
    (calls failureFree : List (Call τ))
    (hsame : (failureFree.map fun c => c.inputs) = calls.map fun c => c.inputs)
    (hcalls : ∀ c ∈ calls, c.Admissible cfg)
    (hfree : ∀ c ∈ failureFree, c.Admissible cfg ∧ c.FailureFree)
    (hempty : EmptyStepsFailureFree cfg [] calls) :
    Transparent cfg blocks calls failureFree := by
  constructor
  · have hrun := (holds_init cfg blocks).run calls hcalls hempty
    have hrun' := (holds_init cfg blocks).run failureFree (fun c hc => (hfree c hc).1)
      (emptyStepsFailureFree_of_failureFree (fun c hc => (hfree c hc).2) [])
    rw [hrun.1, hrun'.1, hsame]
  · intro k t ht
    have hadm : ∀ c ∈ calls.take k, c.Admissible cfg :=
      fun c hc => hcalls c (List.mem_of_mem_take hc)
    have hrun := (holds_init cfg blocks).run (calls.take k) hadm (hempty.take k)
    exact (hrun.2.warm t ht).toConsumed

def firstBlockApart (b e : ℕ) : List Span :=
  if b + 1 < e then [⟨b, b + 1⟩, ⟨b + 1, e⟩] else [⟨b, e⟩]

def Attempt.viaFirstBlockApart (fate : Fate) : Attempt := ⟨fate, firstBlockApart, 0⟩

theorem routed_viaFirstBlockApart (cfg : Config) (fate : Fate) :
    (Attempt.viaFirstBlockApart fate).Routed cfg := by
  intro b e hlt _
  by_cases h : b + 1 < e
  · simp [Attempt.viaFirstBlockApart, firstBlockApart, h, clampLast, Covers]
  · simp [Attempt.viaFirstBlockApart, firstBlockApart, h, clampLast, Covers, hlt]

def callsWith (calls : List (List ℕ × List Fate)) : List (Call ℕ) :=
  calls.map fun c => ⟨c.1, c.2.map Attempt.viaFirstBlockApart⟩

theorem admissible_callsWith {cfg : Config} {calls : List (List ℕ × List Fate)}
    (h : ∀ c ∈ calls, endures cfg.maxRetries cfg.numBlocks 0
      (c.2.map Attempt.viaFirstBlockApart) = true) :
    ∀ c ∈ callsWith calls, c.Admissible cfg := by
  intro c hc
  obtain ⟨c, hmem, rfl⟩ := List.mem_map.mp hc
  refine ⟨?_, h c hmem⟩
  intro a ha
  obtain ⟨fate, -, rfl⟩ := List.mem_map.mp ha
  exact routed_viaFirstBlockApart cfg fate

theorem failureFree_callsWith {calls : List (List ℕ × List Fate)}
    (h : ∀ c ∈ calls, ∀ fate ∈ c.2, fate = .answered) : ∀ c ∈ callsWith calls, c.FailureFree := by
  intro c hc a ha
  obtain ⟨c, hmem, rfl⟩ := List.mem_map.mp hc
  obtain ⟨fate, hfate, rfl⟩ := List.mem_map.mp ha
  exact h c hmem fate hfate

def addPositions (_ : ℕ) : Causal ℕ ℕ where
  run xs := xs.mapIdx fun i v => v + i
  length_run xs := List.length_mapIdx
  take_run xs k := by
    refine List.ext_getElem? fun i => ?_
    simp only [List.getElem?_take, List.getElem?_mapIdx]
    split_ifs <;> rfl

/-- The answer of the second server is lost in the second step, its span of two blocks is
taken over by two servers, and the second of these fails at first too. -/
theorem failures_transparent_replaced :
    Transparent ⟨3, 8, some 3, true⟩ addPositions
      (callsWith [([1, 2], [.unreachable, .answered, .answered, .answered]),
        ([3], [.answered, .dropped, .unreachable, .answered, .lost, .answered]),
        ([], [.answered, .answered, .answered])])
      (callsWith [([1, 2], [.answered, .answered, .answered]),
        ([3], [.answered, .answered, .answered]), ([], [.answered, .answered, .answered])]) := by
  refine failures_transparent _ _ _ _ rfl (admissible_callsWith (by decide)) ?_ ?_
  · exact fun c hc => ⟨admissible_callsWith (by decide) c hc,
      failureFree_callsWith (by decide) c hc⟩
  · simp [EmptyStepsFailureFree, Call.FailureFree, callsWith, Attempt.viaFirstBlockApart]

/-- A step without tokens whose first attempt fails: the new session of the first server
answers with the history, the second server takes that in once more, and the call returns
it. -/
theorem empty_step_returns_history :
    let cfg : Config := ⟨2, 8, some 3, false⟩
    let calls := callsWith [([5], [.answered, .answered]), ([], [.dropped, .answered, .answered])]
    let failureFree := callsWith [([5], [.answered, .answered]), ([], [.answered, .answered])]
    (failureFree.map fun c => c.inputs) = (calls.map fun c => c.inputs) ∧
      (∀ c ∈ calls, c.Admissible cfg) ∧ (∀ c ∈ failureFree, c.Admissible cfg ∧ c.FailureFree) ∧
      (Session.init.run cfg addPositions calls).2 = [.ok [5], .ok [6]] ∧
      (Session.init.run cfg addPositions failureFree).2 = [.ok [5], .ok []] ∧
      ((Session.init.run cfg addPositions calls).1.sessions.map fun s => s.position) = [1, 2] ∧
      ¬ Transparent cfg addPositions calls failureFree := by
  intro cfg calls failureFree
  have hcalls : (Session.init.run cfg addPositions calls).2 = [.ok [5], .ok [6]] := by
    decide +kernel
  have hfree : (Session.init.run cfg addPositions failureFree).2 = [.ok [5], .ok []] := by
    decide +kernel
  refine ⟨rfl, admissible_callsWith (by decide), ?_, hcalls, hfree, by decide +kernel, ?_⟩
  · exact fun c hc => ⟨admissible_callsWith (by decide) c hc,
      failureFree_callsWith (by decide) c hc⟩
  · rintro ⟨hsame, -⟩
    rw [hcalls, hfree] at hsame
    simp at hsame

end BloomBee.InferenceSession

import BloomBee.Sanity.SessionBlank
import BloomBee.Proofs.InferenceSession

/-! What a step that raises leaves of an `InferenceSession`. Nothing is taken back when a step
gives up, neither the logs and positions of the servers before the failed one nor what is in
their caches. -/

set_option autoImplicit false

namespace BloomBee.InferenceSession

variable {τ : Type} (blocks : ℕ → Causal τ τ)

/-- The whole session describes the token prefix `toks`. -/
structure Intact (toks : List τ) (s : Session τ) : Prop where
  position : s.position = toks.length
  sessions : ∀ t ∈ s.sessions, AtPrefix blocks toks t

/-- Between two calls: intact, and the sessions cover the blocks once there are any. -/
structure Steady (cfg : Config) (toks : List τ) (s : Session τ) : Prop
    extends Intact blocks toks s where
  covers : s.sessions = [] ∧ toks = [] ∨ Covers 0 cfg.numBlocks (s.sessions.map fun t => t.span)

/-- No attempt of the call comes as far as an open session: there is none before the call, and
none is opened. The first attempt does not try to where the first session is there, closed. -/
def NothingOpened (cfg : Config) (s : Session τ) (attempts : List Attempt) : Prop :=
  (∀ t ∈ s.sessions.head?, t.closed = true) ∧
    ∀ a ∈ (attempts.take (cfg.maxRetries.getD 0)).drop (min 1 s.sessions.length),
      a.fate = .unreachable

/-- What lets a step that gives up leave the session as it was. -/
def Harmless (cfg : Config) (s : Session τ) (c : Call τ) : Prop :=
  c.inputs ≠ [] ∧ NothingOpened cfg s c.attempts ∨
    c.inputs = [] ∧ (s.position = 0 ∨ cfg.maxRetries = some 1)

def gaveUp : Except Error (List τ) → Bool
  | .error .retriesExhausted => true
  | _ => false

/-- A call of a run: the sequence manager tiles what it is asked for and the attempts are all
there. A call that gives up is harmless; one without tokens that returns is no retry. -/
structure Call.Tolerated (cfg : Config) (blocks : ℕ → Causal τ τ) (s : Session τ) (c : Call τ) :
    Prop where
  routed : ∀ a ∈ c.attempts, a.Routed cfg
  ends : (s.step cfg blocks c.attempts c.inputs).2 ≠ .error .pending
  harmless : gaveUp (s.step cfg blocks c.attempts c.inputs).2 = true → Harmless cfg s c
  empty : gaveUp (s.step cfg blocks c.attempts c.inputs).2 = false → c.inputs = [] →
    s.position = 0 ∨ c.FailureFree

def Tolerated (cfg : Config) (blocks : ℕ → Causal τ τ) : Session τ → List (Call τ) → Prop
  | _, [] => True
  | s, c :: calls => c.Tolerated cfg blocks s ∧
    Tolerated cfg blocks (s.step cfg blocks c.attempts c.inputs).1 calls

def returned (cfg : Config) (blocks : ℕ → Causal τ τ) : Session τ → List (Call τ) → List (Call τ)
  | _, [] => []
  | s, c :: calls =>
    let (s, result) := s.step cfg blocks c.attempts c.inputs
    if gaveUp result then returned cfg blocks s calls else c :: returned cfg blocks s calls

variable {blocks} {cfg : Config} {toks x : List τ}

/-! ### The whole step -/

variable {s : Session τ} {c : Call τ}

/-- A step that gave up got as far as its loop, and some attempt was the last. -/
theorem step_exhausted (h : (s.step cfg blocks c.attempts c.inputs).2 = .error .retriesExhausted) :
    ¬ cfg.maxLength < s.position + c.inputs.length ∧
      (s.step cfg blocks c.attempts c.inputs).1.position = s.position ∧
      (stepLoop cfg blocks c.inputs.length c.attempts []
        (s.sessions.map fun t => { t with pushed := [] }) 0 0 c.inputs).2 =
          .error .retriesExhausted := by
  by_cases hroom : cfg.maxLength < s.position + c.inputs.length
  · rw [Session.step, if_pos hroom] at h
    cases h
  refine ⟨hroom, ?_⟩
  rcases hloop : stepLoop cfg blocks c.inputs.length c.attempts []
    (s.sessions.map fun t => { t with pushed := [] }) 0 0 c.inputs with ⟨sessions, result⟩
  simp only [Session.step, if_neg hroom, hloop] at h ⊢
  rcases result with e | outputs
  · exact ⟨rfl, h⟩
  · dsimp only at h
    split_ifs at h
    cases h

theorem stepLoop_maxRetries (n : ℕ) (attempts : List Attempt) :
    ∀ (done todo : List (ServerSession τ)) (b k : ℕ) (inputs : List τ),
      (stepLoop cfg blocks n attempts done todo b k inputs).2 = .error .retriesExhausted →
      b < cfg.numBlocks ∧ ∃ m, cfg.maxRetries = some (m + 1) := by
  induction attempts with
  | nil =>
    intro done todo b k inputs h
    rw [stepLoop] at h
    split_ifs at h
    cases h
  | cons a attempts ih =>
    intro done todo b k inputs h
    by_cases hb : cfg.numBlocks ≤ b
    · rw [stepLoop, if_pos hb] at h
      cases h
    refine ⟨Nat.lt_of_not_le hb, ?_⟩
    rw [stepLoop, if_neg hb] at h
    rcases hatt : attempt cfg blocks a n ((done ++ todo).isEmpty || decide (1 ≤ k)) b todo inputs
      with ⟨todo', answer⟩
    simp only [hatt] at h
    by_cases hmax : cfg.maxRetries = some (k + 1)
    · exact ⟨k, hmax⟩
    · rcases todo' with - | ⟨s, ss⟩
      · simp only [if_neg hmax] at h
        exact (ih _ _ _ _ _ h).2
      rcases answer with - | outputs
      · simp only [if_neg hmax] at h
        exact (ih _ _ _ _ _ h).2
      · exact (ih _ _ _ _ _ h).2

theorem AtPrefix.unpush {t : ServerSession τ} (h : AtPrefix blocks toks t) :
    AtPrefix blocks toks { t with pushed := [] } :=
  ⟨h.position, h.history, h.caches, h.live⟩

theorem Steady.failed_tokens (hs : Steady blocks cfg toks s)
    (hroute : ∀ a ∈ c.attempts, a.Routed cfg) (hne : c.inputs ≠ [])
    (hraise : (s.step cfg blocks c.attempts c.inputs).2 = .error .retriesExhausted) :
    (∀ t ∈ (s.step cfg blocks c.attempts c.inputs).1.sessions, AtPrefix blocks toks t) ↔
      NothingOpened cfg s c.attempts := by
  obtain ⟨hroom, -, hloop⟩ := step_exhausted hraise
  obtain ⟨h0, m, hm⟩ := stepLoop_maxRetries _ _ _ _ _ _ _ hloop
  rw [step_sessions hroom]
  set sessions := s.sessions.map fun t => { t with pushed := [] } with hsessions
  have hat : ∀ t ∈ sessions, AtPrefix blocks toks t := by
    intro t ht
    obtain ⟨u, hu, rfl⟩ := List.mem_map.mp ht
    exact (hs.sessions u hu).unpush
  have hlong : ∀ (r : List (ServerSession τ)), (∃ t rest, r = t :: rest ∧
      toks.length + c.inputs.length ≤ t.logged) → ¬ ∀ t ∈ r, AtPrefix blocks toks t := by
    rintro r ⟨t, rest, rfl, hle⟩ h
    have hlen := List.length_pos_of_ne_nil hne
    rw [(h t List.mem_cons_self).logged] at hle
    omega
  by_cases hopen : ∃ t ∈ s.sessions.head?, t.closed = false
  · -- the first attempt logs the tokens
    obtain ⟨t, ht, hclosed⟩ := hopen
    have hnothing : ¬ NothingOpened cfg s c.attempts := by
      intro h
      rw [h.1 t ht] at hclosed
      cases hclosed
    refine iff_of_false (hlong _ ?_) hnothing
    obtain ⟨rest, hrest⟩ : ∃ rest, s.sessions = t :: rest := by
      rcases hl : s.sessions with - | ⟨u, rest⟩
      · rw [hl] at ht
        cases ht
      · rw [hl] at ht
        cases ht
        exact ⟨rest, rfl⟩
    rcases hatt : c.attempts with - | ⟨a, attempts⟩
    · rw [hatt, stepLoop, if_neg (Nat.not_le_of_lt h0)] at hloop
      cases hloop
    have htat := hs.sessions t (by rw [hrest]; exact List.mem_cons_self)
    rw [hsessions, hrest]
    refine stepLoop_logs h0 ?_
    rw [← htat.position]
    exact attempt_logs (t := { t with pushed := [] }) hclosed
      (htat.unpush.logged.trans htat.position.symm) rfl
  · have hnil : toks = [] := by
      by_contra hne'
      rcases hs.covers with ⟨-, hnil⟩ | hcov
      · exact hne' hnil
      · rcases hl : s.sessions with - | ⟨t, rest⟩
        · rw [hl] at hcov
          exact absurd hcov (Nat.ne_of_lt h0)
        · refine hopen ⟨t, by rw [hl]; rfl, ?_⟩
          exact ((hs.sessions t (by rw [hl]; exact List.mem_cons_self)).live hne').2
    subst hnil
    have hclosed : ∀ t ∈ s.sessions.head?, t.closed = true := by
      intro t ht
      by_contra hc
      exact hopen ⟨t, ht, by simpa using hc⟩
    have hun : Unopened blocks cfg sessions := by
      refine ⟨fun t ht => ?_, hat, ?_⟩
      · rw [hsessions, List.head?_map] at ht
        obtain ⟨u, hu, rfl⟩ := Option.map_eq_some_iff.mp ht
        exact hclosed u hu
      · refine hs.covers.imp (fun h => by rw [hsessions, h.1]; rfl) fun h => ?_
        simpa [hsessions, Function.comp_def] using h
    have hupdating : updating (m + 1) 0 sessions c.attempts =
        (c.attempts.take (cfg.maxRetries.getD 0)).drop (min 1 s.sessions.length) := by
      rw [updating, hm, hsessions]
      rcases s.sessions with - | ⟨t, rest⟩
      · simp
      · simp
    rcases Unopened.stepLoop h0 hm c.attempts sessions 0 (Nat.succ_pos m) hun hroute hloop with
      ⟨hall, hsame⟩ | ⟨hall, hlog⟩
    · rw [hupdating] at hall
      exact iff_of_true hsame ⟨hclosed, hall⟩
    · rw [hupdating] at hall
      refine iff_of_false (hlong _ ?_) fun h => hall h.2
      simpa using hlog

theorem Steady.failed_empty (hs : Steady blocks cfg toks s)
    (hroute : ∀ a ∈ c.attempts, a.Routed cfg) (hnil : c.inputs = [])
    (hraise : (s.step cfg blocks c.attempts c.inputs).2 = .error .retriesExhausted) :
    (∀ t ∈ (s.step cfg blocks c.attempts c.inputs).1.sessions, AtPrefix blocks toks t) ↔
      toks = [] ∨ cfg.maxRetries = some 1 := by
  obtain ⟨hroom, -, hloop⟩ := step_exhausted hraise
  obtain ⟨h0, m, hm⟩ := stepLoop_maxRetries _ _ _ _ _ _ _ hloop
  rw [step_sessions hroom]
  rw [hnil, List.length_nil] at hloop ⊢
  set sessions := s.sessions.map fun t => { t with pushed := [] } with hsessions
  have hidle : ∀ t ∈ sessions, Idle blocks toks t := by
    intro t ht
    obtain ⟨u, hu, rfl⟩ := List.mem_map.mp ht
    exact ⟨(hs.sessions u hu).unpush, fun c hc => by cases hc⟩
  have hsome : toks ≠ [] → sessions ≠ [] := by
    intro hne h
    have hcov := hs.covers.resolve_left fun h => hne h.2
    rw [List.map_eq_nil_iff.mp h] at hcov
    exact absurd hcov (Nat.ne_of_lt h0)
  constructor
  · intro h
    by_contra hcond
    obtain ⟨hne, hmax⟩ := not_or.mp hcond
    have hcov : Covers 0 cfg.numBlocks (sessions.map fun t => t.span) := by
      simpa [hsessions, Function.comp_def] using hs.covers.resolve_left fun h => hne h.2
    obtain ⟨t, ht, hbad⟩ := (stepLoop_covers 0 c.attempts [] sessions 0 0 [] hroute
      ⟨rfl, .inr hcov⟩).2 (hsome hne) hmax hloop
    have hat := h t ht
    rcases hbad with hc | hp
    · rw [(hat.live hne).2] at hc
      cases hc
    · rw [hat.position] at hp
      exact hne (List.eq_nil_of_length_eq_zero hp)
  · intro hcond t ht
    refine (Idle.stepLoop c.attempts [] sessions 0 0 ?_ hidle t ht).1
    by_cases hne : toks = []
    · exact .inl hne
    · exact .inr ⟨hcond.resolve_left hne, rfl, hsome hne⟩

theorem gaveUp_iff {r : Except Error (List τ)} : gaveUp r = true ↔ r = .error .retriesExhausted := by
  unfold gaveUp
  split
  · simp
  · rename_i h
    exact iff_of_false Bool.false_ne_true h

/-- The sessions a failed step leaves still lead through all blocks. -/
theorem Steady.failed (hs : Steady blocks cfg toks s) (hroute : ∀ a ∈ c.attempts, a.Routed cfg)
    (hraise : (s.step cfg blocks c.attempts c.inputs).2 = .error .retriesExhausted) :
    (Intact blocks toks (s.step cfg blocks c.attempts c.inputs).1 ↔ Harmless cfg s c) ∧
      (Harmless cfg s c → Steady blocks cfg toks (s.step cfg blocks c.attempts c.inputs).1) := by
  obtain ⟨hroom, hposition, -⟩ := step_exhausted hraise
  have hintact : Intact blocks toks (s.step cfg blocks c.attempts c.inputs).1 ↔ Harmless cfg s c := by
    have hsessions : Intact blocks toks (s.step cfg blocks c.attempts c.inputs).1 ↔
        ∀ t ∈ (s.step cfg blocks c.attempts c.inputs).1.sessions, AtPrefix blocks toks t :=
      ⟨fun h => h.sessions, fun h => ⟨hposition.trans hs.position, h⟩⟩
    have hzero : s.position = 0 ↔ toks = [] := by
      rw [hs.position, List.length_eq_zero_iff]
    rw [hsessions, Harmless, hzero]
    by_cases hnil : c.inputs = []
    · rw [hs.failed_empty hroute hnil hraise]
      exact ⟨fun h => .inr ⟨hnil, h⟩, fun h => (h.resolve_left fun h => h.1 hnil).2⟩
    · rw [hs.failed_tokens hroute hnil hraise]
      exact ⟨fun h => .inl ⟨hnil, h⟩, fun h => (h.resolve_right fun h => hnil h.1).2⟩
  refine ⟨hintact, fun h => ⟨hintact.mpr h, ?_⟩⟩
  have hstart : ([] : List (ServerSession τ)) ++ (s.sessions.map fun t => { t with pushed := [] }) =
      [] ∧ 0 = 0 ∨ Covers 0 cfg.numBlocks
        ((s.sessions.map fun t => { t with pushed := [] }).map fun t => t.span) := by
    rcases hs.covers with ⟨hnil, -⟩ | hcov
    · exact .inl ⟨by rw [hnil]; rfl, rfl⟩
    · exact .inr (by simpa [Function.comp_def] using hcov)
  rw [step_sessions hroom]
  rcases (stepLoop_covers c.inputs.length c.attempts [] _ 0 0 c.inputs hroute ⟨rfl, hstart⟩).1 with
    ⟨hnil, hbefore⟩ | hcov
  · refine .inl ⟨hnil, ?_⟩
    rcases hs.covers with ⟨-, htoks⟩ | hcov
    · exact htoks
    · rw [List.nil_append, List.map_eq_nil_iff] at hbefore
      rw [hbefore] at hcov
      have h0 := (stepLoop_maxRetries _ _ _ _ _ _ _ (step_exhausted hraise).2.2).1
      exact absurd hcov (Nat.ne_of_lt h0)
  · exact .inr hcov

theorem stepLoop_error (n : ℕ) (attempts : List Attempt) :
    ∀ (done todo : List (ServerSession τ)) (b k : ℕ) (inputs : List τ) (e : Error),
      (stepLoop cfg blocks n attempts done todo b k inputs).2 = .error e →
      e = .retriesExhausted ∨ e = .pending := by
  induction attempts with
  | nil =>
    intro done todo b k inputs e h
    rw [stepLoop] at h
    split_ifs at h
    cases h
    exact .inr rfl
  | cons a attempts ih =>
    intro done todo b k inputs e h
    by_cases hb : cfg.numBlocks ≤ b
    · rw [stepLoop, if_pos hb] at h
      cases h
    rw [stepLoop, if_neg hb] at h
    have hfails {todo' : List (ServerSession τ)} (h : (if cfg.maxRetries = some (k + 1) then
        (done ++ todo', Except.error Error.retriesExhausted)
        else stepLoop cfg blocks n attempts done todo' b (k + 1) inputs).2 = .error e) :
        e = .retriesExhausted ∨ e = .pending := by
      split_ifs at h
      · cases h
        exact .inl rfl
      · exact ih _ _ _ _ _ _ h
    rcases hatt : attempt cfg blocks a n ((done ++ todo).isEmpty || decide (1 ≤ k)) b todo inputs
      with ⟨todo', answer⟩
    simp only [hatt] at h
    rcases todo' with - | ⟨t, rest⟩
    · exact hfails h
    rcases answer with - | outputs
    · exact hfails h
    · exact ih _ _ _ _ _ _ h

theorem Holds.steady (h : Holds cfg blocks toks s) : Steady blocks cfg toks s := by
  refine ⟨⟨h.position, fun t ht => ?_⟩, h.covers⟩
  have hw := h.warm t ht
  exact ⟨hw.position, by rw [hw.history]; rfl, hw.caches, fun _ => ⟨hw.stepped, hw.closed⟩⟩

/-- Past the first token there is no difference to a session that never failed. -/
theorem Steady.holds (h : Steady blocks cfg toks s) (hne : toks ≠ []) :
    Holds cfg blocks toks s := by
  refine ⟨h.position, fun t ht => ?_, h.covers⟩
  have hat := h.sessions t ht
  obtain ⟨hstepped, hclosed⟩ := hat.live hne
  refine ⟨⟨?_, hat.position, hat.caches⟩, hstepped, hclosed⟩
  have hhistory := hat.history
  rcases hh : t.history with - | history
  · rw [hh, Option.getD_none] at hhistory
    have := congrArg List.length hhistory
    rw [length_hidden] at this
    exact absurd (List.eq_nil_of_length_eq_zero this.symm) hne
  · rw [hh, Option.getD_some] at hhistory
    rw [hhistory]

theorem Steady.blank (h : Steady blocks cfg [] s) (x : List τ) :
    BlankStage blocks x 0 cfg.numBlocks [] 0 (s.sessions.map fun t => { t with pushed := [] }) := by
  have hblank : ∀ t ∈ s.sessions.map fun t => { t with pushed := [] }, Blank blocks x t := by
    intro t ht
    obtain ⟨u, hu, rfl⟩ := List.mem_map.mp ht
    have hat := h.sessions u hu
    exact ⟨hat.position, hat.history.trans (hidden_nil _), hat.caches, fun c hc => by cases hc⟩
  refine ⟨?_, fun t ht => ?_, fun t ht => hblank t (List.mem_of_mem_tail ht)⟩
  · rcases h.covers with ⟨hnil, -⟩ | hcov
    · exact .inl ⟨by rw [hnil]; rfl, rfl⟩
    · exact .inr (by simpa [Function.comp_def] using hcov)
  · have := hblank t (List.mem_of_mem_head? ht)
    exact ⟨fun _ => this, .inl this.history⟩

/-- A step that returns, returns what it does in a session without failures. -/
theorem Steady.returns (hs : Steady blocks cfg toks s) (hc : c.Tolerated cfg blocks s)
    (hreturns : gaveUp (s.step cfg blocks c.attempts c.inputs).2 = false) :
    (s.step cfg blocks c.attempts c.inputs).2 = expected cfg blocks toks c.inputs ∧
      Steady blocks cfg (cfg.extend toks c.inputs)
        (s.step cfg blocks c.attempts c.inputs).1 := by
  by_cases hroom : cfg.maxLength < toks.length + c.inputs.length
  · rw [expected, if_pos hroom, Config.extend, if_pos hroom, Session.step, hs.position, if_pos hroom]
    exact ⟨rfl, hs⟩
  have hok : ∃ y, (stepLoop cfg blocks c.inputs.length c.attempts []
      (s.sessions.map fun t => { t with pushed := [] }) 0 0 c.inputs).2 = .ok y := by
    rcases hloop : stepLoop cfg blocks c.inputs.length c.attempts []
      (s.sessions.map fun t => { t with pushed := [] }) 0 0 c.inputs with ⟨sessions, e | y⟩
    · have hresult : (s.step cfg blocks c.attempts c.inputs).2 = .error e := by
        simp only [Session.step, hs.position, if_neg hroom, hloop]
      rcases stepLoop_error _ _ _ _ _ _ _ e (congrArg Prod.snd hloop) with rfl | rfl
      · rw [hresult] at hreturns
        cases hreturns
      · exact absurd hresult hc.ends
    · exact ⟨y, congrArg Prod.snd hloop⟩
  by_cases hnil : toks = []
  · subst hnil
    rw [List.length_nil, Nat.zero_add] at hroom
    have hfinished := BlankStage.stepLoop (Nat.le_of_not_lt hroom) c.attempts [] _ 0 0 hc.routed
      (Nat.zero_le _) (fun t ht => absurd ht List.not_mem_nil) rfl (hs.blank c.inputs) hok
    obtain ⟨hresult, hholds⟩ := step_of_finished hs.position (by simpa using hroom) hfinished
    rw [expected, Config.extend, if_neg (by simpa using hroom), if_neg (by simpa using hroom)]
    exact ⟨hresult, hholds.steady⟩
  · have hempty : c.inputs = [] → toks = [] ∨ c.FailureFree := by
      intro h
      refine (hc.empty hreturns h).imp_left fun h0 => ?_
      rwa [hs.position, List.length_eq_zero_iff] at h0
    obtain ⟨hresult, hholds⟩ := (hs.holds hnil).step_of_returns hc.routed (.inr hok) hempty
    exact ⟨hresult, hholds.steady⟩

theorem Steady.run (calls : List (Call τ)) :
    ∀ {toks : List τ} {s : Session τ}, Steady blocks cfg toks s → Tolerated cfg blocks s calls →
      ((s.run cfg blocks calls).2.filter fun r => !gaveUp r) =
          expectedRun cfg blocks toks ((returned cfg blocks s calls).map fun c => c.inputs) ∧
        Steady blocks cfg (tokensSoFar cfg toks (returned cfg blocks s calls))
          (s.run cfg blocks calls).1 := by
  induction calls with
  | nil => exact fun h _ => ⟨rfl, h⟩
  | cons c calls ih =>
    intro toks s hs hcalls
    obtain ⟨hc, hcalls⟩ := hcalls
    rcases hgave : gaveUp (s.step cfg blocks c.attempts c.inputs).2 with - | -
    · obtain ⟨hresult, hs'⟩ := hs.returns hc hgave
      obtain ⟨hresults, hfinal⟩ := ih hs' hcalls
      simp only [Session.run, returned, hgave, List.filter_cons, Bool.not_false, if_true,
        Bool.false_eq_true, if_false, List.map_cons, expectedRun]
      exact ⟨by rw [hresult, hresults], hfinal⟩
    · have hs' := (hs.failed hc.routed (gaveUp_iff.mp hgave)).2 (hc.harmless hgave)
      simp only [Session.run, returned, hgave, List.filter_cons, Bool.not_true, if_true,
        Bool.false_eq_true, if_false]
      exact ih hs' hcalls

/-- In every run whose failed steps are harmless the session describes the tokens of the calls
that returned, and these return what they do without the failed ones. After any such run, a
step that exhausts its retries leaves the session so exactly if it is harmless: no attempt came
to an open session, or there were no tokens to bring and none before, or no retries. -/
theorem failedSteps_intact_iff (cfg : Config) (blocks : ℕ → Causal τ τ) (calls : List (Call τ))
    (hcalls : Tolerated cfg blocks Session.init calls) :
    let s := (Session.init.run cfg blocks calls).1
    let calls' := returned cfg blocks Session.init calls
    Intact blocks (tokensSoFar cfg [] calls') s ∧
      ((Session.init.run cfg blocks calls).2.filter fun r => !gaveUp r) =
        expectedRun cfg blocks [] (calls'.map fun c => c.inputs) ∧
      ∀ c : Call τ, (∀ a ∈ c.attempts, a.Routed cfg) →
        (s.step cfg blocks c.attempts c.inputs).2 = .error .retriesExhausted →
        (Intact blocks (tokensSoFar cfg [] calls') (s.step cfg blocks c.attempts c.inputs).1 ↔
          Harmless cfg s c) := by
  intro s calls'
  obtain ⟨hresults, hs⟩ := (holds_init cfg blocks).steady.run calls hcalls
  exact ⟨hs.toIntact, hresults, fun c hroute hraise => (hs.failed hroute hraise).1⟩

/-- No server can be reached at first; the step after that returns. In the next one the second
server gets no answer through, when the first has answered already. -/
theorem failedSteps_intact_iff_twoServers :
    let cfg : Config := ⟨2, 8, some 1, false⟩
    let calls := callsWith [([3], [.unreachable]), ([5], [.answered, .answered])]
    let c : Call ℕ := ⟨[7], [.viaFirstBlockApart .answered, .viaFirstBlockApart .lost]⟩
    let s := (Session.init.run cfg addPositions calls).1
    Intact addPositions [5] s ∧
      ((Session.init.run cfg addPositions calls).2.filter fun r => !gaveUp r) = [.ok [5]] ∧
      ¬ Intact addPositions [5] (s.step cfg addPositions c.attempts c.inputs).1 := by
  intro cfg calls c s
  have hroute : ∀ c ∈ calls, ∀ a ∈ c.attempts, a.Routed cfg := by
    intro c hc a ha
    obtain ⟨c, -, rfl⟩ := List.mem_map.mp hc
    obtain ⟨fate, -, rfl⟩ := List.mem_map.mp ha
    exact routed_viaFirstBlockApart cfg fate
  have hcalls : Tolerated cfg addPositions Session.init calls := by
    refine ⟨⟨hroute _ List.mem_cons_self, nofun, ?_, nofun⟩,
      ⟨hroute _ (List.mem_cons_of_mem _ List.mem_cons_self), nofun, nofun, nofun⟩, trivial⟩
    exact fun _ => .inl ⟨List.cons_ne_nil _ _, fun t ht => (by cases ht),
      List.forall_mem_singleton.mpr rfl⟩
  obtain ⟨hintact, hresults, hfailed⟩ := failedSteps_intact_iff cfg addPositions calls hcalls
  refine ⟨hintact, hresults, fun h => ?_⟩
  have hc : ∀ a ∈ c.attempts, a.Routed cfg := List.forall_mem_cons.mpr
    ⟨routed_viaFirstBlockApart cfg _, List.forall_mem_singleton.mpr
      (routed_viaFirstBlockApart cfg _)⟩
  have hfirst : s.sessions.head? = some ⟨⟨0, 1⟩, 1, some [5], true, false, [[5]], []⟩ := rfl
  rcases (hfailed c hc rfl).mp h with ⟨-, hopen, -⟩ | ⟨hnil, -⟩
  · exact absurd (hopen _ hfirst) Bool.false_ne_true
  · cases hnil

/-- The second server gets no answer through. The first one is a token ahead after that, and
the same step made once more returns something else than without the failure. -/
theorem failed_step_leaves_servers_apart :
    let cfg : Config := ⟨2, 8, some 1, false⟩
    let first := callsWith [([5], [.answered, .answered])]
    let failed := first ++ callsWith [([7], [.answered, .lost])]
    let retry := callsWith [([7], [.answered, .answered])]
    let s := (Session.init.run cfg addPositions failed).1
    Intact addPositions [5] (Session.init.run cfg addPositions first).1 ∧
      (Session.init.run cfg addPositions failed).2 = [.ok [5], .error .retriesExhausted] ∧
      s.position = 1 ∧ (s.sessions.map fun t => t.position) = [2, 1] ∧
      (s.sessions.map fun t => t.history) = [some [5, 7], some [5, 8]] ∧
      ¬ Intact addPositions [5] s ∧
      (Session.init.run cfg addPositions (first ++ retry)).2 = [.ok [5], .ok [9]] ∧
      (Session.init.run cfg addPositions (failed ++ retry)).2 =
        [.ok [5], .error .retriesExhausted, .ok [10]] := by
  intro cfg first failed retry s
  have hpositions : (s.sessions.map fun t => t.position) = [2, 1] := by decide +kernel
  refine ⟨⟨rfl, ?_⟩, by decide +kernel, by decide +kernel, hpositions, by decide +kernel,
    fun h => ?_, by decide +kernel, by decide +kernel⟩
  · intro t ht
    have hfirst : (Session.init.run cfg addPositions first).1.sessions =
        [⟨⟨0, 1⟩, 1, some [5], true, false, [[5]], []⟩,
          ⟨⟨1, 2⟩, 1, some [5], true, false, [[5]], []⟩] := rfl
    rw [hfirst] at ht
    rcases List.mem_cons.mp ht with rfl | ht
    · exact ⟨rfl, rfl, rfl, fun _ => ⟨rfl, rfl⟩⟩
    · obtain rfl := List.mem_singleton.mp ht
      exact ⟨rfl, rfl, rfl, fun _ => ⟨rfl, rfl⟩⟩
  · have hahead : ∀ p ∈ s.sessions.map fun t => t.position, p = 1 := by
      intro p hp
      obtain ⟨t, ht, rfl⟩ := List.mem_map.mp hp
      exact (h.sessions t ht).position
    rw [hpositions] at hahead
    exact absurd (hahead 2 List.mem_cons_self) (by decide)

end BloomBee.InferenceSession

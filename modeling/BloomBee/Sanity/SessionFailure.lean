import BloomBee.Sanity.SessionRetry

/-! The loop of a step that gives up. A session of a server writes its log before anything is
sent, and nothing takes the entry back; so the sessions are only as before when no attempt came
as far as a log, or had something to write. -/

set_option autoImplicit false

namespace BloomBee.InferenceSession

variable {τ : Type} (blocks : ℕ → Causal τ τ)

/-- The position, the history and the remote caches of a server session are those of `toks`.
Past the first token it goes on where it stands: it has stepped and is open. -/
structure AtPrefix (toks : List τ) (t : ServerSession τ) : Prop where
  position : t.position = toks.length
  history : t.history.getD [] = hidden blocks t.span.start toks
  caches : t.caches = spanCaches blocks t.span toks
  live : toks ≠ [] → t.stepped = true ∧ t.closed = false

variable {blocks} {cfg : Config} {toks x : List τ}

/-! ### The log -/

def ServerSession.logged (t : ServerSession τ) : ℕ := (t.history.getD []).length

theorem ServerSession.logged_le (t : ServerSession τ) (inputs : List τ) :
    t.logged ≤ (t.log inputs).length := by
  unfold ServerSession.logged ServerSession.log
  rcases t.history with - | history
  · exact Nat.zero_le _
  · dsimp only [Option.getD_some]
    split_ifs
    · simp
    · exact Nat.le_refl _

/-- A session whose log goes as far as its position takes the inputs in. -/
theorem ServerSession.length_log {t : ServerSession τ} (h : t.logged = t.position)
    (inputs : List τ) : (t.log inputs).length = t.position + inputs.length := by
  unfold ServerSession.logged at h
  unfold ServerSession.log
  rcases hh : t.history with - | history
  · rw [hh] at h
    simp only [Option.getD_none, List.length_nil] at h
    rw [← h, Nat.zero_add]
  · rw [hh] at h
    dsimp only [Option.getD_some] at h ⊢
    rw [if_pos h, List.length_append, lastTokens_length, h]

/-- A step of an open session writes the log, whatever becomes of it. -/
theorem ServerSession.step_open {t : ServerSession τ} (h : t.closed = false) (a : Attempt)
    (inputs : List τ) :
    (t.step cfg blocks a inputs).session.history = some (t.log inputs) ∧
      ((t.step cfg blocks a inputs).answer = none →
        (t.step cfg blocks a inputs).session.position = t.position) := by
  rw [ServerSession.step, if_neg (by rw [h]; decide)]
  cases hf : a.fate with
  | unreachable => exact ⟨rfl, fun _ => rfl⟩
  | lost => exact ⟨rfl, fun _ => rfl⟩
  | answered =>
    dsimp only
    rcases t.serve cfg blocks (t.taken a inputs) with - | ⟨caches, outputs⟩
    · exact ⟨rfl, fun _ => rfl⟩
    · exact ⟨rfl, fun h => by cases h⟩
  | dropped =>
    dsimp only
    rcases t.serve cfg blocks (t.taken a inputs) with - | ⟨caches, outputs⟩
    · exact ⟨rfl, fun _ => rfl⟩
    · exact ⟨rfl, fun _ => rfl⟩

theorem ServerSession.step_closed {t : ServerSession τ} (h : t.closed = true) (a : Attempt)
    (inputs : List τ) : t.step cfg blocks a inputs = ⟨t, none, none⟩ := by
  rw [ServerSession.step, if_pos h]

theorem ServerSession.logged_le_step (t : ServerSession τ) (a : Attempt) (inputs : List τ) :
    t.logged ≤ (t.step cfg blocks a inputs).session.logged := by
  rcases hc : t.closed with - | -
  · have h : (t.step cfg blocks a inputs).session.history = some (t.log inputs) :=
      (t.step_open hc a inputs).1
    rw [logged, logged, h]
    exact t.logged_le inputs
  · exact Nat.le_of_eq (by rw [t.step_closed hc])

/-! ### `_update_sequence` -/

def updatedSpans (cfg : Config) (a : Attempt) (blockIdx : ℕ) (todo : List (ServerSession τ)) :
    List Span :=
  let updateEnd := (todo.head?.map fun s => s.span.stop).getD cfg.numBlocks
  clampLast updateEnd (a.makeSequence blockIdx updateEnd)

/-- It raises and leaves the failed session closed, or the first of the new sessions takes the
place of the failed one, with its history. -/
theorem updateSequence_cases (cfg : Config) (a : Attempt) (blockIdx : ℕ)
    (todo : List (ServerSession τ)) :
    ((a.fate = .unreachable ∨ updatedSpans cfg a blockIdx todo = []) ∧
      updateSequence cfg a blockIdx todo =
        (todo.modifyHead fun s => { s with closed := true }, false)) ∨
    a.fate ≠ .unreachable ∧ ∃ span spans, updatedSpans cfg a blockIdx todo = span :: spans ∧
      updateSequence cfg a blockIdx todo =
        ({ ServerSession.create span with history := todo.head?.bind fun s => s.history } ::
          (spans.map ServerSession.create ++ todo.tail), true) := by
  by_cases hraises : a.fate = .unreachable ∨ updatedSpans cfg a blockIdx todo = []
  · refine .inl ⟨hraises, ?_⟩
    rw [updatedSpans] at hraises
    simp only [updateSequence, if_pos hraises]
  · obtain ⟨hf, hne⟩ := not_or.mp hraises
    obtain ⟨span, spans, hspans⟩ := List.exists_cons_of_ne_nil hne
    refine .inr ⟨hf, span, spans, hspans, ?_⟩
    rw [updatedSpans] at hspans
    simp only [updateSequence, hspans]
    rcases todo with - | ⟨t, rest⟩
    · simp [ServerSession.create, hf]
    · simp [hf]

theorem updatedSpans_covers {a : Attempt} {b : ℕ} {todo : List (ServerSession τ)}
    (ha : a.Routed cfg) (hb : b < cfg.numBlocks)
    (hcov : todo = [] ∨ Covers b cfg.numBlocks (todo.map fun t => t.span)) :
    Covers b ((todo.head?.map fun s => s.span.stop).getD cfg.numBlocks)
        (updatedSpans cfg a b todo) ∧
      updatedSpans cfg a b todo ≠ [] := by
  obtain ⟨hlt, hle⟩ : b < (todo.head?.map fun s => s.span.stop).getD cfg.numBlocks ∧
      (todo.head?.map fun s => s.span.stop).getD cfg.numBlocks ≤ cfg.numBlocks := by
    rcases todo with - | ⟨t, rest⟩
    · exact ⟨hb, Nat.le_refl _⟩
    · obtain ⟨hs, hlt, hrest⟩ := hcov.resolve_left (List.cons_ne_nil _ _)
      exact ⟨hs ▸ hlt, hrest.le⟩
  have hspans := ha b _ hlt hle
  refine ⟨hspans, fun hnil => ?_⟩
  rw [updatedSpans] at hnil
  rw [hnil] at hspans
  exact absurd hspans (Nat.ne_of_lt hlt)

/-- Whatever an attempt does, the first session has at least the log of the one before it. -/
theorem attempt_logged (cfg : Config) (blocks : ℕ → Causal τ τ) (a : Attempt) (n : ℕ)
    (update : Bool) (b : ℕ) (t : ServerSession τ) (rest : List (ServerSession τ))
    (inputs : List τ) :
    ∃ t' rest', (attempt cfg blocks a n update b (t :: rest) inputs).1 = t' :: rest' ∧
      t.logged ≤ t'.logged := by
  obtain ⟨s, ss, opened, hopen, hlog⟩ : ∃ (s : ServerSession τ) (ss : _) (opened : Bool),
      (if update then updateSequence cfg a b (t :: rest) else (t :: rest, true)) =
        (s :: ss, opened) ∧ s.logged = t.logged := by
    split_ifs
    · rcases updateSequence_cases cfg a b (t :: rest) with ⟨-, h⟩ | ⟨-, span, spans, -, h⟩
      · exact ⟨_, _, _, h, rfl⟩
      · exact ⟨_, _, _, h, rfl⟩
    · exact ⟨_, _, _, rfl, rfl⟩
  rcases opened with - | -
  · refine ⟨s, ss, ?_, Nat.le_of_eq hlog.symm⟩
    rw [attempt, hopen]
  · rw [attempt_of_opened hopen]
    refine ⟨_, _, rfl, ?_⟩
    rw [← hlog]
    exact s.logged_le_step a _

/-- Once the first session has that much in its log, it keeps it to the end of the step. -/
theorem stepLoop_logged (n N : ℕ) (attempts : List Attempt) :
    ∀ (done todo : List (ServerSession τ)) (b k : ℕ) (inputs : List τ),
      (∃ t rest, done ++ todo = t :: rest ∧ N ≤ t.logged) →
      ∃ t rest, (stepLoop cfg blocks n attempts done todo b k inputs).1 = t :: rest ∧
        N ≤ t.logged := by
  induction attempts with
  | nil =>
    intro done todo b k inputs h
    rw [stepLoop]
    split_ifs <;> exact h
  | cons a attempts ih =>
    intro done todo b k inputs h
    by_cases hb : cfg.numBlocks ≤ b
    · rw [stepLoop, if_pos hb]
      exact h
    have hkeep : ∀ todo' answer, attempt cfg blocks a n
        ((done ++ todo).isEmpty || decide (1 ≤ k)) b todo inputs = (todo', answer) →
        ∃ t rest, done ++ todo' = t :: rest ∧ N ≤ t.logged := by
      intro todo' answer hatt
      obtain ⟨t, rest, ht, hN⟩ := h
      rcases done with - | ⟨d, done⟩
      · rw [List.nil_append] at ht
        subst ht
        have hstep := attempt_logged cfg blocks a n
          (([] ++ t :: rest).isEmpty || decide (1 ≤ k)) b t rest inputs
        rw [hatt] at hstep
        obtain ⟨t', rest', ht', hle⟩ := hstep
        exact ⟨t', rest', ht', Nat.le_trans hN hle⟩
      · obtain ⟨rfl, -⟩ := List.cons.inj ht
        exact ⟨d, _, rfl, hN⟩
    rw [stepLoop, if_neg hb]
    rcases hatt : attempt cfg blocks a n ((done ++ todo).isEmpty || decide (1 ≤ k)) b todo inputs
      with ⟨todo', answer⟩
    have hnext := hkeep todo' answer hatt
    have hfails : ∃ t rest, (if cfg.maxRetries = some (k + 1) then
        (done ++ todo', Except.error Error.retriesExhausted)
        else stepLoop cfg blocks n attempts done todo' b (k + 1) inputs).1 = t :: rest ∧
          N ≤ t.logged := by
      split_ifs
      · exact hnext
      · exact ih done todo' b (k + 1) inputs hnext
    simp only [hatt]
    rcases todo' with - | ⟨s, ss⟩
    · exact hfails
    rcases answer with - | outputs
    · exact hfails
    · exact ih (done ++ [s]) ss s.span.stop 0 outputs (by simpa using hnext)

/-! ### A step that brings tokens -/

theorem trimRecoveredHistory_self (x : List τ) (position : ℕ) :
    trimRecoveredHistory x x.length position = x := by
  unfold trimRecoveredHistory
  split_ifs <;> first | rfl | omega

/-- An attempt that comes to an open session logs the tokens there. -/
theorem attempt_logs {a : Attempt} {update : Bool} {b : ℕ} {todo rest : List (ServerSession τ)}
    {t : ServerSession τ} (hclosed : t.closed = false) (hlog : t.logged = t.position)
    (h : (if update then updateSequence cfg a b todo else (todo, true)) = (t :: rest, true)) :
    ∃ t' rest', (attempt cfg blocks a x.length update b todo x).1 = t' :: rest' ∧
      t.position + x.length ≤ t'.logged := by
  rw [attempt_of_opened h]
  refine ⟨_, _, rfl, Nat.le_of_eq ?_⟩
  rw [ServerSession.logged, (t.step_open hclosed a _).1, Option.getD_some,
    trimRecoveredHistory_self, ServerSession.length_log hlog]

/-- A step that brings tokens and comes to an open session at all leaves them in the log of the
first one. -/
theorem stepLoop_logs {a : Attempt} {attempts : List Attempt} {k N : ℕ}
    {todo : List (ServerSession τ)} (h0 : 0 < cfg.numBlocks)
    (h : ∃ t rest, (attempt cfg blocks a x.length (todo.isEmpty || decide (1 ≤ k)) 0 todo x).1 =
      t :: rest ∧ N ≤ t.logged) :
    ∃ t rest, (stepLoop cfg blocks x.length (a :: attempts) [] todo 0 k x).1 = t :: rest ∧
      N ≤ t.logged := by
  rw [stepLoop, if_neg (Nat.not_le_of_lt h0)]
  simp only [List.nil_append]
  rcases hatt : attempt cfg blocks a x.length (todo.isEmpty || decide (1 ≤ k)) 0 todo x
    with ⟨todo', answer⟩
  rw [hatt] at h
  obtain ⟨t, rest, rfl, hN⟩ := h
  rcases answer with - | outputs
  · dsimp only
    split_ifs
    · exact ⟨t, rest, rfl, hN⟩
    · exact stepLoop_logged _ N attempts _ _ _ _ _ ⟨t, rest, rfl, hN⟩
  · exact stepLoop_logged _ N attempts _ _ _ _ _ ⟨t, rest, rfl, hN⟩

structure Unopened (blocks : ℕ → Causal τ τ) (cfg : Config) (todo : List (ServerSession τ)) :
    Prop where
  closed : ∀ t ∈ todo.head?, t.closed = true
  sessions : ∀ t ∈ todo, AtPrefix blocks [] t
  covers : todo = [] ∨ Covers 0 cfg.numBlocks (todo.map fun t => t.span)

theorem AtPrefix.close {t : ServerSession τ} (h : AtPrefix blocks [] t) :
    AtPrefix blocks [] { t with closed := true } :=
  ⟨h.position, h.history, h.caches, fun hne => absurd rfl hne⟩

theorem AtPrefix.logged {t : ServerSession τ} (h : AtPrefix blocks toks t) :
    t.logged = toks.length := by
  rw [ServerSession.logged, h.history, length_hidden]

theorem Unopened.close {todo : List (ServerSession τ)} (h : Unopened blocks cfg todo) :
    Unopened blocks cfg (todo.modifyHead fun s => { s with closed := true }) := by
  rcases todo with - | ⟨t, rest⟩
  · exact h
  · obtain ⟨ht, hrest⟩ := List.forall_mem_cons.mp h.sessions
    refine ⟨?_, List.forall_mem_cons.mpr ⟨ht.close, hrest⟩, .inr ?_⟩
    · rintro s ⟨⟩
      rfl
    · exact h.covers.resolve_left (List.cons_ne_nil _ _)

/-- An attempt with no open session: it cannot open one, or logs the tokens. -/
theorem Unopened.attempt {todo : List (ServerSession τ)} (h : Unopened blocks cfg todo)
    (h0 : 0 < cfg.numBlocks) {a : Attempt} (ha : a.Routed cfg) (k : ℕ) :
    ((todo ≠ [] ∧ k = 0 ∨ a.fate = .unreachable) ∧ ∃ todo',
      InferenceSession.attempt cfg blocks a x.length (todo.isEmpty || decide (1 ≤ k)) 0 todo x =
        (todo', none) ∧ Unopened blocks cfg todo' ∧ (todo' = [] ↔ todo = [])) ∨
    ¬ (todo ≠ [] ∧ k = 0) ∧ a.fate ≠ .unreachable ∧ ∃ t rest,
      (InferenceSession.attempt cfg blocks a x.length (todo.isEmpty || decide (1 ≤ k)) 0 todo x).1 =
        t :: rest ∧ x.length ≤ t.logged := by
  by_cases hstep : todo ≠ [] ∧ k = 0
  · -- the step of a closed session raises at once
    left
    obtain ⟨hne, rfl⟩ := hstep
    obtain ⟨t, rest, rfl⟩ := List.exists_cons_of_ne_nil hne
    refine ⟨.inl ⟨hne, rfl⟩, t :: rest, ?_, h, Iff.rfl⟩
    rw [attempt_of_opened rfl, ServerSession.step_closed (h.closed t rfl)]
    rfl
  have hupdate : (todo.isEmpty || decide (1 ≤ k)) = true := by
    rw [Bool.or_eq_true, List.isEmpty_iff, decide_eq_true_iff]
    by_cases hnil : todo = []
    · exact .inl hnil
    · exact .inr (Nat.pos_of_ne_zero fun hk => hstep ⟨hnil, hk⟩)
  rw [hupdate]
  rcases updateSequence_cases cfg a 0 todo with ⟨hraises, hseq⟩ | ⟨hf, span, spans, hspans, hseq⟩
  · left
    have hf := hraises.resolve_right (updatedSpans_covers ha h0 h.covers).2
    have hupdated : (if true then updateSequence cfg a 0 todo else (todo, true)) =
        (todo.modifyHead fun s => { s with closed := true }, false) := hseq
    refine ⟨.inr hf, _, attempt_of_raised hupdated (.inl rfl), h.close, ?_⟩
    rcases todo with - | ⟨t, rest⟩
    · simp
    · simp
  · right
    refine ⟨hstep, hf, ?_⟩
    have hlog : (todo.head?.bind fun s => s.history).getD [] = [] := by
      rcases todo with - | ⟨t, rest⟩
      · rfl
      · have := (h.sessions t List.mem_cons_self).logged
        exact List.eq_nil_of_length_eq_zero this
    set opened : ServerSession τ := { ServerSession.create span with
      history := todo.head?.bind fun s => s.history } with hopened
    have hlogged : opened.logged = opened.position := by
      rw [ServerSession.logged, hlog]
      rfl
    have hopens : ∃ t rest,
        (InferenceSession.attempt cfg blocks a x.length true 0 todo x).1 = t :: rest ∧
          opened.position + x.length ≤ t.logged := attempt_logs rfl hlogged hseq
    rwa [show opened.position = 0 from rfl, Nat.zero_add] at hopens

/-- The attempts that come to `_update_sequence`, from attempt `k` on. -/
def updating (m k : ℕ) (todo : List (ServerSession τ)) (attempts : List Attempt) : List Attempt :=
  (attempts.take (m - k)).drop (if todo ≠ [] ∧ k = 0 then 1 else 0)

/-- With no open session the loop ends as it began, unless some attempt opens one. -/
theorem Unopened.stepLoop {m : ℕ} (h0 : 0 < cfg.numBlocks) (hm : cfg.maxRetries = some m)
    (attempts : List Attempt) : ∀ (todo : List (ServerSession τ)) (k : ℕ), k < m →
      Unopened blocks cfg todo → (∀ a ∈ attempts, a.Routed cfg) →
      (stepLoop cfg blocks x.length attempts [] todo 0 k x).2 = .error .retriesExhausted →
      ((∀ a ∈ updating m k todo attempts, a.fate = .unreachable) ∧
        ∀ t ∈ (stepLoop cfg blocks x.length attempts [] todo 0 k x).1, AtPrefix blocks [] t) ∨
      (¬ ∀ a ∈ updating m k todo attempts, a.fate = .unreachable) ∧
        ∃ t rest, (stepLoop cfg blocks x.length attempts [] todo 0 k x).1 = t :: rest ∧
          x.length ≤ t.logged := by
  induction attempts with
  | nil =>
    intro todo k hk h hroute hexh
    rw [InferenceSession.stepLoop, if_neg (Nat.not_le_of_lt h0)] at hexh
    cases hexh
  | cons a attempts ih =>
    intro todo k hk h hroute hexh
    obtain ⟨ha, hroute⟩ := List.forall_mem_cons.mp hroute
    obtain ⟨j, hj⟩ : ∃ j, m - k = j + 1 := ⟨m - k - 1, by omega⟩
    rcases h.attempt h0 ha k (x := x) with ⟨hfails, todo', hatt, h', hnil⟩ | ⟨hstep, hf, hlogs⟩
    · have hloop : InferenceSession.stepLoop cfg blocks x.length (a :: attempts) [] todo 0 k x =
          if cfg.maxRetries = some (k + 1) then (todo', .error .retriesExhausted)
          else InferenceSession.stepLoop cfg blocks x.length attempts [] todo' 0 (k + 1) x := by
        rw [InferenceSession.stepLoop, if_neg (Nat.not_le_of_lt h0)]
        simp only [List.nil_append, hatt]
      rw [hloop] at hexh ⊢
      -- the first attempt counts unless it is the step of a closed session
      have hupdating (hsame : ∀ a ∈ attempts.take j, a.fate = .unreachable) :
          ∀ b ∈ updating m k todo (a :: attempts), b.fate = .unreachable := by
        intro b hb
        rw [updating, hj, List.take_succ_cons] at hb
        split_ifs at hb with hc
        · exact hsame b hb
        · rw [List.drop_zero] at hb
          rcases List.mem_cons.mp hb with heq | hb
          · rw [heq]
            exact hfails.resolve_left hc
          · exact hsame b hb
      by_cases hmax : cfg.maxRetries = some (k + 1)
      · rw [if_pos hmax]
        left
        rw [hm] at hmax
        have hj0 : j = 0 := by
          have := Option.some.inj hmax
          omega
        subst hj0
        exact ⟨hupdating fun b hb => absurd hb List.not_mem_nil, h'.sessions⟩
      · rw [if_neg hmax] at hexh ⊢
        have hk' : k + 1 < m := by
          rw [hm] at hmax
          exact Nat.lt_of_le_of_ne hk fun h => hmax (congrArg some h.symm)
        have hrest : updating m (k + 1) todo' attempts = attempts.take j := by
          rw [updating, if_neg (fun h => absurd h.2 (Nat.succ_ne_zero k)), List.drop_zero,
            show m - (k + 1) = j by omega]
        rcases ih todo' (k + 1) hk' h' hroute hexh with ⟨hun, hsessions⟩ | ⟨hun, hlog⟩
        · rw [hrest] at hun
          exact .inl ⟨hupdating hun, hsessions⟩
        · rw [hrest] at hun
          refine .inr ⟨fun hall => hun fun b hb => hall b ?_, hlog⟩
          rw [updating, hj, List.take_succ_cons]
          split_ifs
          · exact hb
          · exact List.mem_cons_of_mem a hb
    · refine .inr ⟨fun hall => hf (hall a ?_), stepLoop_logs h0 hlogs⟩
      rw [updating, hj, List.take_succ_cons, if_neg hstep]
      exact List.mem_cons_self

/-! ### A step without tokens -/

/-- Sessions at `toks` to which the earlier stages of an empty step pushed nothing new. -/
def Idle (blocks : ℕ → Causal τ τ) (toks : List τ) (t : ServerSession τ) : Prop :=
  AtPrefix blocks toks t ∧ ∀ c ∈ t.pushed, c = (toks.length, [])

theorem hidden_nil (b : ℕ) : hidden blocks b ([] : List τ) = [] :=
  List.eq_nil_of_length_eq_zero (length_hidden blocks b [])

theorem serveBlocks_nil (toks : List τ) : ∀ k b,
    serveBlocks blocks toks.length b ((List.range' b k).map fun b => hidden blocks b toks) [] =
      ((List.range' b k).map fun b => hidden blocks b toks, []) := by
  intro k
  induction k with
  | zero => intro b; rfl
  | succ k ih =>
    intro b
    have hcut : (hidden blocks b toks).take toks.length ++ [] = hidden blocks b toks := by
      rw [List.append_nil, List.take_of_length_le (Nat.le_of_eq (length_hidden blocks b toks))]
    have hout : ((blocks b).run (hidden blocks b toks)).drop toks.length = [] :=
      List.drop_eq_nil_of_le (Nat.le_of_eq (by rw [(blocks b).length_run, length_hidden]))
    simp only [List.range'_succ, List.map_cons, serveBlocks, hcut, hout, ih]

theorem ServerSession.log_nil (t : ServerSession τ) : t.log [] = t.history.getD [] := by
  unfold ServerSession.log
  rcases t.history with - | history
  · rfl
  · simp [lastTokens]

theorem Idle.sent {t : ServerSession τ} (h : Idle blocks toks t) : t.sent [] = [] := by
  unfold ServerSession.sent
  split_ifs with hstepped
  · rfl
  · by_cases hne : toks = []
    · rw [t.log_nil, h.1.history, hne, hidden_nil]
    · exact absurd (h.1.live hne).1 hstepped

theorem Idle.taken {t : ServerSession τ} (h : Idle blocks toks t) (a : Attempt) :
    t.taken a [] = (toks.length, []) := by
  have hall : ∀ c ∈ (t.position, t.sent []) :: t.pushed, c = (toks.length, []) :=
    List.forall_mem_cons.mpr ⟨by rw [h.1.position, h.sent], h.2⟩
  rw [ServerSession.taken, List.getD_eq_getElem?_getD]
  rcases hget : ((t.position, t.sent []) :: t.pushed)[a.copy]? with - | c
  · exact hall _ List.mem_cons_self
  · exact hall c (List.mem_of_getElem? hget)

/-- A step without tokens changes neither the log nor the caches. -/
theorem Idle.step {t : ServerSession τ} (h : Idle blocks toks t) (a : Attempt) :
    Idle blocks toks (t.step cfg blocks a []).session ∧
      (∀ c ∈ (t.step cfg blocks a []).push, c = (toks.length, [])) ∧
      ∀ y ∈ (t.step cfg blocks a []).answer, y = [] := by
  by_cases hclosed : t.closed = true
  · rw [ServerSession.step_closed hclosed]
    exact ⟨h, by simp, by simp⟩
  have hopen : t.closed = false := by simpa using hclosed
  have hlogged (stepped : Bool) (hs : toks ≠ [] → stepped = true) : Idle blocks toks
      { t with history := some (t.log []), stepped := stepped } := by
    refine ⟨⟨h.1.position, ?_, h.1.caches, fun hne => ⟨hs hne, hopen⟩⟩, h.2⟩
    rw [Option.getD_some, t.log_nil]
    exact h.1.history
  have hserve : t.serve cfg blocks (toks.length, []) = none ∨
      t.serve cfg blocks (toks.length, []) = some (t.caches, []) := by
    rw [ServerSession.serve]
    split_ifs
    · exact .inl rfl
    · right
      rw [h.1.caches, spanCaches, serveBlocks_nil]
  rw [ServerSession.step, if_neg hclosed]
  simp only [h.sent, List.length_nil, Nat.add_zero]
  cases hf : a.fate with
  | unreachable => exact ⟨hlogged t.stepped fun hne => (h.1.live hne).1, by simp, by simp⟩
  | lost => exact ⟨hlogged true fun _ => rfl, by simp, by simp⟩
  | answered =>
    rcases hserve with hs | hs
    · simp only [h.taken, hs]
      exact ⟨hlogged true fun _ => rfl, by simp, by simp⟩
    · simp only [h.taken, hs, if_true]
      exact ⟨hlogged true fun _ => rfl, by simp, by simp⟩
  | dropped =>
    rcases hserve with hs | hs
    · simp only [h.taken, hs]
      exact ⟨hlogged true fun _ => rfl, by simp, by simp⟩
    · simp only [h.taken, hs, reduceCtorEq, if_false]
      exact ⟨hlogged true fun _ => rfl, by simp, by simp⟩

theorem idle_create {history : Option (List τ)} (h : history.getD [] = []) (span : Span) :
    Idle blocks [] { ServerSession.create span with history } :=
  ⟨⟨rfl, by rw [hidden_nil]; exact h, (spanCaches_nil blocks span).symm, fun hne => absurd rfl hne⟩,
    fun c hc => by cases hc⟩

theorem Idle.close {t : ServerSession τ} (h : Idle blocks [] t) :
    Idle blocks [] { t with closed := true } := ⟨h.1.close, h.2⟩

theorem Idle.receivePush {t : ServerSession τ} (h : Idle blocks toks t) :
    Idle blocks toks (t.receivePush cfg (toks.length, [])) := by
  unfold ServerSession.receivePush
  split_ifs
  · refine ⟨⟨h.1.position, h.1.history, h.1.caches, h.1.live⟩, fun c hc => ?_⟩
    rcases List.mem_append.mp hc with hc | hc
    · exact h.2 c hc
    · exact List.mem_singleton.mp hc
  · exact h

/-- An attempt of an empty step; where there are tokens already it may not replace sessions. -/
theorem Idle.attempt (cfg : Config) (a : Attempt) {update : Bool} (b : ℕ)
    {todo : List (ServerSession τ)} (h : ∀ t ∈ todo, Idle blocks toks t)
    (hupdate : update = true → toks = []) :
    (∀ t ∈ (InferenceSession.attempt cfg blocks a 0 update b todo []).1, Idle blocks toks t) ∧
      ∀ y ∈ (InferenceSession.attempt cfg blocks a 0 update b todo []).2, y = [] := by
  obtain ⟨todo', opened, hseq, hidle⟩ : ∃ todo' opened,
      (if update then updateSequence cfg a b todo else (todo, true)) = (todo', opened) ∧
        ∀ t ∈ todo', Idle blocks toks t := by
    split_ifs with hup
    · obtain rfl := hupdate hup
      rcases updateSequence_cases cfg a b todo with ⟨-, hseq⟩ | ⟨-, span, spans, -, hseq⟩
      · refine ⟨_, _, hseq, ?_⟩
        rcases todo with - | ⟨t, rest⟩
        · exact fun t ht => absurd ht List.not_mem_nil
        · obtain ⟨ht, hrest⟩ := List.forall_mem_cons.mp h
          exact List.forall_mem_cons.mpr ⟨ht.close, hrest⟩
      · refine ⟨_, _, hseq, List.forall_mem_cons.mpr ⟨idle_create ?_ span,
          List.forall_mem_append.mpr ⟨?_, fun t ht => h t (List.mem_of_mem_tail ht)⟩⟩⟩
        · rcases todo with - | ⟨t, rest⟩
          · rfl
          · have := (h t List.mem_cons_self).1.history
            rwa [hidden_nil] at this
        · intro t ht
          obtain ⟨span', -, rfl⟩ := List.mem_map.mp ht
          exact idle_create rfl span'
    · exact ⟨_, _, rfl, h⟩
  rcases opened with - | -
  · rw [attempt_of_raised hseq (.inl rfl)]
    exact ⟨hidle, by simp⟩
  rcases todo' with - | ⟨t, rest⟩
  · rw [attempt_of_raised hseq (.inr rfl)]
    exact ⟨hidle, by simp⟩
  obtain ⟨ht, hrest⟩ := List.forall_mem_cons.mp hidle
  rw [attempt_of_opened hseq, show trimRecoveredHistory ([] : List τ) 0 t.position = [] from
    trimRecoveredHistory_self [] t.position]
  have hidle : Idle blocks toks (t.step cfg blocks a []).session ∧
      (∀ c ∈ (t.step cfg blocks a []).push, c = (toks.length, [])) ∧
      ∀ y ∈ (t.step cfg blocks a []).answer, y = [] := ht.step a
  obtain ⟨hstep, hpush, hanswer⟩ := hidle
  refine ⟨List.forall_mem_cons.mpr ⟨hstep, ?_⟩, hanswer⟩
  rcases hp : (t.step cfg blocks a []).push with - | copy
  · exact hrest
  · obtain rfl := hpush copy hp
    rcases rest with - | ⟨u, rest⟩
    · exact hrest
    · obtain ⟨hu, hrest⟩ := List.forall_mem_cons.mp hrest
      exact List.forall_mem_cons.mpr ⟨hu.receivePush, hrest⟩

/-- An empty step leaves the sessions at `toks`, as long as it replaces none of them. -/
theorem Idle.stepLoop (attempts : List Attempt) : ∀ (done todo : List (ServerSession τ)) (b k : ℕ),
    toks = [] ∨ cfg.maxRetries = some 1 ∧ k = 0 ∧ done ++ todo ≠ [] →
    (∀ t ∈ done ++ todo, Idle blocks toks t) →
    ∀ t ∈ (InferenceSession.stepLoop cfg blocks 0 attempts done todo b k []).1,
      Idle blocks toks t := by
  induction attempts with
  | nil =>
    intro done todo b k hmode h
    rw [InferenceSession.stepLoop]
    split_ifs <;> exact h
  | cons a attempts ih =>
    intro done todo b k hmode h
    by_cases hb : cfg.numBlocks ≤ b
    · rw [InferenceSession.stepLoop, if_pos hb]
      exact h
    obtain ⟨hdone, htodo⟩ := List.forall_mem_append.mp h
    have hupdate : ((done ++ todo).isEmpty || decide (1 ≤ k)) = true → toks = [] := by
      rcases hmode with hnil | ⟨-, rfl, hne⟩
      · exact fun _ => hnil
      · intro hup
        rw [Bool.or_eq_true, List.isEmpty_iff, decide_eq_true_iff] at hup
        exact absurd (hup.resolve_right (Nat.not_succ_le_zero 0)) hne
    rw [InferenceSession.stepLoop, if_neg hb]
    rcases hatt : InferenceSession.attempt cfg blocks a 0
      ((done ++ todo).isEmpty || decide (1 ≤ k)) b todo [] with ⟨todo', answer⟩
    have hattempt := Idle.attempt cfg a b htodo hupdate
    rw [hatt] at hattempt
    obtain ⟨hidle, hanswer⟩ := hattempt
    have hall := List.forall_mem_append.mpr ⟨hdone, hidle⟩
    have hfails : ∀ t ∈ (if cfg.maxRetries = some (k + 1) then
        (done ++ todo', Except.error Error.retriesExhausted)
        else InferenceSession.stepLoop cfg blocks 0 attempts done todo' b (k + 1) []).1,
          Idle blocks toks t := by
      split_ifs with hmax
      · exact hall
      · refine ih done todo' b (k + 1) (.inl ?_) hall
        refine hmode.resolve_right ?_
        rintro ⟨h1, rfl, -⟩
        exact hmax h1
    simp only [hatt]
    rcases todo' with - | ⟨t, rest⟩
    · exact hfails
    rcases answer with - | outputs
    · exact hfails
    · obtain rfl := hanswer outputs rfl
      refine ih (done ++ [t]) rest t.span.stop 0 ?_ (by simpa using hall)
      exact hmode.imp_right fun hm => ⟨hm.1, rfl, by simp⟩

/-! ### Where the attempts run out -/

/-- The sessions of an attempt still lead to the last block, and a retry that fails leaves its
first session closed, or opened anew and unanswered. -/
theorem attempt_covers (blocks : ℕ → Causal τ τ) {a : Attempt} (ha : a.Routed cfg) (n : ℕ) {b : ℕ}
    {update : Bool} {todo : List (ServerSession τ)} (inputs : List τ) (hb : b < cfg.numBlocks)
    (hcov : (todo = [] ∧ update = true) ∨ Covers b cfg.numBlocks (todo.map fun t => t.span)) :
    let r := attempt cfg blocks a n update b todo inputs
    (r.1 = [] ∧ todo = [] ∨ Covers b cfg.numBlocks (r.1.map fun t => t.span)) ∧
      (todo ≠ [] → update = true → r.2 = none →
        ∃ t ∈ r.1, t.closed = true ∨ t.position = 0) := by
  intro r
  obtain ⟨todo', opened, hseq, hcov', hbroken⟩ : ∃ (todo' : List (ServerSession τ)) (opened : Bool),
      (if update then updateSequence cfg a b todo else (todo, true)) = (todo', opened) ∧
        (todo' = [] ∧ todo = [] ∨ Covers b cfg.numBlocks (todo'.map fun t => t.span)) ∧
        (todo ≠ [] → update = true → ∃ t rest, todo' = t :: rest ∧
          (t.closed = true ∨ t.closed = false ∧ t.position = 0)) := by
    split_ifs with hup
    · rcases updateSequence_cases cfg a b todo with ⟨-, hseq⟩ | ⟨-, span, spans, hspans, hseq⟩
      · refine ⟨_, _, hseq, ?_, fun hne _ => ?_⟩
        · rcases todo with - | ⟨t, rest⟩
          · exact .inl ⟨rfl, rfl⟩
          · exact .inr (hcov.resolve_left fun h => List.cons_ne_nil _ _ h.1)
        · obtain ⟨t, rest, rfl⟩ := List.exists_cons_of_ne_nil hne
          exact ⟨_, rest, rfl, .inl rfl⟩
      · refine ⟨_, _, hseq, .inr ?_, fun _ _ => ⟨_, _, rfl, .inr ⟨rfl, rfl⟩⟩⟩
        have hnew := (updatedSpans_covers ha hb (hcov.imp_left fun h => h.1)).1
        rw [hspans] at hnew
        obtain ⟨hstart, hlt, hnew⟩ := hnew
        refine ⟨hstart, hlt, ?_⟩
        rw [List.map_append, List.map_tail]
        refine covers_append.mpr ⟨_, covers_create hnew, ?_⟩
        rcases todo with - | ⟨t, rest⟩
        · rfl
        · exact (hcov.resolve_left fun h => List.cons_ne_nil _ _ h.1).2.2
    · refine ⟨_, _, rfl, .inr (hcov.resolve_left fun h => hup h.2), fun _ h => absurd h hup⟩
  have hr : r = attempt cfg blocks a n update b todo inputs := rfl
  rcases todo' with - | ⟨t, rest⟩
  · rw [attempt_of_raised hseq (.inr rfl)] at hr
    rw [hr]
    refine ⟨hcov', fun hne hup _ => ?_⟩
    obtain ⟨t, rest, h, -⟩ := hbroken hne hup
    cases h
  rcases opened with - | -
  · rw [attempt_of_raised hseq (.inl rfl)] at hr
    rw [hr]
    refine ⟨hcov', fun hne hup _ => ?_⟩
    obtain ⟨u, us, h, hu⟩ := hbroken hne hup
    exact ⟨u, by rw [h]; exact List.mem_cons_self, hu.imp_right fun h => h.2⟩
  rw [attempt_of_opened hseq] at hr
  rw [hr]
  constructor
  · right
    have hcov' := hcov'.resolve_left fun h => List.cons_ne_nil _ _ h.1
    rw [List.map_cons, map_span_pushOutputs, ServerSession.step_span]
    exact hcov'
  · intro hne hup hanswer
    obtain ⟨u, us, h, hu⟩ := hbroken hne hup
    obtain ⟨rfl, rfl⟩ := List.cons.inj h
    refine ⟨_, List.mem_cons_self, ?_⟩
    rcases hu with hc | ⟨hc, hp⟩
    · left
      rw [ServerSession.step_closed hc]
      exact hc
    · right
      rw [(ServerSession.step_open hc a _).2 hanswer, hp]

/-- Where the loop stands: its sessions up to block `b`, and those from there on, if any. -/
structure Midway (cfg : Config) (done todo : List (ServerSession τ)) (b : ℕ) : Prop where
  before : Covers 0 b (done.map fun t => t.span)
  after : done ++ todo = [] ∧ b = 0 ∨ Covers b cfg.numBlocks (todo.map fun t => t.span)

theorem Midway.covers {done todo : List (ServerSession τ)} {b : ℕ} (h : Midway cfg done todo b) :
    done ++ todo = [] ∨ Covers 0 cfg.numBlocks ((done ++ todo).map fun t => t.span) := by
  refine h.after.imp (fun h => h.1) fun htodo => ?_
  rw [List.map_append]
  exact covers_append.mpr ⟨b, h.before, htodo⟩

/-- With blocks left there is a session to come, if there is one at all. -/
theorem Midway.todo_ne_nil {done todo : List (ServerSession τ)} {b : ℕ}
    (h : Midway cfg done todo b) (hlt : b < cfg.numBlocks) (hne : done ++ todo ≠ []) :
    todo ≠ [] := by
  intro hnil
  rcases h.after with h | h
  · exact hne h.1
  · rw [hnil] at h
    exact absurd h (Nat.ne_of_lt hlt)

/-- An attempt keeps this; one that fails at a retry leaves a broken session. -/
theorem Midway.attempt {done todo todo' : List (ServerSession τ)} {answer : Option (List τ)}
    {b k n : ℕ} {a : Attempt} {inputs : List τ} (h : Midway cfg done todo b) (ha : a.Routed cfg)
    (hlt : b < cfg.numBlocks)
    (hatt : InferenceSession.attempt cfg blocks a n
      ((done ++ todo).isEmpty || decide (1 ≤ k)) b todo inputs = (todo', answer)) :
    Midway cfg done todo' b ∧ (done ++ todo' = [] → done ++ todo = []) ∧
      (1 ≤ k → done ++ todo ≠ [] → answer = none →
        ∃ t ∈ todo', t.closed = true ∨ t.position = 0) := by
  have hcov : (todo = [] ∧ ((done ++ todo).isEmpty || decide (1 ≤ k)) = true) ∨
      Covers b cfg.numBlocks (todo.map fun t => t.span) := by
    refine h.after.imp_left fun h => ⟨(List.append_eq_nil_iff.mp h.1).2, ?_⟩
    rw [h.1]
    rfl
  have hattempt := attempt_covers blocks ha n inputs hlt hcov
  dsimp only at hattempt
  rw [hatt] at hattempt
  obtain ⟨hcov', hbroken⟩ := hattempt
  refine ⟨⟨h.before, ?_⟩, fun hnil => ?_, fun hk hne hnone => ?_⟩
  · rcases hcov' with ⟨hnil, hnil'⟩ | hcov'
    · refine h.after.imp (fun h => ⟨?_, h.2⟩) fun h => ?_
      · rw [(List.append_eq_nil_iff.mp h.1).1, show todo' = [] from hnil]
        rfl
      · rw [hnil'] at h
        exact absurd h (Nat.ne_of_lt hlt)
    · exact .inr hcov'
  · obtain ⟨hd, ht⟩ := List.append_eq_nil_iff.mp hnil
    rcases hcov' with ⟨-, hnil⟩ | hcov'
    · rw [hd, hnil, List.append_nil]
    · rw [ht] at hcov'
      exact absurd hcov' (Nat.ne_of_lt hlt)
  · exact hbroken (h.todo_ne_nil hlt hne) (by simp [hk]) hnone

/-- The loop leaves sessions that cover the blocks; where it gave up after a retry, one of them
is closed, or at position 0. -/
theorem stepLoop_covers (n : ℕ) (attempts : List Attempt) :
    ∀ (done todo : List (ServerSession τ)) (b k : ℕ) (inputs : List τ),
      (∀ a ∈ attempts, a.Routed cfg) → Midway cfg done todo b →
      let r := stepLoop cfg blocks n attempts done todo b k inputs
      (r.1 = [] ∧ done ++ todo = [] ∨ Covers 0 cfg.numBlocks (r.1.map fun t => t.span)) ∧
        (done ++ todo ≠ [] → cfg.maxRetries ≠ some 1 → r.2 = .error .retriesExhausted →
          ∃ t ∈ r.1, t.closed = true ∨ t.position = 0) := by
  induction attempts with
  | nil =>
    intro done todo b k inputs _ hmid
    rw [stepLoop]
    have hall := hmid.covers.imp_left fun h => And.intro h h
    split_ifs
    · exact ⟨hall, fun _ _ h => by cases h⟩
    · exact ⟨hall, fun _ _ h => by cases h⟩
  | cons a attempts ih =>
    intro done todo b k inputs hroute hmid
    obtain ⟨ha, hroute⟩ := List.forall_mem_cons.mp hroute
    by_cases hb : cfg.numBlocks ≤ b
    · rw [stepLoop, if_pos hb]
      exact ⟨hmid.covers.imp_left fun h => And.intro h h, fun _ _ h => by cases h⟩
    have hlt := Nat.lt_of_not_le hb
    rcases hatt : attempt cfg blocks a n ((done ++ todo).isEmpty || decide (1 ≤ k)) b todo inputs
      with ⟨todo', answer⟩
    obtain ⟨hmid', hempty, hbroken⟩ := hmid.attempt ha hlt hatt
    have hfails (hanswer : answer = none ∨ todo' = []) :
        let r := if cfg.maxRetries = some (k + 1) then
          (done ++ todo', Except.error Error.retriesExhausted)
          else stepLoop cfg blocks n attempts done todo' b (k + 1) inputs
        (r.1 = [] ∧ done ++ todo = [] ∨ Covers 0 cfg.numBlocks (r.1.map fun t => t.span)) ∧
          (done ++ todo ≠ [] → cfg.maxRetries ≠ some 1 → r.2 = .error .retriesExhausted →
            ∃ t ∈ r.1, t.closed = true ∨ t.position = 0) := by
      intro r
      by_cases hmax : cfg.maxRetries = some (k + 1)
      · simp only [r, if_pos hmax]
        refine ⟨hmid'.covers.imp_left fun h => ⟨h, hempty h⟩, fun hne hm1 _ => ?_⟩
        -- the attempt that gave up was a retry
        have hk : 1 ≤ k := by
          rcases k with - | k
          · exact absurd hmax hm1
          · exact Nat.succ_le_succ (Nat.zero_le k)
        have hnone := hanswer.resolve_right (hmid'.todo_ne_nil hlt fun h => hne (hempty h))
        obtain ⟨t, ht, hbad⟩ := hbroken hk hne hnone
        exact ⟨t, List.mem_append_right done ht, hbad⟩
      · simp only [r, if_neg hmax]
        obtain ⟨h₁, h₂⟩ := ih done todo' b (k + 1) inputs hroute hmid'
        exact ⟨h₁.imp_left fun h => ⟨h.1, hempty h.2⟩, fun hne => h₂ fun h => hne (hempty h)⟩
    rw [stepLoop, if_neg hb]
    simp only [hatt]
    rcases todo' with - | ⟨t, rest⟩
    · exact hfails (.inr rfl)
    rcases answer with - | outputs
    · exact hfails (.inl rfl)
    · obtain ⟨hs, hlt', hrest⟩ := hmid'.after.resolve_left fun h => by simp at h
      have hdone' : Covers 0 t.span.stop ((done ++ [t]).map fun t => t.span) := by
        rw [List.map_append]
        exact covers_append.mpr ⟨b, hmid.before, hs, hlt', rfl⟩
      obtain ⟨h₁, h₂⟩ := ih (done ++ [t]) rest t.span.stop 0 outputs hroute ⟨hdone', .inr hrest⟩
      exact ⟨.inr (h₁.resolve_left fun h => by simp at h), fun _ => h₂ (by simp)⟩

end BloomBee.InferenceSession

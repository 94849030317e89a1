import BloomBee.Sanity.InferenceSession

/-! The retry loop of `InferenceSession.step`. The sessions from `server_idx` on are at any
time those opened in this step, which have consumed nothing, followed by those from before
it. -/

set_option autoImplicit false

namespace BloomBee.InferenceSession

variable {τ : Type}

/-- The spans lead from block `b` to block `e`. -/
def Covers : ℕ → ℕ → List Span → Prop
  | b, e, [] => b = e
  | b, e, s :: spans => s.start = b ∧ s.start < s.stop ∧ Covers s.stop e spans

theorem Covers.le {b e : ℕ} {spans : List Span} (h : Covers b e spans) : b ≤ e := by
  induction spans generalizing b with
  | nil => exact Nat.le_of_eq h
  | cons s spans ih =>
    obtain ⟨rfl, hlt, h⟩ := h
    exact Nat.le_trans (Nat.le_of_lt hlt) (ih h)

theorem covers_append {b e : ℕ} {xs ys : List Span} :
    Covers b e (xs ++ ys) ↔ ∃ m, Covers b m xs ∧ Covers m e ys := by
  induction xs generalizing b with
  | nil => simp [Covers]
  | cons s xs ih => simp [Covers, ih, and_assoc]

/-- What the retry loop relies on: the spans of `make_sequence` lead from the failed block to
the end of the failed span, once the last of them is cut there. -/
def Attempt.Routed (cfg : Config) (a : Attempt) : Prop :=
  ∀ b e, b < e → e ≤ cfg.numBlocks → Covers b e (clampLast e (a.makeSequence b e))

/-- The attempts are enough for that many servers, and no server fails `max_retries` times
in a row. -/
def endures (maxRetries : Option ℕ) : ℕ → ℕ → List Attempt → Bool
  | 0, _, _ => true
  | _ + 1, _, [] => false
  | servers + 1, attemptNo, a :: attempts =>
    if a.fate = .answered then endures maxRetries servers 0 attempts
    else decide (maxRetries ≠ some (attemptNo + 1)) &&
      endures maxRetries (servers + 1) (attemptNo + 1) attempts

variable (blocks : ℕ → Causal τ τ)

structure Queue (toks x : List τ) (w b e : ℕ) (todo : List (ServerSession τ)) : Prop where
  covers : Covers b e (todo.map fun s => s.span)
  split : ∃ (fresh : List Span) (waiting : List (ServerSession τ)),
    todo = fresh.map ServerSession.create ++ waiting ∧ (fresh ≠ [] → w = 0) ∧
      ∀ s ∈ waiting, Waiting blocks toks x s

/-- The sessions from `server_idx` on when an attempt begins. -/
inductive Stage (toks x : List τ) (w b e : ℕ) (done : List (ServerSession τ)) :
    ℕ → List (ServerSession τ) → Prop where
  /-- No session was ever opened. -/
  | unopened {k : ℕ} (ht : toks = []) (hd : done = []) (hb : b = 0) (hw : w = 0) :
      Stage toks x w b e done k []
  | queue {todo : List (ServerSession τ)} (h : Queue blocks toks x w b e todo) :
      Stage toks x w b e done 0 todo
  /-- The first session failed in this step, with the whole history in its log. -/
  | retry {k : ℕ} {s : ServerSession τ} {rest : List (ServerSession τ)}
      (hs : s.span.start = b) (hlt : s.span.start < s.span.stop)
      (hh : s.history = some (hidden blocks s.span.start (toks ++ x)))
      (h : Queue blocks toks x 0 s.span.stop e rest) : Stage toks x w b e done (k + 1) (s :: rest)

/-- The sessions when `_update_sequence` is through or was not needed. -/
structure Front (toks x : List τ) (w b e : ℕ) (s : ServerSession τ)
    (rest : List (ServerSession τ)) : Prop where
  start : s.span.start = b
  lt : s.span.start < s.span.stop
  ready : Ready blocks toks x w s
  queue : ∀ w', (s.stepped = false → w' = 0) → Queue blocks toks x w' s.span.stop e rest

variable {blocks} {toks x : List τ} {w b e : ℕ}

theorem receivePush_span (cfg : Config) (c : ℕ × List τ) (s : ServerSession τ) :
    (s.receivePush cfg c).span = s.span := by
  unfold ServerSession.receivePush
  split_ifs <;> rfl

theorem ServerSession.step_span (cfg : Config) (blocks : ℕ → Causal τ τ) (a : Attempt)
    (s : ServerSession τ) (inputs : List τ) : (s.step cfg blocks a inputs).session.span = s.span := by
  unfold ServerSession.step
  split_ifs
  · rfl
  · cases a.fate <;> dsimp only <;> split <;> simp

theorem Waiting.receivePush {s : ServerSession τ} (h : Waiting blocks toks x s) (cfg : Config)
    {c : ℕ × List τ} (hc : IsCopy blocks toks x s.span.start c) :
    Waiting blocks toks x (s.receivePush cfg c) := by
  obtain ⟨hwarm, hcopies⟩ := h
  unfold ServerSession.receivePush
  split_ifs
  · refine ⟨⟨⟨hwarm.history, hwarm.position, hwarm.caches⟩, hwarm.stepped, hwarm.closed⟩, ?_⟩
    intro d hd
    rcases List.mem_append.mp hd with hd | hd
    · exact hcopies d hd
    · obtain rfl := List.mem_singleton.mp hd
      exact hc
  · exact ⟨hwarm, hcopies⟩

theorem map_span_pushOutputs (cfg : Config) (push : Option (ℕ × List τ))
    (todo : List (ServerSession τ)) :
    ((pushOutputs cfg push todo).map fun s => s.span) = todo.map fun s => s.span := by
  rcases push with - | c
  · rfl
  rcases todo with - | ⟨s, rest⟩
  · rfl
  · simp [pushOutputs, receivePush_span]

/-- A push reaches the next session only when that is one from before the step. -/
theorem Queue.pushOutputs {todo : List (ServerSession τ)} (h : Queue blocks toks x w b e todo)
    (cfg : Config) {push : Option (ℕ × List τ)}
    (hp : ∀ c ∈ push, IsCopy blocks toks x b c) :
    Queue blocks toks x w b e (pushOutputs cfg push todo) := by
  refine ⟨by rw [map_span_pushOutputs]; exact h.covers, ?_⟩
  obtain ⟨hcov, fresh, waiting, rfl, hw, hwait⟩ := h
  rcases push with - | c
  · exact ⟨fresh, waiting, rfl, hw, hwait⟩
  rcases fresh with - | ⟨span, fresh⟩
  · rcases waiting with - | ⟨s, waiting⟩
    · exact ⟨[], [], rfl, hw, hwait⟩
    · refine ⟨[], s.receivePush cfg c :: waiting, rfl, hw, List.forall_mem_cons.mpr ⟨?_, ?_⟩⟩
      · refine (hwait s List.mem_cons_self).receivePush cfg ?_
        rw [show s.span.start = b from hcov.1]
        exact hp c rfl
      · exact fun t ht => hwait t (List.mem_cons_of_mem _ ht)
  · refine ⟨span :: fresh, waiting, ?_, hw, hwait⟩
    simp [InferenceSession.pushOutputs, ServerSession.receivePush, ServerSession.create]

theorem Queue.front {todo : List (ServerSession τ)} (h : Queue blocks toks x w b e todo)
    (hlt : b < e) : ∃ s rest, todo = s :: rest ∧ Front blocks toks x w b e s rest := by
  obtain ⟨hcov, fresh, waiting, rfl, hw, hwait⟩ := h
  rcases fresh with - | ⟨span, fresh⟩
  · rcases waiting with - | ⟨s, waiting⟩
    · exact absurd hcov (Nat.ne_of_lt hlt)
    · obtain ⟨hs, hss, hrest⟩ := hcov
      refine ⟨s, waiting, rfl, hs, hss, .waiting (hwait s List.mem_cons_self), ?_⟩
      intro w' _
      exact ⟨hrest, [], waiting, rfl, fun h => absurd rfl h,
        fun t ht => hwait t (List.mem_cons_of_mem _ ht)⟩
  · obtain ⟨hs, hss, hrest⟩ := hcov
    refine ⟨_, _, rfl, hs, hss, .fresh (hw (List.cons_ne_nil _ _)), ?_⟩
    intro w' hw'
    exact ⟨hrest, fresh, waiting, rfl, fun _ => hw' rfl, hwait⟩

theorem covers_create {b e : ℕ} {spans : List Span} (h : Covers b e spans) :
    Covers b e ((spans.map (ServerSession.create (τ := τ))).map fun s => s.span) := by
  have : ((spans.map (ServerSession.create (τ := τ))).map fun s => s.span) = spans := by
    simp [Function.comp_def, ServerSession.create]
  rwa [this]

/-- `_update_sequence` in place of a failed session. -/
theorem updateSequence_retry {cfg : Config} {a : Attempt} {s : ServerSession τ}
    {rest : List (ServerSession τ)} (hs : s.span.start = b) (hlt : s.span.start < s.span.stop)
    (hh : s.history = some (hidden blocks s.span.start (toks ++ x)))
    (h : Queue blocks toks x 0 s.span.stop cfg.numBlocks rest) (ha : a.Routed cfg)
    (hf : a.fate ≠ .unreachable) (hz : Cut toks x 0) :
    ∃ t rest', updateSequence cfg a b (s :: rest) = (t :: rest', true) ∧
      Front blocks toks x w b cfg.numBlocks t rest' := by
  have hcov := ha b s.span.stop (hs ▸ hlt) h.covers.le
  rcases hspans : clampLast s.span.stop (a.makeSequence b s.span.stop) with - | ⟨span, spans⟩
  · rw [hspans] at hcov
    exact absurd (hs.trans hcov) (Nat.ne_of_lt hlt)
  rw [hspans] at hcov
  obtain ⟨hstart, hss, hspan⟩ := hcov
  refine ⟨{ ServerSession.create span with history := s.history },
    spans.map ServerSession.create ++ rest, ?_, hstart, hss, ?_, ?_⟩
  · simp [updateSequence, hspans, hf]
  · rw [hh, hs, ← hstart]
    exact .heir hz
  · intro w' hw'
    obtain ⟨hcov', fresh, waiting, rfl, -, hwait⟩ := h
    refine ⟨?_, spans ++ fresh, waiting, by simp, fun _ => hw' rfl, hwait⟩
    rw [List.map_append]
    exact covers_append.mpr ⟨_, covers_create hspan, hcov'⟩

/-- `_update_sequence` before the first session. -/
theorem updateSequence_nil {cfg : Config} {a : Attempt} (h0 : 0 < cfg.numBlocks)
    (ha : a.Routed cfg) (hf : a.fate ≠ .unreachable) :
    ∃ t rest', updateSequence cfg a 0 ([] : List (ServerSession τ)) = (t :: rest', true) ∧
      Front blocks toks x 0 0 cfg.numBlocks t rest' := by
  have hcov := ha 0 cfg.numBlocks h0 (Nat.le_refl _)
  have hq : Queue blocks toks x 0 0 cfg.numBlocks ((clampLast cfg.numBlocks
      (a.makeSequence 0 cfg.numBlocks)).map ServerSession.create) :=
    ⟨covers_create hcov, _, [], (List.append_nil _).symm, fun _ => rfl, fun s hs => by cases hs⟩
  obtain ⟨t, rest', hrest, hfront⟩ := hq.front h0
  refine ⟨t, rest', ?_, hfront⟩
  have hne : clampLast cfg.numBlocks (a.makeSequence 0 cfg.numBlocks) ≠ [] := by
    intro hnil
    rw [hnil] at hrest
    cases hrest
  simp [updateSequence, hf, hne, hrest]

/-- The sessions that an attempt starts from, unless `_update_sequence` raises. -/
theorem Stage.opens {cfg : Config} {a : Attempt} {done todo : List (ServerSession τ)}
    {attemptNo : ℕ} (h : Stage blocks toks x w b cfg.numBlocks done attemptNo todo)
    (hz : attemptNo ≠ 0 → Cut toks x 0) (hb : b < cfg.numBlocks) (ha : a.Routed cfg)
    (hf : a.fate ≠ .unreachable) :
    ∃ s rest, (if ((done ++ todo).isEmpty || decide (1 ≤ attemptNo)) then
        updateSequence cfg a b todo else (todo, true)) = (s :: rest, true) ∧
      Front blocks toks x w b cfg.numBlocks s rest := by
  cases h with
  | unopened ht hd hb' hw =>
    subst ht hd hb' hw
    exact updateSequence_nil hb ha hf
  | queue h =>
    obtain ⟨s, rest, rfl, hfront⟩ := h.front hb
    exact ⟨s, rest, by simp, hfront⟩
  | retry hs hlt hh h =>
    obtain ⟨t, rest', ht, hfront⟩ :=
      updateSequence_retry (w := w) hs hlt hh h ha hf (hz (Nat.succ_ne_zero _))
    exact ⟨t, rest', by simpa using ht, hfront⟩

theorem attempt_of_opened {cfg : Config} {a : Attempt} {n : ℕ} {update : Bool}
    {todo rest : List (ServerSession τ)} {s : ServerSession τ} {inputs : List τ}
    (h : (if update then updateSequence cfg a b todo else (todo, true)) = (s :: rest, true)) :
    attempt cfg blocks a n update b todo inputs =
      ((s.step cfg blocks a (trimRecoveredHistory inputs n s.position)).session ::
        pushOutputs cfg (s.step cfg blocks a (trimRecoveredHistory inputs n s.position)).push rest,
        (s.step cfg blocks a (trimRecoveredHistory inputs n s.position)).answer) := by
  unfold attempt
  rw [h]

theorem attempt_of_raised {cfg : Config} {a : Attempt} {n : ℕ} {update opened : Bool}
    {todo todo' : List (ServerSession τ)} {inputs : List τ}
    (h : (if update then updateSequence cfg a b todo else (todo, true)) = (todo', opened))
    (hraised : opened = false ∨ todo' = []) :
    attempt cfg blocks a n update b todo inputs = (todo', none) := by
  unfold attempt
  rw [h]
  rcases hraised with rfl | rfl
  · rfl
  · cases opened <;> rfl

/-- An attempt that is answered moves on to the next session. -/
theorem attempt_answers {cfg : Config} {a : Attempt} {done todo : List (ServerSession τ)}
    {attemptNo : ℕ} (h : Stage blocks toks x w b cfg.numBlocks done attemptNo todo)
    (hw : Cut toks x w) (hz : attemptNo ≠ 0 → Cut toks x 0) (hb : b < cfg.numBlocks)
    (hroom : (toks ++ x).length ≤ cfg.maxLength) (ha : a.Routed cfg) (hf : a.fate = .answered) :
    ∃ s rest w', attempt cfg blocks a x.length ((done ++ todo).isEmpty || decide (1 ≤ attemptNo)) b
        todo ((hidden blocks b (toks ++ x)).drop w) =
          (s :: rest, some ((hidden blocks s.span.stop (toks ++ x)).drop w')) ∧
      Warm blocks (toks ++ x) s ∧ s.span.start = b ∧ b < s.span.stop ∧ Cut toks x w' ∧
      Queue blocks toks x w' s.span.stop cfg.numBlocks rest := by
  obtain ⟨s, rest, hopen, hfront⟩ := h.opens hz hb ha (by rw [hf]; decide)
  obtain ⟨old, new, htakes⟩ := hfront.ready.takes hw
  rw [hfront.start] at htakes
  obtain ⟨hstep, hwarm, w', hw', hfresh, hanswer⟩ :=
    htakes.step_answers (Nat.le_of_lt hfront.lt) hroom hf
  rw [attempt_of_opened hopen]
  refine ⟨_, _, w', by rw [hanswer, hstep.span], hwarm, ?_, ?_, hw', ?_⟩
  · rw [hstep.span, hfront.start]
  · rw [hstep.span, ← hfront.start]
    exact hfront.lt
  · rw [hstep.span]
    exact (hfront.queue w' hfresh).pushOutputs cfg hstep.push

/-- An attempt that gets as far as the session and fails leaves the history in its log. -/
theorem Front.fails {cfg : Config} {a : Attempt} {rest : List (ServerSession τ)}
    {s : ServerSession τ} (h : Front blocks toks x w b cfg.numBlocks s rest) (hw : Cut toks x w)
    (hroom : (toks ++ x).length ≤ cfg.maxLength) (hf : a.fate ≠ .answered)
    (done : List (ServerSession τ)) (attemptNo : ℕ) :
    (s.step cfg blocks a (trimRecoveredHistory ((hidden blocks b (toks ++ x)).drop w) x.length
        s.position)).answer = none ∧
      Stage blocks toks x w b cfg.numBlocks done (attemptNo + 1)
        ((s.step cfg blocks a (trimRecoveredHistory ((hidden blocks b (toks ++ x)).drop w) x.length
            s.position)).session ::
          pushOutputs cfg (s.step cfg blocks a (trimRecoveredHistory
            ((hidden blocks b (toks ++ x)).drop w) x.length s.position)).push rest) := by
  obtain ⟨old, new, htakes⟩ := h.ready.takes hw
  rw [h.start] at htakes
  obtain ⟨hstep, hanswer⟩ := htakes.step_fails (Nat.le_of_lt h.lt) hroom hf
  refine ⟨hanswer, .retry ?_ ?_ ?_ ?_⟩
  · rw [hstep.span, h.start]
  · rw [hstep.span]
    exact h.lt
  · rw [hstep.span]
    exact hstep.history
  · rw [hstep.span]
    exact (h.queue 0 fun _ => rfl).pushOutputs cfg hstep.push

/-- An attempt that is not answered leaves the history for the next one. -/
theorem attempt_fails {cfg : Config} {a : Attempt} {done todo : List (ServerSession τ)}
    {attemptNo : ℕ} (h : Stage blocks toks x w b cfg.numBlocks done attemptNo todo)
    (hw : Cut toks x w) (hz : Cut toks x 0) (hb : b < cfg.numBlocks)
    (hroom : (toks ++ x).length ≤ cfg.maxLength) (ha : a.Routed cfg) (hf : a.fate ≠ .answered) :
    ∃ todo', attempt cfg blocks a x.length ((done ++ todo).isEmpty || decide (1 ≤ attemptNo)) b
        todo ((hidden blocks b (toks ++ x)).drop w) = (todo', none) ∧
      Stage blocks toks x w b cfg.numBlocks done (attemptNo + 1) todo' := by
  by_cases hu : a.fate = .unreachable
  · cases h with
    | unopened ht hd hb' hw' =>
      subst ht hd hb' hw'
      exact ⟨[], by simp [attempt, updateSequence, hu], .unopened rfl rfl rfl rfl⟩
    | queue h =>
      obtain ⟨s, rest, rfl, hfront⟩ := h.front hb
      obtain ⟨hanswer, hstage⟩ := hfront.fails hw hroom hf done 0
      have hopen : (if ((done ++ s :: rest).isEmpty || decide (1 ≤ 0)) then
          updateSequence cfg a b (s :: rest) else (s :: rest, true)) = (s :: rest, true) := by simp
      refine ⟨_, ?_, hstage⟩
      rw [attempt_of_opened hopen, hanswer]
    | @retry k s rest hs hlt hh h =>
      exact ⟨{ s with closed := true } :: rest, by simp [attempt, updateSequence, hu],
        .retry hs hlt hh h⟩
  · obtain ⟨s, rest, hopen, hfront⟩ := h.opens (fun _ => hz) hb ha hu
    obtain ⟨hanswer, hstage⟩ := hfront.fails hw hroom hf done attemptNo
    refine ⟨_, ?_, hstage⟩
    rw [attempt_of_opened hopen, hanswer]

structure Finished (blocks : ℕ → Causal τ τ) (toks x : List τ) (e : ℕ)
    (r : List (ServerSession τ) × Except Error (List τ)) : Prop where
  warm : ∀ s ∈ r.1, Warm blocks (toks ++ x) s
  covers : Covers 0 e (r.1.map fun s => s.span)
  outputs : ∃ w, Cut toks x w ∧ r.2 = .ok ((hidden blocks e (toks ++ x)).drop w)

theorem Stage.finished {done todo : List (ServerSession τ)} {attemptNo : ℕ}
    (h : Stage blocks toks x w b e done attemptNo todo) (hb : ¬ b < e) (hw : Cut toks x w)
    (hdone : ∀ s ∈ done, Warm blocks (toks ++ x) s) (hcov : Covers 0 b (done.map fun s => s.span))
    (hle : b ≤ e) :
    Finished blocks toks x e (done ++ todo, .ok ((hidden blocks b (toks ++ x)).drop w)) := by
  obtain rfl : b = e := by omega
  have htodo : todo = [] := by
    cases h with
    | unopened => rfl
    | queue h =>
      by_contra hne
      obtain ⟨s, rest, rfl⟩ := List.exists_cons_of_ne_nil hne
      obtain ⟨hs, hlt, hrest⟩ := h.covers
      have := hrest.le
      omega
    | retry hs hlt hh h =>
      have := h.covers.le
      omega
  subst htodo
  rw [List.append_nil]
  exact ⟨hdone, hcov, w, hw, rfl⟩

/-- The retry loop, by induction on the attempts: a failure leaves a log from which the next
attempt rebuilds what was lost, an answer moves on with the hidden states of the next block.
Either the attempts are enough, or the loop is known to have returned. -/
theorem stepLoop_finished {cfg : Config} (hroom : (toks ++ x).length ≤ cfg.maxLength)
    (attempts : List Attempt) :
    ∀ (servers attemptNo : ℕ) (done todo : List (ServerSession τ)) (b w : ℕ),
      endures cfg.maxRetries servers attemptNo attempts = true ∨
        (∃ y, (stepLoop cfg blocks x.length attempts done todo b attemptNo
          ((hidden blocks b (toks ++ x)).drop w)).2 = .ok y) →
      cfg.numBlocks ≤ b + servers → b ≤ cfg.numBlocks →
      (∀ a ∈ attempts, a.Routed cfg) →
      (Cut toks x 0 ∨ attemptNo = 0 ∧ ∀ a ∈ attempts, a.fate = .answered) →
      (∀ s ∈ done, Warm blocks (toks ++ x) s) → Covers 0 b (done.map fun s => s.span) →
      Cut toks x w → Stage blocks toks x w b cfg.numBlocks done attemptNo todo →
      Finished blocks toks x cfg.numBlocks (stepLoop cfg blocks x.length attempts done todo b
        attemptNo ((hidden blocks b (toks ++ x)).drop w)) := by
  induction attempts with
  | nil =>
    intro servers attemptNo done todo b w hend hservers hle _ _ hdone hcov hw hstage
    have hb : ¬ b < cfg.numBlocks := by
      intro hb
      obtain ⟨k, rfl⟩ : ∃ k, servers = k + 1 := ⟨servers - 1, by omega⟩
      rcases hend with hend | ⟨y, hend⟩
      · simp [endures] at hend
      · rw [stepLoop, if_neg (Nat.not_le_of_lt hb)] at hend
        cases hend
    rw [stepLoop, if_pos (Nat.le_of_not_lt hb)]
    exact hstage.finished hb hw hdone hcov hle
  | cons a attempts ih =>
    intro servers attemptNo done todo b w hend hservers hle hroute hcalm hdone hcov hw hstage
    by_cases hb : b < cfg.numBlocks
    · obtain ⟨k, rfl⟩ : ∃ k, servers = k + 1 := ⟨servers - 1, by omega⟩
      rw [stepLoop, if_neg (Nat.not_le_of_lt hb)] at hend ⊢
      obtain ⟨ha, hroute⟩ := List.forall_mem_cons.mp hroute
      by_cases hf : a.fate = .answered
      · rw [endures, if_pos hf] at hend
        have hz : attemptNo ≠ 0 → Cut toks x 0 := fun h0 =>
          hcalm.elim (fun h => h) fun h => absurd h.1 h0
        obtain ⟨s, rest, w', hatt, hwarm, hs, hlt, hw', hqueue⟩ :=
          attempt_answers hstage hw hz hb hroom ha hf
        simp only [hatt] at hend ⊢
        refine ih k 0 _ _ _ w' hend (by omega) hqueue.covers.le hroute ?_ ?_ ?_ hw' (.queue hqueue)
        · exact hcalm.imp_right fun h => ⟨rfl, (List.forall_mem_cons.mp h.2).2⟩
        · exact List.forall_mem_append.mpr ⟨hdone, List.forall_mem_singleton.mpr hwarm⟩
        · rw [List.map_append]
          exact covers_append.mpr ⟨b, hcov, hs, by rw [hs]; exact hlt, rfl⟩
      · rw [endures, if_neg hf, Bool.and_eq_true, decide_eq_true_iff] at hend
        have hz : Cut toks x 0 := hcalm.elim (fun h => h) fun h =>
          absurd (h.2 a List.mem_cons_self) hf
        obtain ⟨todo', hatt, hstage'⟩ := attempt_fails hstage hw hz hb hroom ha hf
        have hmax : cfg.maxRetries ≠ some (attemptNo + 1) := by
          rcases hend with hend | ⟨y, hend⟩
          · exact hend.1
          · intro hmax
            simp only [hatt, if_pos hmax] at hend
            cases hend
        simp only [hatt, if_neg hmax] at hend ⊢
        exact ih (k + 1) (attemptNo + 1) done todo' b w (hend.imp_left fun h => h.2) hservers hle
          hroute (.inl hz) hdone hcov hw hstage'
    · rw [stepLoop, if_pos (Nat.le_of_not_lt hb)]
      exact hstage.finished hb hw hdone hcov hle

theorem step_sessions {cfg : Config} {s : Session τ} {x : List τ}
    (hroom : ¬ cfg.maxLength < s.position + x.length) (attempts : List Attempt) :
    (s.step cfg blocks attempts x).1.sessions = (stepLoop cfg blocks x.length attempts []
      (s.sessions.map fun t => { t with pushed := [] }) 0 0 x).1 := by
  rcases hloop : stepLoop cfg blocks x.length attempts []
    (s.sessions.map fun t => { t with pushed := [] }) 0 0 x with ⟨sessions, result⟩
  simp only [Session.step, if_neg hroom, hloop]
  rcases result with e | outputs
  · rfl
  · dsimp only
    split_ifs <;> rfl

end BloomBee.InferenceSession

import BloomBee.Sanity.SessionFailure

/-! A step on sessions that no token came to yet, as failed steps may leave them: opened or
not, and the one that failed closed. The first step that returns rebuilds all of it. -/

set_option autoImplicit false

namespace BloomBee.InferenceSession

variable {τ : Type} (blocks : ℕ → Causal τ τ)

/-- A session that nothing came to but copies of the current step. -/
structure Blank (x : List τ) (t : ServerSession τ) : Prop where
  position : t.position = 0
  history : t.history.getD [] = []
  caches : t.caches = spanCaches blocks t.span []
  copies : ∀ c ∈ t.pushed, IsCopy blocks [] x t.span.start c

/-- The first of the sessions from `server_idx` on. After a failure its log may have the step. -/
def BlankHead (x : List τ) (attemptNo : ℕ) (t : ServerSession τ) : Prop :=
  (attemptNo = 0 → Blank blocks x t) ∧
    (t.history.getD [] = [] ∨ t.history = some (hidden blocks t.span.start x))

/-- The sessions from `server_idx` on when an attempt begins. -/
structure BlankStage (x : List τ) (b e : ℕ) (done : List (ServerSession τ)) (attemptNo : ℕ)
    (todo : List (ServerSession τ)) : Prop where
  covers : done ++ todo = [] ∧ b = 0 ∨ Covers b e (todo.map fun t => t.span)
  head : ∀ t ∈ todo.head?, BlankHead blocks x attemptNo t
  tail : ∀ t ∈ todo.tail, Blank blocks x t

variable {blocks} {cfg : Config} {x : List τ} {b e : ℕ}

theorem cut_nil (x : List τ) : Cut [] x 0 := ⟨Nat.le_refl 0, fun _ => rfl⟩

theorem blank_create (span : Span) : Blank blocks x (.create span) :=
  ⟨rfl, rfl, (spanCaches_nil blocks span).symm, fun c hc => by cases hc⟩

theorem ServerSession.log_of_blank {t : ServerSession τ} (hp : t.position = 0)
    (hh : t.history.getD [] = []) (inputs : List τ) : t.log inputs = inputs := by
  unfold ServerSession.log
  rcases h : t.history with - | history
  · rfl
  · rw [h, Option.getD_some] at hh
    subst hh
    dsimp only
    rw [if_pos (by rw [hp]; rfl), List.nil_append, lastTokens_length]

theorem Blank.takes {t : ServerSession τ} (h : Blank blocks x t) (hopen : t.closed = false) :
    Takes blocks [] x t (hidden blocks t.span.start x) [] x := by
  have hlog := t.log_of_blank h.position h.history (hidden blocks t.span.start x)
  refine ⟨rfl, hopen, h.caches, h.position, hlog, ?_, ?_, fun _ => rfl⟩
  · rw [ServerSession.sent, hlog, h.position]
    split_ifs
    · rfl
    · rfl
  · intro c hc
    rcases List.mem_cons.mp hc with rfl | hc
    · exact ⟨⟨rfl, by rw [h.position]; exact cut_nil x⟩, Nat.le_of_eq h.position⟩
    · exact ⟨h.copies c hc, (h.copies c hc).2.1⟩

theorem heir_takes {span : Span} {history : Option (List τ)}
    (h : history.getD [] = [] ∨ history = some (hidden blocks span.start x)) :
    Takes blocks [] x { ServerSession.create span with history } (hidden blocks span.start x) []
      x := by
  refine create_takes (cut_nil x) ?_
  rcases h with h | rfl
  · exact ServerSession.log_of_blank rfl h _
  · simp only [ServerSession.log, ServerSession.create, lastTokens_length, List.nil_append]
    split_ifs with hn
    · rw [List.eq_nil_of_length_eq_zero hn]
      rfl
    · rfl

theorem Blank.receivePush {t : ServerSession τ} (h : Blank blocks x t) {c : ℕ × List τ}
    (hc : IsCopy blocks [] x t.span.start c) : Blank blocks x (t.receivePush cfg c) := by
  unfold ServerSession.receivePush
  split_ifs
  · refine ⟨h.position, h.history, h.caches, fun d hd => ?_⟩
    rcases List.mem_append.mp hd with hd | hd
    · exact h.copies d hd
    · obtain rfl := List.mem_singleton.mp hd
      exact hc
  · exact h

theorem blank_pushOutputs {push : Option (ℕ × List τ)} {rest : List (ServerSession τ)}
    (h : ∀ t ∈ rest, Blank blocks x t) (hcov : Covers b e (rest.map fun t => t.span))
    (hpush : ∀ c ∈ push, IsCopy blocks [] x b c) :
    ∀ t ∈ pushOutputs cfg push rest, Blank blocks x t := by
  rcases push with - | c
  · exact h
  rcases rest with - | ⟨u, rest⟩
  · exact h
  · obtain ⟨hu, hrest⟩ := List.forall_mem_cons.mp h
    refine List.forall_mem_cons.mpr ⟨hu.receivePush ?_, hrest⟩
    rw [show u.span.start = b from hcov.1]
    exact hpush c rfl

/-- The session an attempt comes to takes the step, unless it is closed. -/
theorem BlankStage.opens {done todo : List (ServerSession τ)} {k : ℕ}
    (h : BlankStage blocks x b cfg.numBlocks done k todo) (hb : b < cfg.numBlocks) {a : Attempt}
    (ha : a.Routed cfg) :
    (∃ todo', (if (done ++ todo).isEmpty || decide (1 ≤ k) then updateSequence cfg a b todo
        else (todo, true)) = (todo', false) ∧
      BlankStage blocks x b cfg.numBlocks done (k + 1) todo') ∨
    ∃ t rest, (if (done ++ todo).isEmpty || decide (1 ≤ k) then updateSequence cfg a b todo
        else (todo, true)) = (t :: rest, true) ∧ t.span.start = b ∧ b < t.span.stop ∧
      Covers t.span.stop cfg.numBlocks (rest.map fun t => t.span) ∧
      (∀ t ∈ rest, Blank blocks x t) ∧
      ((t.closed = true ∧ BlankStage blocks x b cfg.numBlocks done (k + 1) (t :: rest)) ∨
        Takes blocks [] x t (hidden blocks t.span.start x) [] x) := by
  by_cases hup : ((done ++ todo).isEmpty || decide (1 ≤ k)) = true
  · rw [if_pos hup]
    have hcov : todo = [] ∨ Covers b cfg.numBlocks (todo.map fun t => t.span) :=
      h.covers.imp_left fun h => (List.append_eq_nil_iff.mp h.1).2
    rcases updateSequence_cases cfg a b todo with ⟨-, hseq⟩ | ⟨-, span, spans, hspans, hseq⟩
    · refine .inl ⟨_, hseq, ?_⟩
      rcases todo with - | ⟨t, rest⟩
      · exact ⟨h.covers, fun t ht => (by cases ht), fun t ht => (by cases ht)⟩
      · refine ⟨.inr (h.covers.resolve_left fun h => by simp at h), ?_, h.tail⟩
        rintro s ⟨⟩
        exact ⟨fun h => absurd h (Nat.succ_ne_zero k), (h.head t rfl).2⟩
    · right
      have hnew := (updatedSpans_covers ha hb hcov).1
      rw [hspans] at hnew
      obtain ⟨hstart, hlt, hnew⟩ := hnew
      refine ⟨_, _, hseq, hstart, hstart ▸ hlt, ?_, ?_, .inr (heir_takes ?_)⟩
      · rw [List.map_append, List.map_tail]
        refine covers_append.mpr ⟨_, covers_create hnew, ?_⟩
        rcases todo with - | ⟨t, rest⟩
        · rfl
        · exact (hcov.resolve_left (List.cons_ne_nil _ _)).2.2
      · refine List.forall_mem_append.mpr ⟨fun t ht => ?_, h.tail⟩
        obtain ⟨span', -, rfl⟩ := List.mem_map.mp ht
        exact blank_create span'
      · rcases todo with - | ⟨t, rest⟩
        · exact .inl rfl
        · rw [show span.start = t.span.start from
            hstart.trans (hcov.resolve_left (List.cons_ne_nil _ _)).1.symm]
          exact (h.head t rfl).2
  · rw [if_neg hup]
    rw [Bool.or_eq_true, List.isEmpty_iff, decide_eq_true_iff, not_or] at hup
    obtain rfl : k = 0 := by omega
    have hcov := h.covers.resolve_left fun h => hup.1 h.1
    rcases todo with - | ⟨t, rest⟩
    · exact absurd hcov (Nat.ne_of_lt hb)
    obtain ⟨hstart, hlt, hrest⟩ := hcov
    have hblank := (h.head t rfl).1 rfl
    refine .inr ⟨t, rest, rfl, hstart, hstart ▸ hlt, hrest, h.tail, ?_⟩
    rcases hc : t.closed with - | -
    · exact .inr (hblank.takes hc)
    · refine .inl ⟨rfl, .inr ⟨hstart, hlt, hrest⟩, ?_, h.tail⟩
      rintro s ⟨⟩
      exact ⟨fun h => absurd h (Nat.succ_ne_zero 0), (h.head t rfl).2⟩

/-- One attempt: an answer is the hidden states at the end of the span, and whatever fails
can be tried again. -/
theorem BlankStage.attempt {done todo : List (ServerSession τ)} {k : ℕ}
    (h : BlankStage blocks x b cfg.numBlocks done k todo) (hb : b < cfg.numBlocks)
    (hroom : x.length ≤ cfg.maxLength) {a : Attempt} (ha : a.Routed cfg) :
    (∃ todo', InferenceSession.attempt cfg blocks a x.length
        ((done ++ todo).isEmpty || decide (1 ≤ k)) b todo (hidden blocks b x) = (todo', none) ∧
      BlankStage blocks x b cfg.numBlocks done (k + 1) todo') ∨
    ∃ t rest, InferenceSession.attempt cfg blocks a x.length
        ((done ++ todo).isEmpty || decide (1 ≤ k)) b todo (hidden blocks b x) =
          (t :: rest, some (hidden blocks t.span.stop x)) ∧
      Warm blocks x t ∧ t.span.start = b ∧ b < t.span.stop ∧
      Covers t.span.stop cfg.numBlocks (rest.map fun t => t.span) ∧
      ∀ t ∈ rest, Blank blocks x t := by
  rcases h.opens hb ha with ⟨todo', hseq, h'⟩ | ⟨t, rest, hseq, hs, hlt, hcov, hrest, htakes⟩
  · exact .inl ⟨todo', attempt_of_raised hseq (.inl rfl), h'⟩
  have hspan : t.span.start ≤ t.span.stop := Nat.le_of_lt (hs ▸ hlt)
  have hinputs : trimRecoveredHistory (hidden blocks b x) x.length t.position =
      hidden blocks t.span.start x := by
    rw [hs]
    have := trimRecoveredHistory_self (hidden blocks b x) t.position
    rwa [length_hidden] at this
  rw [attempt_of_opened hseq, hinputs]
  rcases htakes with ⟨hclosed, h'⟩ | htakes
  · rw [ServerSession.step_closed hclosed]
    exact .inl ⟨_, rfl, h'⟩
  have hpushed {o : Outcome τ} (hstep : Stepped blocks [] x t o) :
      Covers t.span.stop cfg.numBlocks ((pushOutputs cfg o.push rest).map fun t => t.span) ∧
        ∀ t ∈ pushOutputs cfg o.push rest, Blank blocks x t := by
    rw [map_span_pushOutputs]
    exact ⟨hcov, blank_pushOutputs hrest hcov hstep.push⟩
  by_cases hf : a.fate = .answered
  · obtain ⟨hstep, hwarm, w', hw', -, hanswer⟩ := htakes.step_answers hspan hroom hf
    obtain rfl := Nat.le_zero.mp hw'.1
    rw [hanswer]
    refine .inr ⟨_, _, by rw [hstep.span]; rfl, hwarm, ?_⟩
    rw [hstep.span]
    exact ⟨hs, hlt, hpushed hstep⟩
  · obtain ⟨hstep, hanswer⟩ := htakes.step_fails hspan hroom hf
    rw [hanswer]
    refine .inl ⟨_, rfl, .inr ?_, ?_, (hpushed hstep).2⟩
    · rw [List.map_cons, hstep.span]
      exact ⟨hs, hs ▸ hlt, (hpushed hstep).1⟩
    · rintro s ⟨⟩
      refine ⟨fun h => absurd h (Nat.succ_ne_zero k), .inr ?_⟩
      rw [hstep.span]
      exact hstep.history

theorem BlankStage.stepLoop (hroom : x.length ≤ cfg.maxLength) (attempts : List Attempt) :
    ∀ (done todo : List (ServerSession τ)) (b k : ℕ), (∀ a ∈ attempts, a.Routed cfg) →
      b ≤ cfg.numBlocks → (∀ s ∈ done, Warm blocks x s) → Covers 0 b (done.map fun s => s.span) →
      BlankStage blocks x b cfg.numBlocks done k todo →
      (∃ y, (stepLoop cfg blocks x.length attempts done todo b k (hidden blocks b x)).2 = .ok y) →
      Finished blocks [] x cfg.numBlocks
        (stepLoop cfg blocks x.length attempts done todo b k (hidden blocks b x)) := by
  have hend {done todo : List (ServerSession τ)} {b k : ℕ} (hb : cfg.numBlocks ≤ b)
      (hle : b ≤ cfg.numBlocks) (hdone : ∀ s ∈ done, Warm blocks x s)
      (hcov : Covers 0 b (done.map fun s => s.span))
      (h : BlankStage blocks x b cfg.numBlocks done k todo) :
      Finished blocks [] x cfg.numBlocks (done ++ todo, .ok (hidden blocks b x)) := by
    obtain rfl := Nat.le_antisymm hle hb
    have htodo : todo = [] := by
      rcases h.covers with h | h
      · exact (List.append_eq_nil_iff.mp h.1).2
      · rcases todo with - | ⟨t, rest⟩
        · rfl
        · obtain ⟨hs, hlt, hrest⟩ := h
          have := hrest.le
          omega
    rw [htodo, List.append_nil]
    exact ⟨hdone, hcov, 0, cut_nil x, rfl⟩
  induction attempts with
  | nil =>
    intro done todo b k _ hle hdone hcov h hok
    rw [InferenceSession.stepLoop] at hok ⊢
    split_ifs at hok ⊢ with hb
    · exact hend hb hle hdone hcov h
    · obtain ⟨y, hok⟩ := hok
      cases hok
  | cons a attempts ih =>
    intro done todo b k hroute hle hdone hcov h hok
    obtain ⟨ha, hroute⟩ := List.forall_mem_cons.mp hroute
    by_cases hb : cfg.numBlocks ≤ b
    · rw [InferenceSession.stepLoop, if_pos hb]
      exact hend hb hle hdone hcov h
    rw [InferenceSession.stepLoop, if_neg hb] at hok ⊢
    rcases h.attempt (Nat.lt_of_not_le hb) hroom ha with
      ⟨todo', hatt, h'⟩ | ⟨t, rest, hatt, hwarm, hs, hlt, hcov', hrest⟩
    · simp only [hatt] at hok ⊢
      by_cases hmax : cfg.maxRetries = some (k + 1)
      · rw [if_pos hmax] at hok
        obtain ⟨y, hok⟩ := hok
        cases hok
      · rw [if_neg hmax] at hok ⊢
        exact ih done todo' b (k + 1) hroute hle hdone hcov h' hok
    · simp only [hatt] at hok ⊢
      refine ih _ _ _ _ hroute hcov'.le ?_ ?_ ⟨.inr hcov', ?_, ?_⟩ hok
      · exact List.forall_mem_append.mpr ⟨hdone, List.forall_mem_singleton.mpr hwarm⟩
      · rw [List.map_append]
        exact covers_append.mpr ⟨b, hcov, hs, hs ▸ hlt, rfl⟩
      · intro u hu
        have hblank := hrest u (List.mem_of_mem_head? hu)
        exact ⟨fun _ => hblank, .inl hblank.history⟩
      · exact fun u hu => hrest u (List.mem_of_mem_tail hu)

end BloomBee.InferenceSession

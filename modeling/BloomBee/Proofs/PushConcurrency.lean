import BloomBee.Spec.PushConcurrency

/-! The window of the pushes, over any interleaving: the limit stays within its bounds, every
slot that is taken is given back once, and no more are out than the limit ever allows. -/

set_option autoImplicit false

namespace BloomBee.PushConcurrency

def Push.holds : Push → Bool
  | .sending releaseSlot => releaseSlot
  | .releasing _ _ => true
  | _ => false

def Push.fresh : Push → Bool
  | .serializing _ => true
  | .waiting => true
  | _ => false

def Event.acquired : Event → Option ℕ
  | .acquire i _ => some i
  | _ => none

def Event.released : Event → Option ℕ
  | .release i => some i
  | _ => none

def acquires (events : List Event) (i : ℕ) : ℕ := (events.filterMap Event.acquired).count i

def releases (events : List Event) (i : ℕ) : ℕ := (events.filterMap Event.released).count i

variable {s s' : State} {e : Event} {events : List Event} {limiter : AdaptivePushConcurrency}

/-! ### The limiter -/

structure AdaptivePushConcurrency.Bounded (limiter : AdaptivePushConcurrency) (low high : ℤ) :
    Prop where
  minLimit : limiter.minLimit = low
  maxLimit : limiter.maxLimit = high
  low_le : low ≤ limiter.limit
  le_high : limiter.limit ≤ high

variable {low high : ℤ}

theorem bounded_new (hle : low ≤ high) (initialLimit : ℤ) (ewmaAlpha : ℚ) (decisionInterval : ℤ) :
    (AdaptivePushConcurrency.new initialLimit low high ewmaAlpha decisionInterval).Bounded
      low high := by
  refine ⟨rfl, rfl, Int.le_max_left _ _, ?_⟩
  show max low (min high initialLimit) ≤ high
  omega

/-- A decision moves the limit by one at most, and within its bounds. -/
theorem AdaptivePushConcurrency.Bounded.adjust (h : limiter.Bounded low high) :
    limiter.adjust.Bounded low high ∧ limiter.adjust.inFlight = limiter.inFlight := by
  obtain ⟨rfl, rfl, hlow, hhigh⟩ := h
  unfold AdaptivePushConcurrency.adjust
  split_ifs
  · refine ⟨⟨rfl, rfl, Int.le_max_left _ _, ?_⟩, rfl⟩
    show max limiter.minLimit (limiter.limit - 1) ≤ limiter.maxLimit
    omega
  · refine ⟨⟨rfl, rfl, ?_, Int.min_le_left _ _⟩, rfl⟩
    show limiter.minLimit ≤ min limiter.maxLimit (limiter.limit + 1)
    omega
  · refine ⟨⟨rfl, rfl, Int.le_max_left _ _, ?_⟩, rfl⟩
    show max limiter.minLimit (limiter.limit - 1) ≤ limiter.maxLimit
    omega
  · exact ⟨⟨rfl, rfl, hlow, hhigh⟩, rfl⟩

theorem AdaptivePushConcurrency.Bounded.acquire (h : limiter.Bounded low high) (waitMs : ℚ) :
    (limiter.acquire waitMs).Bounded low high :=
  ⟨h.minLimit, h.maxLimit, h.low_le, h.le_high⟩

theorem AdaptivePushConcurrency.Bounded.release (h : limiter.Bounded low high) (sendTimeMs : ℚ)
    (success : Bool) :
    (limiter.release sendTimeMs success).Bounded low high ∧
      (limiter.release sendTimeMs success).inFlight = max 0 (limiter.inFlight - 1) := by
  have hadjusted (released : AdaptivePushConcurrency) (hreleased : released.Bounded low high)
      (p : Prop) [Decidable p] : (if p then released.adjust else released).Bounded low high ∧
        (if p then released.adjust else released).inFlight = released.inFlight := by
    split_ifs
    · exact hreleased.adjust
    · exact ⟨hreleased, rfl⟩
  unfold AdaptivePushConcurrency.release
  refine hadjusted ?_ ?_ (?_ = 0)
  exact ⟨h.minLimit, h.maxLimit, h.low_le, h.le_high⟩

/-! ### What a step does -/

/-- A push goes on, without the limiter, with a slot or without one. -/
inductive Goes (s : State) : Event → ℕ → Push → Push → AdaptivePushConcurrency → Prop where
  | quiet {e : Event} {i : ℕ} {old new : Push} (hacquired : e.acquired = none)
      (hreleased : e.released = none) (hholds : new.holds = old.holds)
      (hfresh : new.fresh → old.fresh) : Goes s e i old new s.limiter
  | acquire {i : ℕ} {waitMs : ℚ} (hlt : s.limiter.inFlight < s.limiter.limit) :
      Goes s (.acquire i waitMs) i .waiting (.sending true) (s.limiter.acquire waitMs)
  | release {i : ℕ} {sendTimeMs : ℚ} {success : Bool} :
      Goes s (.release i) i (.releasing sendTimeMs success) .done
        (s.limiter.release sendTimeMs success)

/-- A step: a new push, or one of the pushes goes on. -/
theorem step_cases (h : step s e = some s') :
    (∃ mbIdx, e = .push mbIdx ∧ s'.limiter = s.limiter ∧
      s'.pushes = s.pushes ++ [.serializing mbIdx]) ∨
    ∃ i old new, s.pushes[i]? = some old ∧ s'.pushes = s.pushes.set i new ∧
      Goes s e i old new s'.limiter := by
  cases e with
  | push mbIdx =>
    obtain rfl := Option.some.inj h
    exact .inl ⟨mbIdx, rfl, rfl, rfl⟩
  | raised i =>
    unfold step at h
    dsimp only at h
    split at h
    · rename_i mbIdx hold
      obtain rfl := Option.some.inj h
      exact .inr ⟨i, _, _, hold, rfl, .quiet rfl rfl rfl fun hnew => by cases hnew⟩
    · cases h
  | serialized i =>
    unfold step at h
    dsimp only at h
    split at h
    · rename_i mbIdx hold
      obtain rfl := Option.some.inj h
      refine .inr ⟨i, _, _, hold, rfl, .quiet rfl rfl ?_ fun _ => rfl⟩
      split_ifs <;> rfl
    · cases h
  | acquire i waitMs =>
    unfold step at h
    dsimp only at h
    split at h
    · rename_i hold
      split_ifs at h with hlt
      obtain rfl := Option.some.inj h
      exact .inr ⟨i, _, _, hold, rfl, .acquire hlt⟩
    · cases h
  | sent i sendTimeMs success =>
    unfold step at h
    dsimp only at h
    split at h
    · rename_i releaseSlot hold
      obtain rfl := Option.some.inj h
      refine .inr ⟨i, _, _, hold, rfl, .quiet rfl rfl ?_ ?_⟩
      · cases releaseSlot <;> rfl
      · cases releaseSlot <;> exact fun hnew => by cases hnew
    · cases h
  | release i =>
    unfold step at h
    dsimp only at h
    split at h
    · rename_i sendTimeMs success hold
      obtain rfl := Option.some.inj h
      exact .inr ⟨i, _, _, hold, rfl, .release⟩
    · cases h

/-! ### The invariant -/

/-- A push and how often it has acquired and released a slot. -/
structure Matched (acquires releases : ℕ) (push : Option Push) : Prop where
  balance : acquires = releases + if push.any Push.holds then 1 else 0
  once : acquires ≤ 1
  fresh : push.all Push.fresh → acquires = 0

structure Window (low high : ℤ) (events : List Event) (s : State) : Prop where
  bounded : s.limiter.Bounded low high
  inFlight : s.limiter.inFlight = s.pushes.countP Push.holds
  le_high : s.limiter.inFlight ≤ high
  matched : ∀ i, Matched (acquires events i) (releases events i) s.pushes[i]?

theorem count_filterMap_concat (f : Event → Option ℕ) (events : List Event) (e : Event) (i : ℕ) :
    ((events ++ [e]).filterMap f).count i =
      (events.filterMap f).count i + if f e = some i then 1 else 0 := by
  rw [List.filterMap_append, List.count_append]
  rcases h : f e with - | j
  · rw [List.filterMap_cons_none h, List.filterMap_nil, List.count_nil, if_neg (by simp)]
  · rw [List.filterMap_cons_some h, List.filterMap_nil, List.count_singleton]
    simp only [beq_iff_eq, Option.some.injEq]

theorem acquires_concat (events : List Event) (e : Event) (i : ℕ) :
    acquires (events ++ [e]) i = acquires events i + if e.acquired = some i then 1 else 0 :=
  count_filterMap_concat _ _ _ _

theorem releases_concat (events : List Event) (e : Event) (i : ℕ) :
    releases (events ++ [e]) i = releases events i + if e.released = some i then 1 else 0 :=
  count_filterMap_concat _ _ _ _

theorem countP_set_holds {pushes : List Push} {i : ℕ} {old : Push} (h : pushes[i]? = some old)
    (new : Push) : ((pushes.set i new).countP Push.holds : ℤ) =
      pushes.countP Push.holds - (if old.holds then 1 else 0) + if new.holds then 1 else 0 := by
  obtain ⟨hi, rfl⟩ := List.getElem?_eq_some_iff.mp h
  have hle : (if pushes[i].holds then 1 else 0) ≤ pushes.countP Push.holds :=
    List.boole_getElem_le_countP hi
  rw [List.countP_set hi]
  split_ifs at hle ⊢ <;> omega

/-- What the three ways to go on mean for the slots of the push. -/
theorem Goes.matched {i : ℕ} {old new : Push} {limiter : AdaptivePushConcurrency}
    (h : Goes s e i old new limiter)
    (hold : Matched (acquires events i) (releases events i) (some old)) :
    Matched (acquires (events ++ [e]) i) (releases (events ++ [e]) i) (some new) := by
  obtain ⟨hbalance, honce, hfresh⟩ := hold
  rw [acquires_concat, releases_concat]
  cases h with
  | quiet hacquired hreleased hholds hnew =>
    rw [hacquired, hreleased]
    refine ⟨?_, honce, fun h => hfresh (hnew h)⟩
    rw [Option.any_some, hholds]
    exact hbalance
  | acquire hlt =>
    have hzero := hfresh rfl
    rw [Option.any_some] at hbalance
    refine ⟨?_, ?_, fun h => by cases h⟩
    · simp [Event.acquired, Event.released, Push.holds] at hbalance ⊢
      omega
    · simp [Event.acquired]
      omega
  | release =>
    rw [Option.any_some] at hbalance
    refine ⟨?_, ?_, fun h => by cases h⟩
    · simp [Event.acquired, Event.released, Push.holds] at hbalance ⊢
      omega
    · simpa [Event.acquired] using honce

theorem Goes.matched_of_ne {i j : ℕ} {old new : Push} {limiter : AdaptivePushConcurrency}
    {push : Option Push} (h : Goes s e i old new limiter) (hij : j ≠ i)
    (hold : Matched (acquires events j) (releases events j) push) :
    Matched (acquires (events ++ [e]) j) (releases (events ++ [e]) j) push := by
  rw [acquires_concat, releases_concat]
  cases h with
  | quiet hacquired hreleased _ _ =>
    rw [hacquired, hreleased]
    exact hold
  | acquire _ =>
    simpa [Event.acquired, Event.released, Ne.symm hij] using hold
  | release =>
    simpa [Event.acquired, Event.released, Ne.symm hij] using hold

theorem Window.pos_of_holds (h : Window low high events s) {i : ℕ} {old : Push}
    (hold : s.pushes[i]? = some old) (hholds : old.holds) : 0 < s.limiter.inFlight := by
  rw [h.inFlight, Int.natCast_pos]
  exact List.countP_pos_iff.mpr ⟨old, List.mem_of_getElem? hold, hholds⟩

theorem Window.step (h : Window low high events s) (hs : PushConcurrency.step s e = some s') :
    Window low high (events ++ [e]) s' := by
  rcases step_cases hs with ⟨mbIdx, rfl, hlimiter, hpushes⟩ | ⟨i, old, new, hold, hpushes, hgoes⟩
  · refine ⟨hlimiter ▸ h.bounded, ?_, hlimiter ▸ h.le_high, fun i => ?_⟩
    · rw [hlimiter, hpushes, List.countP_append, h.inFlight]
      rfl
    · rw [acquires_concat, releases_concat, hpushes]
      have hi := h.matched i
      rcases Nat.lt_trichotomy i s.pushes.length with hlt | rfl | hgt
      · rw [List.getElem?_append_left hlt]
        exact hi
      · rw [List.getElem?_eq_none (Nat.le_refl _)] at hi
        rw [List.getElem?_concat_length]
        exact ⟨hi.balance, hi.once, fun _ => hi.fresh rfl⟩
      · rw [List.getElem?_eq_none (Nat.le_of_lt hgt)] at hi
        rw [List.getElem?_eq_none (by
          rw [List.length_append, List.length_singleton]
          exact hgt)]
        exact hi
  have hcount := countP_set_holds hold new
  rw [← h.inFlight] at hcount
  have hmatched (j : ℕ) : Matched (acquires (events ++ [e]) j) (releases (events ++ [e]) j)
      s'.pushes[j]? := by
    rw [hpushes, List.getElem?_set]
    have hlen := (List.getElem?_eq_some_iff.mp hold).1
    have hj := h.matched j
    split_ifs with hij
    · subst hij
      rw [hold] at hj
      exact hgoes.matched hj
    · exact hgoes.matched_of_ne (Ne.symm hij) hj
  obtain ⟨hbounded, hinFlight, hle⟩ : s'.limiter.Bounded low high ∧
      s'.limiter.inFlight = s'.pushes.countP Push.holds ∧ s'.limiter.inFlight ≤ high := by
    rw [hpushes]
    generalize s'.limiter = limiter at hgoes
    cases hgoes with
    | quiet _ _ hholds _ =>
      rw [hholds] at hcount
      exact ⟨h.bounded, by omega, h.le_high⟩
    | @acquire _ waitMs hlt =>
      have hhigh := h.bounded.le_high
      have hinFlight : (s.limiter.acquire waitMs).inFlight = s.limiter.inFlight + 1 := rfl
      simp only [Push.holds, if_true, Bool.false_eq_true, if_false] at hcount
      exact ⟨h.bounded.acquire waitMs, by omega, by omega⟩
    | release =>
      obtain ⟨hbounded, hinFlight⟩ := h.bounded.release _ _
      have hpos := h.pos_of_holds hold rfl
      have hhigh := h.le_high
      simp only [Push.holds, if_true, Bool.false_eq_true, if_false] at hcount
      exact ⟨hbounded, by omega, by omega⟩
  exact ⟨hbounded, hinFlight, hle, hmatched⟩

theorem window_run {mb0Bypass : Bool} (h : limiter.Bounded low high) (hfree : limiter.inFlight = 0)
    (hhigh : 0 ≤ high) (hrun : Runs.run step (init mb0Bypass limiter) events = some s) :
    Window low high events s := by
  refine Runs.run_invariant _
    ⟨h, hfree, hfree ▸ hhigh, fun i => ⟨rfl, Nat.zero_le 1, fun _ => rfl⟩⟩
    (fun events s' e s'' hinv hs => hinv.step hs) hrun

/-- The push window, over any interleaving of pushes that wait, send, fail or time out, with or
without the bypass, and whatever is measured. The limit stays within its bounds. The pushes in
flight are those that have acquired a slot and whose task has not finished: no more than the
upper bound; every acquire is matched by one release, and no release finds the count at zero. -/
theorem push_window (initialLimit minLimit maxLimit : ℤ) (ewmaAlpha : ℚ) (decisionInterval : ℤ)
    (mb0Bypass : Bool) (events : List Event) (s : State) (hmin : 0 ≤ minLimit)
    (hle : minLimit ≤ maxLimit)
    (hrun : Runs.run step (init mb0Bypass (.new initialLimit minLimit maxLimit ewmaAlpha
      decisionInterval)) events = some s) :
    (minLimit ≤ s.limiter.limit ∧ s.limiter.limit ≤ maxLimit) ∧
      s.limiter.inFlight = s.pushes.countP Push.holds ∧
      s.limiter.inFlight ≤ maxLimit ∧
      (∀ i, acquires events i ≤ 1 ∧
        acquires events i = releases events i + if s.pushes[i]?.any Push.holds then 1 else 0) ∧
      ∀ i s', step s (.release i) = some s' →
        0 < s.limiter.inFlight ∧ s'.limiter.inFlight = s.limiter.inFlight - 1 := by
  have h := window_run (bounded_new hle initialLimit ewmaAlpha decisionInterval) rfl
    (Int.le_trans hmin hle) hrun
  refine ⟨⟨h.bounded.low_le, h.bounded.le_high⟩, h.inFlight, h.le_high,
    fun i => ⟨(h.matched i).once, (h.matched i).balance⟩, fun i s' hs => ?_⟩
  rcases step_cases hs with ⟨mbIdx, hpush, -⟩ | ⟨i', old, new, hold, -, hgoes⟩
  · cases hpush
  · generalize s'.limiter = limiter at hgoes
    cases hgoes with
    | quiet _ hreleased _ _ => cases hreleased
    | release =>
      have hpos := h.pos_of_holds hold rfl
      refine ⟨hpos, ?_⟩
      rw [(h.bounded.release _ _).2]
      omega

/-- The limiter of the handler. The first push bypasses it; the second one's send times out while
the third waits. -/
theorem push_window_handler :
    let events : List Event := [.push 0, .push 1, .push 2, .serialized 0, .serialized 1,
      .acquire 1 0, .serialized 2, .sent 1 5000 false, .acquire 2 9, .sent 0 30 true, .release 1]
    ∃ s, Runs.run step (init true (.new 4 2 12 (1 / 5) 8)) events = some s ∧
      s.limiter.inFlight = 1 ∧ s.pushes = [.done, .done, .sending true] ∧
      acquires events 1 = releases events 1 ∧ s.limiter.inFlight = s.pushes.countP Push.holds := by
  intro events
  obtain ⟨s, hs⟩ : ∃ s, Runs.run step (init true (.new 4 2 12 (1 / 5) 8)) events = some s :=
    ⟨_, rfl⟩
  obtain ⟨-, hcount, -, hmatched, -⟩ :=
    push_window 4 2 12 (1 / 5) 8 true events s (by decide) (by decide) hs
  have hpushes : s.pushes = [.done, .done, .sending true] := by
    obtain rfl := Option.some.inj hs
    rfl
  refine ⟨s, hs, ?_, hpushes, ?_, hcount⟩
  · rw [hcount, hpushes]
    rfl
  · rw [(hmatched 1).2, hpushes]
    rfl

end BloomBee.PushConcurrency

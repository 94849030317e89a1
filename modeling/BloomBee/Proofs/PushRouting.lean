import BloomBee.Sanity.PushRouting

/-! Pushes find their session whatever handler they reach, over every order of the handlers' steps:
the handlers' tables follow the sessions (`sessionHandlers_iff`), pushes are neither lost nor
repeated on the way (`received_interleaves`), and the micro-batches of a step get through in rounds
(`admitted_rounds`), none of them lost (`microBatch_delivered`). -/

set_option autoImplicit false

namespace BloomBee.PushRouting

variable {ι σ ρ : Type} {n : ℕ}

theorem mem_entered {acts : List (Act n ι σ ρ)} {o : Fin n} {s : ι} (h : Act.enter o s ∈ acts) :
    s ∈ acts.filterMap Act.entered := List.mem_filterMap.mpr ⟨Act.enter o s, h, rfl⟩

theorem Fresh.owner_unique {acts : List (Act n ι σ ρ)} (hfresh : Fresh acts) {o o' : Fin n}
    {s : ι} (h : Act.enter o s ∈ acts) (h' : Act.enter o' s ∈ acts) : o = o' := by
  induction acts with
  | nil => exact absurd h List.not_mem_nil
  | cons a acts ih =>
    rw [Fresh, List.filterMap_cons] at hfresh
    rcases List.mem_cons.mp h with rfl | hin <;> rcases List.mem_cons.mp h' with heq | hin'
    · exact (Act.enter.inj heq).1.symm
    · exact absurd (mem_entered hin') (List.nodup_cons.mp hfresh).1
    · subst heq
      exact absurd (mem_entered hin) (List.nodup_cons.mp hfresh).1
    · refine ih ?_ hin hin'
      cases ha : a.entered with
      | none => simpa [ha, Fresh] using hfresh
      | some s' =>
        rw [ha] at hfresh
        exact (List.nodup_cons.mp hfresh).2

variable [DecidableEq ι]

/-! ### The protocol of one session -/

section Protocol

variable {α : Type}

def part (labelled : List (Fin n × α)) (h : Fin n) : List α :=
  (labelled.filter (·.1 = h)).map Prod.snd

@[simp] theorem part_append_singleton (labelled : List (Fin n × α)) (sender h : Fin n) (item : α) :
    part (labelled ++ [(sender, item)]) h =
      part labelled h ++ if sender = h then [item] else [] := by
  by_cases hs : sender = h <;> simp [part, hs]

theorem part_take (labelled : List (Fin n × α)) (k : ℕ) (h : Fin n) :
    part (labelled.take k) h <+: part labelled h :=
  ((labelled.take_prefix k).filter _).map _

def announced (o : Fin n) (isOpen : Bool) : List (Signal n α) :=
  if isOpen then [.opened o] else [.opened o, .closed]

/-- The announcement that comes after the first `k`. -/
theorem announced_next {o : Fin n} {isOpen : Bool} {k : ℕ} {e : Signal n α} {es : List (Signal n α)}
    (hcons : (announced o isOpen).drop k = e :: es) :
    k < (announced (α := α) o isOpen).length ∧ es = (announced o isOpen).drop (k + 1) ∧
      (e = .opened o ∧ k = 0 ∨ e = .closed ∧ k = 1) := by
  have hlt : k < (announced (α := α) o isOpen).length := by
    by_contra hle
    rw [List.drop_of_length_le (Nat.le_of_not_lt hle)] at hcons
    exact List.cons_ne_nil e es hcons.symm
  refine ⟨hlt, by rw [← List.tail_drop, hcons, List.tail_cons], ?_⟩
  cases isOpen with
  | true =>
    obtain rfl : k = 0 := Nat.lt_one_iff.mp hlt
    exact .inl ⟨(List.cons.inj hcons).1.symm, rfl⟩
  | false =>
    rcases Nat.le_one_iff_eq_zero_or_eq_one.mp (Nat.lt_succ_iff.mp hlt) with rfl | rfl
    · exact .inl ⟨(List.cons.inj hcons).1.symm, rfl⟩
    · exact .inr ⟨(List.cons.inj hcons).1.symm, rfl⟩

/-- Only what waits for `o` from `sender` changes. -/
theorem update_lanes_of_ne (lanes : Fin n → Fin n → List (Signal n α)) {o sender h sender' : Fin n}
    (es : List (Signal n α)) (hne : h = o → sender' ≠ sender) :
    Function.update lanes o (Function.update (lanes o) sender es) h sender' = lanes h sender' := by
  by_cases hh : h = o
  · subst hh; simp [hne rfl]
  · simp [hh]

/-- The session that handler `o` has, or had, as long as only `o` ever had it. `sent` is what each
handler sent on. -/
structure Serves (v : SessionView n α) (o : Fin n) (isOpen : Bool) (sent : Fin n → List α) :
    Prop where
  table_owner : v.table o = if isOpen then some o else none
  queue_owner : (v.queue o).isSome = isOpen
  queue_of_ne : ∀ h, h ≠ o → v.queue h = none
  /-- Another handler has heard the first `k` announcements. -/
  told : ∀ h, h ≠ o → ∃ k ≤ (announced (α := α) o isOpen).length,
    v.lanes h o = (announced o isOpen).drop k ∧ v.table h = if k = 1 then some o else none
  lane_owner : v.lanes o o = []
  lane_of_ne : ∀ h sender, h ≠ o → sender ≠ o → v.lanes h sender = []
  pushes : ∀ sender, v.lanes o sender = ((v.lanes o sender).filterMap Signal.item?).map .push
  delivered : ∃ labelled : List (Fin n × α),
    labelled.map Prod.snd = v.received ++ (v.queue o).getD [] ∧
      ∀ h, part labelled h <+: sent h ∧
        (isOpen = true → sent h = part labelled h ++ (v.lanes o h).filterMap Signal.item?)

namespace Serves

variable {v : SessionView n α} {o : Fin n} {isOpen : Bool} {sent : Fin n → List α}

/-- A handler that did not hear of the session, or heard of its end, has no entry for it. -/
theorem table_eq (hv : Serves v o isOpen sent) (h : Fin n) :
    v.table h = none ∨ v.table h = some o := by
  by_cases hh : h = o
  · rw [hh, hv.table_owner]
    cases isOpen
    · exact .inl rfl
    · exact .inr rfl
  · obtain ⟨k, -, -, hk⟩ := hv.told h hh
    rw [hk]
    split_ifs
    · exact .inr rfl
    · exact .inl rfl

theorem queue_eq_none (hv : Serves v o false sent) : v.queue o = none :=
  Option.isNone_iff_eq_none.mp (by simp [hv.queue_owner, ← Option.not_isSome])

theorem queue_eq_some (hv : Serves v o true sent) : ∃ queue, v.queue o = some queue :=
  Option.isSome_iff_exists.mp hv.queue_owner

theorem queue_ne_none_iff (hv : Serves v o isOpen sent) (h : Fin n) :
    v.queue h ≠ none ↔ h = o ∧ isOpen = true := by
  by_cases hh : h = o
  · rw [hh, ← hv.queue_owner, Option.isSome_iff_ne_none]
    simp
  · simp [hv.queue_of_ne h hh, hh]

/-- A handler for which no announcement waits knows the session as its owner does. -/
theorem table_eq_some_iff (hv : Serves v o isOpen sent) {h : Fin n}
    (hheard : ∀ sender, ∀ e ∈ v.lanes h sender, ∃ item, e = .push item) (h' : Fin n) :
    v.table h = some h' ↔ v.queue h' ≠ none := by
  rw [hv.queue_ne_none_iff]
  have htable : v.table h = if isOpen then some o else none := by
    by_cases hh : h = o
    · rw [hh, hv.table_owner]
    obtain ⟨k, hk, hlane, htable⟩ := hv.told h hh
    have hnil : (announced (α := α) o isOpen).drop k = [] := by
      rw [List.eq_nil_iff_forall_not_mem]
      intro e he
      obtain ⟨item, rfl⟩ := hheard o e (hlane ▸ he)
      have hmem := List.mem_of_mem_drop he
      cases isOpen <;> simp [announced] at hmem
    have hlen := Nat.le_antisymm hk (List.drop_eq_nil_iff.mp hnil)
    rw [htable, hlen]
    cases isOpen <;> rfl
  rw [htable]
  cases isOpen <;> simp [eq_comm]

theorem enter (h : Fin n) : Serves (SessionView.init.step (.enter h) : SessionView n α) h true
    fun _ => [] where
  table_owner := by simp [SessionView.step, SessionView.init, SessionView.broadcast]
  queue_owner := by simp [SessionView.step, SessionView.init, SessionView.broadcast]
  queue_of_ne h' hh := by simp [SessionView.step, SessionView.init, SessionView.broadcast, hh]
  told h' hh := ⟨0, Nat.zero_le _, by
    simp [SessionView.step, SessionView.init, SessionView.broadcast, hh, announced]⟩
  lane_owner := by simp [SessionView.step, SessionView.init, SessionView.broadcast]
  lane_of_ne h' sender hh hs := by
    simp [SessionView.step, SessionView.init, SessionView.broadcast, hs]
  pushes sender := by simp [SessionView.step, SessionView.init, SessionView.broadcast]
  delivered := ⟨[], by simp [SessionView.step, SessionView.init, SessionView.broadcast, part]⟩

theorem exit (hv : Serves v o isOpen sent) (h : Fin n) :
    ∃ isOpen', Serves (v.step (.exit h)) o isOpen' sent := by
  by_cases hq : v.queue h = none
  · exact ⟨isOpen, by rw [SessionView.step, if_pos hq]; exact hv⟩
  obtain rfl : h = o := by
    by_contra hh
    exact hq (hv.queue_of_ne h hh)
  cases isOpen with
  | false => exact absurd hv.queue_eq_none hq
  | true =>
    have ht : v.table h ≠ none := by rw [hv.table_owner]; exact Option.some_ne_none h
    refine ⟨false, ?_⟩
    rw [SessionView.step, if_neg hq, if_neg ht]
    obtain ⟨labelled, hmap, hparts⟩ := hv.delivered
    refine ⟨?_, ?_, ?_, ?_, ?_, ?_, ?_, labelled.take v.received.length, ?_,
      fun h' => ⟨?_, fun hf => absurd hf Bool.false_ne_true⟩⟩
    · simp [SessionView.broadcast]
    · simp [SessionView.broadcast]
    · intro h' hh
      simpa [SessionView.broadcast, hh] using hv.queue_of_ne h' hh
    · intro h' hh
      obtain ⟨k, hk, hlane, htable⟩ := hv.told h' hh
      have hk1 : k ≤ 1 := by simpa [announced] using hk
      refine ⟨k, Nat.le_succ_of_le hk1, ?_, by simpa [SessionView.broadcast, hh] using htable⟩
      simp only [SessionView.broadcast, ne_eq, hh, not_false_eq_true, and_self, if_true, hlane]
      rcases Nat.le_one_iff_eq_zero_or_eq_one.mp hk1 with rfl | rfl <;> rfl
    · simpa [SessionView.broadcast] using hv.lane_owner
    · intro h' sender hh hs
      simpa [SessionView.broadcast, hs] using hv.lane_of_ne h' sender hh hs
    · intro sender
      simpa [SessionView.broadcast] using hv.pushes sender
    · rw [List.map_take, hmap, List.take_left]
      simp [SessionView.broadcast]
    · exact (part_take labelled _ h').trans (hparts h').1

/-- An item that comes from `sender` is put into the queue of an open session; `lanes` is what then
waits. -/
theorem enqueue (hv : Serves v o true sent) {queue : List α} (hq : v.queue o = some queue)
    (sender : Fin n) (item : α) {lanes : Fin n → Fin n → List (Signal n α)}
    {sent' : Fin n → List α}
    (hlanes : ∀ h sender', (h = o → sender' ≠ sender) → lanes h sender' = v.lanes h sender')
    (hown : lanes o o = [])
    (hpushes : lanes o sender = ((lanes o sender).filterMap Signal.item?).map .push)
    (hof_ne : ∀ h, h ≠ sender → sent' h = sent h)
    (hsent : ∀ items, sent sender = items ++ (v.lanes o sender).filterMap Signal.item? →
      sent' sender = items ++ item :: (lanes o sender).filterMap Signal.item?) :
    Serves ({ v with lanes }.enqueue o item) o true sent' := by
  have henqueue : ({ v with lanes } : SessionView n α).enqueue o item =
      { v with lanes, queue := Function.update v.queue o (some (queue ++ [item])) } := by
    simp only [SessionView.enqueue, hq]
  obtain ⟨labelled, hmap, hparts⟩ := hv.delivered
  rw [henqueue]
  refine ⟨hv.table_owner, ?_, fun h hh => ?_, fun h hh => ?_, hown, fun h sender' hh hs => ?_,
    fun sender' => ?_, labelled ++ [(sender, item)], ?_, fun h => ?_⟩
  · simp
  · exact (Function.update_of_ne hh _ _).trans (hv.queue_of_ne h hh)
  · obtain ⟨k, hk, hlane, htable⟩ := hv.told h hh
    exact ⟨k, hk, (hlanes h o fun hho => absurd hho hh).trans hlane, htable⟩
  · exact (hlanes h sender' fun hho => absurd hho hh).trans (hv.lane_of_ne h sender' hh hs)
  · by_cases hs : sender' = sender
    · rw [hs]; exact hpushes
    · dsimp only
      rw [hlanes o sender' fun _ => hs]
      exact hv.pushes sender'
  · simp [hmap, hq]
  · have hwhole : sent' h = part (labelled ++ [(sender, item)]) h ++
        (lanes o h).filterMap Signal.item? := by
      rw [part_append_singleton]
      by_cases hh : h = sender
      · rw [hh, if_pos rfl, hsent _ ((hparts sender).2 rfl), List.append_assoc]
        rfl
      · rw [if_neg (Ne.symm hh), List.append_nil, hof_ne h hh, hlanes o h fun _ => hh]
        exact (hparts h).2 rfl
    exact ⟨⟨_, hwhole.symm⟩, fun _ => hwhole⟩

theorem push (hv : Serves v o isOpen sent) (h : Fin n) (item : α) :
    Serves (v.step (.push h item)) o isOpen fun h' => sent h' ++ v.routed h' (.push h item) := by
  rw [SessionView.step]
  rcases hv.table_eq h with ht | ht
  · have hnone : (fun h' => sent h' ++ v.routed h' (.push h item)) = sent := by
      funext h'
      rw [SessionView.routed, if_neg (by rintro ⟨rfl, hne⟩; exact hne ht), List.append_nil]
    rw [ht, hnone]
    exact hv
  have hsent : ∀ h', v.routed h' (.push h item) = if h' = h then [item] else [] := by
    intro h'
    by_cases hh : h' = h
    · subst hh; simp [SessionView.routed, ht]
    · simp [SessionView.routed, hh, Ne.symm hh]
  simp only [ht, hsent]
  by_cases ho : o = h
  · subst ho
    rw [if_pos rfl]
    cases isOpen with
    | false => rw [hv.table_owner] at ht; simp at ht
    | true =>
      obtain ⟨queue, hq⟩ := hv.queue_eq_some
      refine hv.enqueue hq o item (fun _ _ _ => rfl) hv.lane_owner (hv.pushes o) (fun h' hh => ?_)
        fun items hitems => ?_
      · rw [if_neg hh, List.append_nil]
      · rw [if_pos rfl, hitems, hv.lane_owner]
        simp
  · rw [if_neg ho]
    obtain ⟨labelled, hmap, hparts⟩ := hv.delivered
    refine ⟨hv.table_owner, hv.queue_owner, hv.queue_of_ne, fun h' hh => ?_, ?_,
      fun h' sender hh hs => ?_, fun sender => ?_, labelled, hmap, fun h' => ?_⟩
    · simpa [SessionView.send, hh] using hv.told h' hh
    · simpa [SessionView.send, ho] using hv.lane_owner
    · simpa [SessionView.send, hh] using hv.lane_of_ne h' sender hh hs
    · by_cases hs : sender = h
      · have hp := hv.pushes h
        simp only [SessionView.send, hs, and_self, if_true, List.filterMap_append, List.map_append,
          ← hp]
        rfl
      · simpa [SessionView.send, hs] using hv.pushes sender
    · obtain ⟨hbegins, hwhole⟩ := hparts h'
      refine ⟨hbegins.trans (List.prefix_append _ _), fun hopen => ?_⟩
      by_cases hh : h' = h
      · simp [SessionView.send, hh, hh ▸ hwhole hopen, Signal.item?]
      · simpa [SessionView.send, hh] using hwhole hopen

theorem take_of_ne (hv : Serves v o isOpen sent) {h : Fin n} (hh : h ≠ o) (sender : Fin n) :
    Serves (v.take h sender) o isOpen sent := by
  rw [SessionView.take]
  cases hlane : v.lanes h sender with
  | nil => exact hv
  | cons e es =>
    obtain rfl : sender = o := by
      by_contra hs
      rw [hv.lane_of_ne h sender hh hs] at hlane
      exact List.cons_ne_nil e es hlane.symm
    obtain ⟨k, hk, hdrop, htable⟩ := hv.told h hh
    obtain ⟨hlt, hes, hhead⟩ := announced_next (hdrop.symm.trans hlane)
    have htold : ∀ entry, entry = (if k + 1 = 1 then some sender else none) →
        Serves { v with
          lanes := Function.update v.lanes h (Function.update (v.lanes h) sender es)
          table := Function.update v.table h entry } sender isOpen sent := by
      intro entry hentry
      refine ⟨?_, hv.queue_owner, hv.queue_of_ne, fun h' hh' => ?_, ?_, fun h' s hh' hs => ?_,
        fun s => ?_, ?_⟩
      · simpa [Ne.symm hh] using hv.table_owner
      · by_cases heq : h' = h
        · subst heq
          exact ⟨k + 1, hlt, by simp [hes], by simp [hentry]⟩
        · simpa [heq] using hv.told h' hh'
      · simpa [Ne.symm hh] using hv.lane_owner
      · by_cases heq : h' = h
        · subst heq
          simpa [hs] using hv.lane_of_ne h' s hh' hs
        · simpa [heq] using hv.lane_of_ne h' s hh' hs
      · simpa [Ne.symm hh] using hv.pushes s
      · simpa [Ne.symm hh] using hv.delivered
    rcases hhead with ⟨rfl, rfl⟩ | ⟨rfl, rfl⟩
    · exact htold (some sender) rfl
    · exact htold none rfl

/-- After the end of the session its owner drops what it takes. -/
theorem drop (hv : Serves v o false sent) {sender : Fin n} (hso : sender ≠ o)
    {es : List (Signal n α)} (hes : es = (es.filterMap Signal.item?).map .push) (item : α) :
    Serves (({ v with lanes := Function.update v.lanes o (Function.update (v.lanes o) sender es) } :
      SessionView n α).enqueue o item) o false sent := by
  obtain ⟨labelled, hmap, hparts⟩ := hv.delivered
  simp only [SessionView.enqueue, hv.queue_eq_none]
  refine ⟨hv.table_owner, hv.queue_owner, hv.queue_of_ne, fun h hh => ?_, ?_,
    fun h sender' hh hs => ?_, fun sender' => ?_, labelled, hmap,
    fun h => ⟨(hparts h).1, fun hf => absurd hf Bool.false_ne_true⟩⟩
  · obtain ⟨k, hk, hdrop, htable⟩ := hv.told h hh
    exact ⟨k, hk, (update_lanes_of_ne v.lanes es fun hho => absurd hho hh).trans hdrop, htable⟩
  · exact (update_lanes_of_ne v.lanes es fun _ => hso.symm).trans hv.lane_owner
  · have hlane := hv.lane_of_ne h sender' hh hs
    exact (update_lanes_of_ne v.lanes es fun hho => absurd hho hh).trans hlane
  · by_cases hs : sender' = sender
    · simpa [hs] using hes
    · dsimp only
      rw [update_lanes_of_ne v.lanes es fun _ => hs]
      exact hv.pushes sender'

theorem take_owner (hv : Serves v o isOpen sent) (sender : Fin n) :
    Serves (v.take o sender) o isOpen sent := by
  rw [SessionView.take]
  cases hlane : v.lanes o sender with
  | nil => exact hv
  | cons e es =>
    have hso : sender ≠ o := by
      rintro rfl
      rw [hv.lane_owner] at hlane
      exact List.cons_ne_nil e es hlane.symm
    have hpushes := hv.pushes sender
    rw [hlane] at hpushes
    have hmem : e ∈ ((e :: es).filterMap Signal.item?).map Signal.push := by
      rw [← hpushes]
      exact List.mem_cons_self
    obtain ⟨item, -, rfl⟩ := List.mem_map.mp hmem
    have hes : es = (es.filterMap Signal.item?).map .push := by
      simpa [Signal.item?] using hpushes
    cases isOpen with
    | true =>
      obtain ⟨queue, hq⟩ := hv.queue_eq_some
      refine hv.enqueue hq sender item (fun h sender' => update_lanes_of_ne v.lanes es) ?_ ?_
        (fun _ _ => rfl) fun items hitems => ?_
      · rw [update_lanes_of_ne v.lanes es fun _ => hso.symm]
        exact hv.lane_owner
      · simpa using hes
      · rw [hitems, hlane]
        simp [Signal.item?]
    | false => exact hv.drop hso hes item

theorem take (hv : Serves v o isOpen sent) (h sender : Fin n) :
    Serves (v.take h sender) o isOpen sent := by
  by_cases hh : h = o
  · rw [hh]
    exact hv.take_owner sender
  · exact hv.take_of_ne hh sender

theorem get (hv : Serves v o isOpen sent) (h : Fin n) :
    Serves (v.step (.get h)) o isOpen sent := by
  rw [SessionView.step]
  split_ifs with ht
  · have hh : h = o := by
      rcases hv.table_eq h with hn | ho
      · rw [hn] at ht; exact absurd ht.symm (Option.some_ne_none h)
      · exact Option.some.inj (ht.symm.trans ho)
    subst hh
    rcases hq : v.queue h with - | (- | ⟨item, queue⟩)
    · exact hv
    · exact hv
    obtain ⟨labelled, hmap, hparts⟩ := hv.delivered
    refine ⟨hv.table_owner, ?_, fun h' hh => ?_, hv.told, hv.lane_owner, hv.lane_of_ne, hv.pushes,
      labelled, ?_, hparts⟩
    · simpa [hq] using hv.queue_owner
    · simpa [hh] using hv.queue_of_ne h' hh
    · simp [hmap, hq]
  · exact hv

theorem step (hv : Serves v o isOpen sent) {a : SessionAct n α} (ha : ∀ h, a ≠ .enter h) :
    ∃ isOpen', Serves (v.step a) o isOpen' fun h => sent h ++ v.routed h a := by
  cases a with
  | enter h => exact absurd rfl (ha h)
  | push h item => exact ⟨isOpen, hv.push h item⟩
  | exit h => simpa [SessionView.routed] using hv.exit h
  | take h sender =>
    exact ⟨isOpen, by simpa [SessionView.routed, SessionView.step] using hv.take h sender⟩
  | get h => exact ⟨isOpen, by simpa [SessionView.routed] using hv.get h⟩

end Serves

theorem SessionView.init_step {a : SessionAct n α} (ha : ∀ h, a ≠ .enter h) :
    (SessionView.init : SessionView n α).step a = .init ∧
      ∀ h, (SessionView.init : SessionView n α).routed h a = [] := by
  cases a with
  | enter h => exact absurd rfl (ha h)
  | push h item => exact ⟨rfl, fun h' => by simp [SessionView.routed, SessionView.init]⟩
  | exit h => exact ⟨rfl, fun h' => rfl⟩
  | take h sender => exact ⟨rfl, fun h' => rfl⟩
  | get h => exact ⟨rfl, fun h' => rfl⟩

end Protocol

/-! ### Runs of the handlers -/

section Runs

variable [DecidableEq σ]

namespace World

theorem run_append (cfg : Config) (w : World n ι σ ρ) (acts : List (Act n ι σ ρ))
    (a : Act n ι σ ρ) : w.run cfg (acts ++ [a]) = (w.run cfg acts).step cfg a := by
  simp [run]

theorem routed_append (cfg : Config) (w : World n ι σ ρ) (h : Fin n) (s : ι)
    (acts : List (Act n ι σ ρ)) (a : Act n ι σ ρ) :
    w.routed cfg h s (acts ++ [a]) = w.routed cfg h s acts ++
      ((w.run cfg acts).sessionAct cfg s a).elim [] (((w.run cfg acts).view s).routed h) := by
  induction acts generalizing w with
  | nil => simp [routed, run]
  | cons b acts ih =>
    rw [List.cons_append, routed, ih, routed, List.append_assoc]
    rfl

theorem sessionAct_eq_enter {cfg : Config} {w : World n ι σ ρ} {s : ι} {a : Act n ι σ ρ}
    {h : Fin n} (ha : w.sessionAct cfg s a = some (.enter h)) : a = .enter h s := by
  cases a with
  | enter h' s' =>
    simp only [sessionAct] at ha
    split_ifs at ha with hs
    obtain rfl := SessionAct.enter.inj (Option.some.inj ha)
    rw [hs]
  | exit h' s' => simp [sessionAct] at ha
  | rpcPush h' now s' p => simp [sessionAct] at ha
  | listen h' sender => simp [sessionAct] at ha
  | get h' s' => simp [sessionAct] at ha
  | shutdown h' => simp [sessionAct] at ha

theorem entered_ne {cfg : Config} {w : World n ι σ ρ} {s : ι} {a : Act n ι σ ρ}
    (ha : ¬∃ h, w.sessionAct cfg s a = some (.enter h)) : a.entered ≠ some s := by
  intro hs
  cases a with
  | enter h s' =>
    obtain rfl := Option.some.inj hs
    exact ha ⟨h, by simp [sessionAct]⟩
  | exit h s' => exact Option.some_ne_none s hs.symm
  | rpcPush h now s' p => exact Option.some_ne_none s hs.symm
  | listen h sender => exact Option.some_ne_none s hs.symm
  | get h s' => exact Option.some_ne_none s hs.symm
  | shutdown h => exact Option.some_ne_none s hs.symm

/-- A session that nobody entered, or the one handler that has or had it. -/
theorem run_view (cfg : Config) (s : ι) {acts : List (Act n ι σ ρ)} (hfresh : Fresh acts) :
    (s ∉ acts.filterMap Act.entered ∧ (init.run cfg acts).view s = .init ∧
      ∀ h, init.routed cfg h s acts = []) ∨
    ∃ o isOpen, Act.enter o s ∈ acts ∧
      Serves ((init.run cfg acts).view s) o isOpen fun h => init.routed cfg h s acts := by
  induction acts using List.reverseRecOn with
  | nil => exact .inl ⟨List.not_mem_nil, rfl, fun _ => rfl⟩
  | append_singleton acts a ih =>
    have hfresh' : Fresh acts := by
      rw [Fresh, List.filterMap_append] at hfresh
      exact hfresh.of_append_left
    set w := init.run cfg acts with hw
    have hview := w.view_step cfg s a
    rw [run_append, ← hw, hview]
    simp only [routed_append, ← hw]
    by_cases henter : ∃ h, w.sessionAct cfg s a = some (.enter h)
    · obtain ⟨h, ha⟩ := henter
      obtain rfl := sessionAct_eq_enter ha
      rcases ih hfresh' with ⟨-, hinit, hrouted⟩ | ⟨o, isOpen, hmem, -⟩
      · refine .inr ⟨h, true, by simp, ?_⟩
        simp only [ha, hinit, hrouted, Option.elim_some, SessionView.routed, List.append_nil]
        exact Serves.enter h
      · rw [Fresh, List.filterMap_append, List.nodup_append] at hfresh
        have hagain := mem_entered (List.mem_singleton_self (Act.enter h s : Act n ι σ ρ))
        exact absurd rfl (hfresh.2.2 s (mem_entered hmem) s hagain)
    · have hentered := entered_ne henter
      have hmem_iff : s ∈ (acts ++ [a]).filterMap Act.entered ↔ s ∈ acts.filterMap Act.entered := by
        rw [List.filterMap_append, List.mem_append, or_iff_left]
        intro hs
        obtain ⟨b, hb, hbs⟩ := List.mem_filterMap.mp hs
        exact hentered (List.mem_singleton.mp hb ▸ hbs)
      have hne : ∀ b, w.sessionAct cfg s a = some b → ∀ h, b ≠ .enter h :=
        fun b hb h hbh => henter ⟨h, hb.trans (congrArg some hbh)⟩
      rcases ih hfresh' with ⟨hout, hinit, hrouted⟩ | ⟨o, isOpen, hmem, hserves⟩
      · refine .inl ⟨mt hmem_iff.mp hout, ?_⟩
        simp only [hinit, hrouted, List.nil_append]
        cases ha : w.sessionAct cfg s a with
        | none => exact ⟨rfl, fun _ => rfl⟩
        | some b => exact SessionView.init_step (hne b ha)
      · cases ha : w.sessionAct cfg s a with
        | none =>
          simp only [Option.elim_none, List.append_nil]
          exact .inr ⟨o, isOpen, List.mem_append_left _ hmem, hserves⟩
        | some b =>
          obtain ⟨isOpen', hstep⟩ := hserves.step (hne b ha)
          exact .inr ⟨o, isOpen', List.mem_append_left _ hmem, hstep⟩

end World

theorem owns_run (cfg : Config) {acts : List (Act n ι σ ρ)} (hfresh : Fresh acts) :
    (World.init.run cfg acts).Owns := by
  intro h s hown
  change ((World.init.run cfg acts).view s).table h = some h at hown
  change ((World.init.run cfg acts).view s).queue h ≠ none
  rcases World.run_view cfg s hfresh with ⟨-, hinit, -⟩ | ⟨o, isOpen, -, hserves⟩
  · rw [hinit] at hown
    exact absurd hown.symm (Option.some_ne_none h)
  · rw [hserves.queue_ne_none_iff]
    rcases hserves.table_eq h with hn | ho
    · rw [hn] at hown
      exact absurd hown.symm (Option.some_ne_none h)
    · obtain rfl : o = h := Option.some.inj (ho.symm.trans hown)
      rw [hserves.table_owner] at ho
      cases isOpen
      · exact absurd ho.symm (Option.some_ne_none o)
      · exact ⟨rfl, rfl⟩

/-- An environment without micro-batches of its own, and entries that last ten ticks. -/
def sampleConfig : Config := ⟨⟨false, none⟩, 10⟩

/-- Handler `o` enters session 7, and `h` hears of it. -/
def heardActs (o h : Fin 2) : List (Act 2 ℕ ℕ ℕ) := [.enter o 7, .listen h o]

theorem heardActs_fresh (o h : Fin 2) : Fresh (heardActs o h) := List.nodup_singleton 7

/-- The handlers' tables: an entry is never wrong, a handler with no announcement of the session in
its event queue has the entry just while the session is open, and no push raises. -/
theorem sessionHandlers_iff (cfg : Config) {acts : List (Act n ι σ ρ)} (hfresh : Fresh acts)
    (h o : Fin n) (s : ι) :
    let w := World.init.run cfg acts
    ((w.handlers h).sessionHandlers s = some o → Act.enter o s ∈ acts) ∧
      ((∀ sender, ∀ e ∈ w.events h sender, e.sessionId = s → ∃ item, e = .push s item) →
        ((w.handlers h).sessionHandlers s = some o ↔ (w.handlers o).sessionQueues s ≠ none)) ∧
      ∀ item, w.putIntoSessionQueue h s item ≠ none := by
  intro w
  have htable : (w.handlers h).sessionHandlers s = (w.view s).table h := rfl
  have hqueue : (w.handlers o).sessionQueues s = (w.view s).queue o := rfl
  rw [htable, hqueue]
  refine ⟨fun hs => ?_, fun hheard => ?_, (owns_run cfg hfresh).put_ne_none h s⟩
  · rcases World.run_view cfg s hfresh with ⟨-, hinit, -⟩ | ⟨o', isOpen, hmem, hserves⟩
    · rw [hinit] at hs
      exact absurd hs.symm (Option.some_ne_none o)
    · rcases hserves.table_eq h with hn | ho
      · rw [hn] at hs
        exact absurd hs.symm (Option.some_ne_none o)
      · exact Option.some.inj (ho.symm.trans hs) ▸ hmem
  · rcases World.run_view cfg s hfresh with ⟨-, hinit, -⟩ | ⟨o', isOpen, hmem, hserves⟩
    · rw [hinit]
      simp [SessionView.init]
    · refine hserves.table_eq_some_iff (fun sender e he => ?_) o
      obtain ⟨e', he', rfl⟩ := List.mem_map.mp he
      obtain ⟨hmem', hs⟩ := List.mem_filter.mp he'
      obtain ⟨item, rfl⟩ := hheard sender e' hmem' (of_decide_eq_true hs)
      exact ⟨item, rfl⟩

/-- Nothing waits for the second handler, so it sends pushes on to the first. -/
theorem sessionHandlers_iff_heard :
    ((World.init.run sampleConfig (heardActs 0 1)).handlers 1).sessionHandlers 7 = some 0 := by
  have hnil : ∀ sender, (World.init.run sampleConfig (heardActs 0 1)).events 1 sender = [] := by
    decide
  have hheard := (sessionHandlers_iff sampleConfig (heardActs_fresh 0 1) 1 0 7).2.1
  refine (hheard fun sender e he _ => ?_).mpr (by decide)
  rw [hnil] at he
  exact absurd he List.not_mem_nil

/-- Pushes are neither lost nor repeated, and what comes over one handler stays in order: while a
session is open, what its loop took and what is in its queue is put together from what the handlers
sent on, without what still waits in the event queue of the owner. -/
theorem received_interleaves (cfg : Config) {acts : List (Act n ι σ ρ)} (hfresh : Fresh acts)
    {o : Fin n} {s : ι} (henter : Act.enter o s ∈ acts) :
    let w := World.init.run cfg acts
    ∃ parts : Fin n → List (QueueItem ι σ ρ),
      Interleaves parts (w.received s ++ ((w.handlers o).sessionQueues s).getD []) ∧
      ∀ h, parts h <+: World.init.routed cfg h s acts ∧
        ((w.handlers o).sessionQueues s ≠ none →
          World.init.routed cfg h s acts = parts h ++ w.waiting o h s) := by
  intro w
  rcases World.run_view cfg s hfresh with ⟨hout, -, -⟩ | ⟨o', isOpen, hmem, hserves⟩
  · exact absurd (mem_entered henter) hout
  · obtain rfl := hfresh.owner_unique hmem henter
    obtain ⟨labelled, hmap, hparts⟩ := hserves.delivered
    refine ⟨part labelled, ⟨labelled, hmap, fun _ => rfl⟩, fun h => ⟨(hparts h).1, fun hopen => ?_⟩⟩
    rw [(hparts h).2 ((hserves.queue_ne_none_iff o').mp hopen).2, World.filterMap_lanes]

/-- A push to the second handler gets to the loop of the session over the first. -/
theorem received_interleaves_pushed :
    let acts : List (Act 2 ℕ ℕ ℕ) :=
      heardActs 0 1 ++ [.rpcPush 1 0 7 (.full 5), .listen 0 1, .get 0 7]
    (World.init.run sampleConfig acts).received 7 = [.full 5] ∧
      ∃ parts : Fin 2 → List (QueueItem ℕ ℕ ℕ), Interleaves parts [.full 5] ∧
        ∀ h, parts h <+: World.init.routed sampleConfig h 7 acts := by
  intro acts
  have hfresh : Fresh acts := List.nodup_singleton 7
  have henter : Act.enter 0 7 ∈ acts := List.mem_cons_self
  obtain ⟨parts, hwhole, hparts⟩ := received_interleaves sampleConfig hfresh henter
  exact ⟨by decide, parts, hwhole, fun h => (hparts h).1⟩

/-! ### Rounds of micro-batches -/

namespace World

theorem admitted_append (cfg : Config) (w : World n ι σ ρ) (h : Fin n) (s : ι) (stepId : σ)
    (acts : List (Act n ι σ ρ)) (a : Act n ι σ ρ) :
    w.admitted cfg h s stepId (acts ++ [a]) =
      w.admitted cfg h s stepId acts ++ (w.run cfg acts).admittedBy cfg h s stepId a := by
  induction acts generalizing w with
  | nil => simp [admitted, run]
  | cons b acts ih =>
    rw [List.cons_append, admitted, ih, admitted, List.append_assoc]
    rfl

end World

/-- The micro-batches of a step at one handler, in rounds: what was let through, and what was let
through since the last round was complete. -/
structure Rounds (E : ℕ) (admitted : List ℕ) (rounds : List (List ℕ)) (last : List ℕ) : Prop where
  admitted_eq : admitted = rounds.flatten ++ last
  complete : ∀ round ∈ rounds, round.Perm (List.range E)
  nodup : last.Nodup
  lt : ∀ i ∈ last, i < E
  length_lt : last = [] ∨ last.length < E

namespace Rounds

variable {E : ℕ} {admitted : List ℕ} {rounds : List (List ℕ)} {last : List ℕ}

theorem nil (E : ℕ) : Rounds E [] [] [] :=
  ⟨rfl, by simp, List.nodup_nil, by simp, .inl rfl⟩

theorem append (hr : Rounds E admitted rounds last) {i : ℕ} (hi : i ∉ last) (hlt : i < E) :
    ∃ rounds', Rounds E (admitted ++ [i]) rounds'
      (if E ≤ (last ++ [i]).length then [] else last ++ [i]) := by
  have hnodup : (last ++ [i]).Nodup := hr.nodup.append (List.nodup_singleton i) (by simpa using hi)
  have hbound : ∀ j ∈ last ++ [i], j < E := by
    intro j hj
    rcases List.mem_append.mp hj with hj | hj
    · exact hr.lt j hj
    · exact List.mem_singleton.mp hj ▸ hlt
  split_ifs with hle
  · refine ⟨rounds ++ [last ++ [i]], ?_, fun round hround => ?_, List.nodup_nil, by simp, .inl rfl⟩
    · simp [hr.admitted_eq]
    · rcases List.mem_append.mp hround with hround | hround
      · exact hr.complete round hround
      · rw [List.mem_singleton.mp hround]
        refine List.Subperm.perm_of_length_le (List.subperm_of_subset hnodup fun j hj => ?_) ?_
        · exact List.mem_range.mpr (hbound j hj)
        · rw [List.length_range]
          exact hle
  · exact ⟨rounds, by simp [hr.admitted_eq], hr.complete, hnodup, hbound,
      .inr (Nat.lt_of_not_le hle)⟩

end Rounds

namespace Tracking

/-- What a handler keeps once it let the micro-batches `admitted` of a step through. -/
def InRounds (t : Tracking ι σ) (s : ι) (stepId : σ) (E : ℕ) (admitted : List ℕ) : Prop :=
  ∃ rounds last, t.Pending (s, stepId) last ∧ Rounds E admitted rounds last

namespace InRounds

variable {cfg : Config} {t : Tracking ι σ} {s : ι} {stepId : σ} {E now : ℕ} {admitted : List ℕ}

omit [DecidableEq ι] [DecidableEq σ] in
theorem init : (Tracking.init : Tracking ι σ).InRounds s stepId E [] :=
  ⟨[], [], ⟨rfl, rfl, fun _ => rfl⟩, .nil E⟩

/-- A micro-batch of the step: it is let through unless it came in the round under way. -/
theorem push_self (ht : t.InRounds s stepId E admitted) {p : MicrobatchPush σ ρ}
    (hstep : p.stepId = stepId) (hexpected : cfg.expectedNumMb p = E) (hlt : p.microBatchIdx < E) :
    let r := t.accept cfg now s p
    (if r.2 then r.1.finish cfg s p else r.1).InRounds s stepId E
        (admitted ++ if r.2 then [p.microBatchIdx] else []) ∧
      p.microBatchIdx ∈ admitted ++ if r.2 then [p.microBatchIdx] else [] := by
  obtain ⟨rounds, last, hpending, hrounds⟩ := ht
  subst hstep
  by_cases hidx : p.microBatchIdx ∈ last
  · obtain ⟨hfalse, hkept⟩ := hpending.accept_of_mem cfg now hidx
    simp only [hfalse, Bool.false_eq_true, if_false, List.append_nil]
    refine ⟨⟨rounds, last, hkept, hrounds⟩, ?_⟩
    rw [hrounds.admitted_eq]
    exact List.mem_append_right _ hidx
  · obtain ⟨htrue, hkept⟩ := hpending.accept_of_notMem cfg now hidx
    obtain ⟨rounds', hrounds'⟩ := hrounds.append hidx hlt
    simp only [htrue, if_true]
    exact ⟨⟨rounds', _, hkept.finish_self hexpected, hrounds'⟩,
      List.mem_append_right _ (List.mem_singleton_self _)⟩

theorem push_of_ne (ht : t.InRounds s stepId E admitted) {s' : ι} {p : MicrobatchPush σ ρ}
    (hne : (s, stepId) ≠ (s', p.stepId)) (hlasts : Lasts cfg t now (s', p.stepId) (s, stepId)) :
    let r := t.accept cfg now s' p
    (if r.2 then r.1.finish cfg s' p else r.1).InRounds s stepId E admitted := by
  obtain ⟨rounds, last, hpending, hrounds⟩ := ht
  have hkept := hpending.accept_of_ne hne hlasts
  dsimp only
  split_ifs
  · exact ⟨rounds, last, hkept.finish_of_ne hne, hrounds⟩
  · exact ⟨rounds, last, hkept, hrounds⟩

end InRounds

end Tracking

theorem World.admittedBy_eq_nil (cfg : Config) (w : World n ι σ ρ) {h : Fin n} {s : ι} {stepId : σ}
    {a : Act n ι σ ρ} (ha : ∀ now p, a = .rpcPush h now s (.microBatch p) → p.stepId ≠ stepId) :
    w.admittedBy cfg h s stepId a = [] := by
  cases a with
  | rpcPush h' now s' p =>
    cases p with
    | full request => rfl
    | microBatch p =>
      rw [World.admittedBy, if_neg]
      rintro ⟨rfl, rfl, hstep, -⟩
      exact ha now p rfl hstep
  | enter h' s' => rfl
  | exit h' s' => rfl
  | listen h' sender => rfl
  | get h' s' => rfl
  | shutdown h' => rfl

/-- One step of the handlers keeps the rounds of each of them. -/
theorem World.inRounds_step {cfg : Config} {w : World n ι σ ρ} (hw : w.Owns) {h : Fin n} {s : ι}
    {stepId : σ} {E : ℕ} {admitted : List ℕ}
    (ht : (w.handlers h).tracking.InRounds s stepId E admitted) {a : Act n ι σ ρ}
    (hlasts : ∀ now s' p, a = .rpcPush h now s' (.microBatch p) →
      (w.handlers h).tracking.Lasts cfg now (s', p.stepId) (s, stepId))
    (hE : ∀ now p, a = .rpcPush h now s (.microBatch p) → p.stepId = stepId →
      cfg.expectedNumMb p = E ∧ p.microBatchIdx < E) :
    ((w.step cfg a).handlers h).tracking.InRounds s stepId E
        (admitted ++ w.admittedBy cfg h s stepId a) ∧
      ∀ now p, a = .rpcPush h now s (.microBatch p) → p.stepId = stepId →
        p.microBatchIdx ∈ admitted ++ w.admittedBy cfg h s stepId a := by
  by_cases ha : ∃ now s' p, a = .rpcPush h now s' (.microBatch p)
  · obtain ⟨now, s', p, rfl⟩ := ha
    rw [World.step, World.tracking_rpcPush hw]
    by_cases hkey : s' = s ∧ p.stepId = stepId
    · obtain ⟨rfl, hstep⟩ := hkey
      obtain ⟨hexpected, hlt⟩ := hE now p rfl hstep
      obtain ⟨hkept, hmem⟩ := ht.push_self hstep hexpected hlt
      simp only [World.admittedBy, hstep, true_and]
      refine ⟨hkept, fun now' q hq _ => ?_⟩
      obtain rfl := Push.microBatch.inj (Act.rpcPush.inj hq).2.2.2
      exact hmem
    · have hne : (s, stepId) ≠ (s', p.stepId) := fun heq =>
        hkey ⟨(Prod.mk.inj heq).1.symm, (Prod.mk.inj heq).2.symm⟩
      have hother : ∀ now' q, Act.rpcPush h now s' (.microBatch p) =
          .rpcPush h now' s (.microBatch q) → q.stepId ≠ stepId := by
        intro now' q hq hstep
        obtain ⟨-, -, rfl, hp⟩ := Act.rpcPush.inj hq
        obtain rfl := Push.microBatch.inj hp
        exact hkey ⟨rfl, hstep⟩
      rw [World.admittedBy_eq_nil cfg w hother, List.append_nil]
      exact ⟨ht.push_of_ne hne (hlasts now s' p rfl),
        fun now' q hq hstep => absurd hstep (hother now' q hq)⟩
  · have hother : ∀ now s' p, a ≠ .rpcPush h now s' (.microBatch p) :=
      fun now s' p hp => ha ⟨now, s', p, hp⟩
    rw [World.tracking_step cfg w hother,
      World.admittedBy_eq_nil cfg w fun now p hp => absurd hp (hother now s p), List.append_nil]
    exact ⟨ht, fun now p hp _ => absurd hp (hother now s p)⟩

/-- In a run the entry of a step is never too old when its handler makes a new one. -/
def EntryLasts (cfg : Config) (h : Fin n) (s : ι) (stepId : σ) (acts : List (Act n ι σ ρ)) : Prop :=
  ∀ before now s' p after, acts = before ++ Act.rpcPush h now s' (.microBatch p) :: after →
    ((World.init.run cfg before).handlers h).tracking.Lasts cfg now (s', p.stepId) (s, stepId)

theorem entryLasts_append {cfg : Config} {acts : List (Act n ι σ ρ)} {a : Act n ι σ ρ} {h : Fin n}
    {s : ι} {stepId : σ} : EntryLasts cfg h s stepId (acts ++ [a]) ↔
      EntryLasts cfg h s stepId acts ∧ ∀ now s' p, a = .rpcPush h now s' (.microBatch p) →
        ((World.init.run cfg acts).handlers h).tracking.Lasts cfg now (s', p.stepId)
          (s, stepId) := by
  constructor
  · intro hlasts
    refine ⟨fun before now s' p after hacts => hlasts before now s' p (after ++ [a]) ?_,
      fun now s' p ha => hlasts acts now s' p [] (by rw [ha])⟩
    rw [hacts, List.append_assoc, List.cons_append]
  · rintro ⟨hacts, hlast⟩ before now s' p after heq
    rcases List.eq_nil_or_concat after with rfl | ⟨after, b, rfl⟩
    · obtain ⟨rfl, ha⟩ := List.append_inj' heq rfl
      exact hlast now s' p (List.singleton_inj.mp ha)
    · rw [List.concat_eq_append, ← List.cons_append, ← List.append_assoc] at heq
      exact hacts before now s' p after (List.append_inj' heq rfl).1

theorem run_rounds (cfg : Config) {acts : List (Act n ι σ ρ)} (hfresh : Fresh acts) {h : Fin n}
    {s : ι} {stepId : σ} {E : ℕ} (hlasts : EntryLasts cfg h s stepId acts)
    (hE : ∀ now p, Act.rpcPush h now s (.microBatch p) ∈ acts → p.stepId = stepId →
      cfg.expectedNumMb p = E ∧ p.microBatchIdx < E) :
    ((World.init.run cfg acts).handlers h).tracking.InRounds s stepId E
        (World.init.admitted cfg h s stepId acts) ∧
      ∀ now p, Act.rpcPush h now s (.microBatch p) ∈ acts → p.stepId = stepId →
        p.microBatchIdx ∈ World.init.admitted cfg h s stepId acts := by
  induction acts using List.reverseRecOn with
  | nil => exact ⟨.init, fun now p hp => absurd hp List.not_mem_nil⟩
  | append_singleton acts a ih =>
    have hfresh' : Fresh acts := by
      rw [Fresh, List.filterMap_append] at hfresh
      exact hfresh.of_append_left
    obtain ⟨hlasts, hyoung⟩ := entryLasts_append.mp hlasts
    obtain ⟨hrounds, harrived⟩ := ih hfresh' hlasts
      (fun now p hp => hE now p (List.mem_append_left _ hp))
    have hlast : a ∈ acts ++ [a] := List.mem_append_right _ (List.mem_singleton_self a)
    obtain ⟨hrounds', harrived'⟩ := World.inRounds_step (owns_run cfg hfresh') hrounds
      hyoung (fun now p ha => hE now p (ha ▸ hlast))
    rw [World.run_append, World.admitted_append]
    refine ⟨hrounds', fun now p hp hstep => ?_⟩
    rcases List.mem_append.mp hp with hp | hp
    · exact List.mem_append_left _ (harrived now p hp hstep)
    · exact harrived' now p (List.mem_singleton.mp hp).symm hstep

/-- What a handler lets through of the micro-batches of a step: rounds of all of them, each once,
and a round under way without repetition, if the entry of the step is never too old. However often
pushes are repeated, every micro-batch that comes is let through. -/
theorem admitted_rounds (cfg : Config) {acts : List (Act n ι σ ρ)} (hfresh : Fresh acts) {h : Fin n}
    {s : ι} {stepId : σ} {E : ℕ} (hlasts : EntryLasts cfg h s stepId acts)
    (hE : ∀ now p, Act.rpcPush h now s (.microBatch p) ∈ acts → p.stepId = stepId →
      cfg.expectedNumMb p = E ∧ p.microBatchIdx < E) :
    ∃ rounds last, Rounds E (World.init.admitted cfg h s stepId acts) rounds last ∧
      ∀ now p, Act.rpcPush h now s (.microBatch p) ∈ acts → p.stepId = stepId →
        p.microBatchIdx ∈ World.init.admitted cfg h s stepId acts := by
  obtain ⟨⟨rounds, last, -, hrounds⟩, harrived⟩ := run_rounds cfg hfresh hlasts hE
  exact ⟨rounds, last, hrounds, harrived⟩

def sampleMicrobatch (i : ℕ) : MicrobatchPush ℕ ℕ := ⟨0, i, i, 1, 2, .int 2, 5⟩

/-- Both micro-batches of a step come at a handler, the first of them twice, and the second comes
again long after the step was complete. -/
def repeatedActs (h : Fin n) : List (Act n ℕ ℕ ℕ) :=
  [(0, 0), (0, 0), (0, 1), (20, 1)].map fun (now, i) =>
    .rpcPush h now 7 (.microBatch (sampleMicrobatch i))

/-- The second micro-batch begins a round: the entry went with the first round. -/
theorem admitted_rounds_repeated :
    World.init.admitted sampleConfig 0 7 0 (repeatedActs (n := 1) 0) = [0, 1, 1] ∧
    ∃ rounds last,
      Rounds 2 (World.init.admitted sampleConfig 0 7 0 (repeatedActs (n := 1) 0)) rounds last := by
  have hmem : ∀ {now s p}, Act.rpcPush 0 now s p ∈ repeatedActs (n := 1) 0 →
      ∃ i < 2, p = .microBatch (sampleMicrobatch i) := by
    intro now s p hp
    obtain ⟨⟨_, i⟩, hi, heq⟩ := List.mem_map.mp hp
    obtain ⟨-, -, -, rfl⟩ := Act.rpcPush.inj heq
    exact ⟨i, (show ∀ x ∈ [(0, 0), (0, 0), (0, 1), (20, 1)], x.2 < 2 by decide) _ hi, rfl⟩
  have hlasts : EntryLasts sampleConfig 0 7 0 (repeatedActs (n := 1) 0) := by
    rw [show repeatedActs (n := 1) 0 = (repeatedActs 0).take 3 ++
      [.rpcPush 0 20 7 (.microBatch (sampleMicrobatch 1))] from rfl, entryLasts_append]
    refine ⟨fun before now s p after hacts _ added _ => ?_, fun now s p hp _ added hadded => ?_⟩
    · have hpush : Act.rpcPush 0 now s (.microBatch p) ∈ (repeatedActs (n := 1) 0).take 3 := by
        rw [hacts]
        exact List.mem_append_right _ List.mem_cons_self
      have hzero : now = 0 := by
        rcases List.mem_cons.mp hpush with heq | hpush
        · exact (Act.rpcPush.inj heq).2.1
        rcases List.mem_cons.mp hpush with heq | hpush
        · exact (Act.rpcPush.inj heq).2.1
        · exact (Act.rpcPush.inj (List.mem_singleton.mp hpush)).2.1
      exact hzero ▸ Nat.zero_le _
    · cases hadded
  obtain ⟨rounds, last, hrounds, -⟩ := admitted_rounds sampleConfig (h := 0) (s := 7) (E := 2)
    (show Fresh (repeatedActs (n := 1) 0) from List.nodup_nil) hlasts
    fun now p hp (_ : p.stepId = 0) => by
      obtain ⟨i, hi, heq⟩ := hmem hp
      rw [Push.microBatch.inj heq]
      exact ⟨rfl, hi⟩
  exact ⟨by decide, rounds, last, hrounds⟩

/-- What is let through goes to the session, if the handler knows it. -/
theorem World.admitted_routed (cfg : Config) {acts : List (Act n ι σ ρ)} {h : Fin n} {s : ι}
    {stepId : σ} {E : ℕ}
    (hE : ∀ now p, Act.rpcPush h now s (.microBatch p) ∈ acts → p.stepId = stepId →
      cfg.expectedNumMb p = E)
    (hknows : ∀ before now p after, acts = before ++ Act.rpcPush h now s (.microBatch p) :: after →
      p.stepId = stepId → ((World.init.run cfg before).handlers h).sessionHandlers s ≠ none) :
    ∀ i ∈ World.init.admitted cfg h s stepId acts,
      ∃ payload offset size fullBatchSize,
        QueueItem.microBatch s stepId i E payload offset size fullBatchSize ∈
          World.init.routed cfg h s acts := by
  induction acts using List.reverseRecOn with
  | nil => exact fun i hi => absurd hi List.not_mem_nil
  | append_singleton acts a ih =>
    intro i hi
    rw [World.admitted_append] at hi
    rw [World.routed_append]
    rcases List.mem_append.mp hi with hin | hin
    · obtain ⟨payload, offset, size, full, hmem⟩ := ih
        (fun now p hp => hE now p (List.mem_append_left _ hp))
        (fun before now p after hacts => hknows before now p (after ++ [a]) (by simp [hacts])) i hin
      exact ⟨payload, offset, size, full, List.mem_append_left _ hmem⟩
    · cases a with
      | rpcPush h' now s' p =>
        cases p with
        | full request => exact absurd hin List.not_mem_nil
        | microBatch p =>
          rw [World.admittedBy] at hin
          split_ifs at hin with hcond
          · obtain ⟨rfl, rfl, rfl, haccepted⟩ := hcond
            obtain rfl := List.mem_singleton.mp hin
            have hknown := hknows acts now p [] rfl rfl
            have hexpected := hE now p (List.mem_append_right _ (List.mem_singleton_self _)) rfl
            refine ⟨p.request, p.microBatchOffset, p.microBatchSize, p.fullBatchSize,
              List.mem_append_right _ ?_⟩
            have hview : ((World.init.run cfg acts).view s').table h' ≠ none := hknown
            simp [World.sessionAct, World.accept, haccepted, SessionView.routed, hview,
              Config.createMicrobatchQueueItem, hexpected]
          · exact absurd hin List.not_mem_nil
      | enter h' s' => exact absurd hin List.not_mem_nil
      | exit h' s' => exact absurd hin List.not_mem_nil
      | listen h' sender => exact absurd hin List.not_mem_nil
      | get h' s' => exact absurd hin List.not_mem_nil
      | shutdown h' => exact absurd hin List.not_mem_nil

/-- No micro-batch is lost: if handler `h` knew the session whenever one of the step came, and
nothing waits for the owner from there, then each that came is in what the loop of the session took
or in its queue. -/
theorem microBatch_delivered (cfg : Config) {acts : List (Act n ι σ ρ)} (hfresh : Fresh acts)
    {h o : Fin n} {s : ι} {stepId : σ} {E : ℕ} (hlasts : EntryLasts cfg h s stepId acts)
    (hE : ∀ now p, Act.rpcPush h now s (.microBatch p) ∈ acts → p.stepId = stepId →
      cfg.expectedNumMb p = E ∧ p.microBatchIdx < E)
    (hknows : ∀ before now p after, acts = before ++ Act.rpcPush h now s (.microBatch p) :: after →
      p.stepId = stepId → ((World.init.run cfg before).handlers h).sessionHandlers s ≠ none)
    {queue : List (QueueItem ι σ ρ)}
    (hopen : ((World.init.run cfg acts).handlers o).sessionQueues s = some queue)
    (hwaiting : (World.init.run cfg acts).waiting o h s = []) :
    ∀ now p, Act.rpcPush h now s (.microBatch p) ∈ acts → p.stepId = stepId →
      ∃ payload offset size fullBatchSize,
        QueueItem.microBatch s stepId p.microBatchIdx E payload offset size fullBatchSize ∈
          (World.init.run cfg acts).received s ++ queue := by
  intro now p hp hstep
  obtain ⟨-, harrived⟩ := run_rounds cfg hfresh hlasts hE
  obtain ⟨payload, offset, size, full, hmem⟩ := World.admitted_routed cfg
    (fun now p hp hstep => (hE now p hp hstep).1) hknows _ (harrived now p hp hstep)
  refine ⟨payload, offset, size, full, ?_⟩
  have hqueue : ((World.init.run cfg acts).view s).queue o = some queue := hopen
  rcases World.run_view cfg s hfresh with ⟨-, hinit, -⟩ | ⟨o', isOpen, -, hserves⟩
  · rw [hinit] at hqueue
    exact absurd hqueue.symm (Option.some_ne_none queue)
  · obtain ⟨rfl, hisOpen⟩ := (hserves.queue_ne_none_iff o).mp (hqueue ▸ Option.some_ne_none queue)
    obtain ⟨labelled, hmap, hparts⟩ := hserves.delivered
    have hall := (hparts h).2 hisOpen
    rw [World.filterMap_lanes, hwaiting, List.append_nil] at hall
    rw [hall] at hmem
    obtain ⟨entry, hentry, heq⟩ := List.mem_map.mp hmem
    have hwhole := List.mem_map_of_mem (f := Prod.snd) (List.mem_of_mem_filter hentry)
    rw [hmap, hqueue, heq] at hwhole
    exact hwhole

/-- A micro-batch comes to handler `h`, which sends it on to `o`. -/
def forwardedActs (o h : Fin 2) : List (Act 2 ℕ ℕ ℕ) :=
  heardActs o h ++ [.rpcPush h 30 7 (.microBatch (sampleMicrobatch 0)), .listen o h]

theorem microBatch_delivered_forwarded :
    ∃ payload offset size fullBatchSize,
      QueueItem.microBatch 7 0 0 2 payload offset size fullBatchSize ∈
        (World.init.run sampleConfig (forwardedActs 0 1)).received 7 ++
          (((World.init.run sampleConfig (forwardedActs 0 1)).handlers 0).sessionQueues 7).getD
            [] := by
  have hmem : ∀ {now s p}, Act.rpcPush 1 now s p ∈ forwardedActs 0 1 →
      p = .microBatch (sampleMicrobatch 0) := by
    intro now s p hp
    have hall : now = 30 ∧ s = 7 ∧ p = .microBatch (sampleMicrobatch 0) := by
      simpa [forwardedActs, heardActs] using hp
    exact hall.2.2
  have hbefore : ∀ {before now s p after},
      forwardedActs 0 1 = before ++ Act.rpcPush 1 now s p :: after → before = heardActs 0 1 := by
    intro before now s p after hacts
    rcases before with - | ⟨a, - | ⟨b, - | ⟨c, - | ⟨d, before⟩⟩⟩⟩ <;>
      simp only [forwardedActs, heardActs, List.nil_append, List.cons_append, List.cons.injEq,
        reduceCtorEq, false_and, and_false] at hacts
    · obtain ⟨rfl, rfl, -⟩ := hacts
      rfl
    · simp at hacts
  refine microBatch_delivered sampleConfig (h := 1) (o := 0) (s := 7)
    (show Fresh (forwardedActs 0 1) from List.nodup_singleton 7)
    (fun before now s p after hacts _ added hadded => ?_)
    (fun now p hp _ => ?_) (fun before now p after hacts _ => ?_) (by rfl) (by rfl) 30
    (sampleMicrobatch 0) (by simp [forwardedActs]) rfl
  · rw [hbefore hacts] at hadded
    cases hadded
  · rw [Push.microBatch.inj (hmem hp)]
    exact ⟨rfl, Nat.two_pos⟩
  · rw [hbefore hacts]
    decide

end Runs

end BloomBee.PushRouting

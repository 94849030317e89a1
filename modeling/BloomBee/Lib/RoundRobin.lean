import Mathlib.Data.List.Chain
import Mathlib.Data.List.Nodup

/-! Rounds over a queue. The first `n` in it are served; those of them that go on rejoin behind
everyone who waits, and newcomers join behind these. Nobody is served twice while another waits
for its turn, and whoever waits knows when that is. -/

set_option autoImplicit false

namespace RoundRobin

structure Round (κ : Type*) where
  time : ℕ
  /-- Who waits as the round begins. -/
  queue : List κ
  /-- Who wants another service. -/
  goesOn : κ → Bool

variable {κ : Type*} {n : ℕ}

def Round.batch (n : ℕ) (ρ : Round κ) : List κ := ρ.queue.take n

def Round.rest (n : ℕ) (ρ : Round κ) : List κ := ρ.queue.drop n ++ (ρ.batch n).filter ρ.goesOn

/-- `σ` is the round after `ρ`. -/
structure Follows (n : ℕ) (ρ σ : Round κ) : Prop where
  newcomers : ρ.rest n <+: σ.queue
  time : ρ.rest n ≠ [] → σ.time = ρ.time + 1

structure Rounds (n : ℕ) (rounds : List (Round κ)) : Prop where
  chain : rounds.IsChain (Follows n)
  nodup : ∀ ρ ∈ rounds, ρ.queue.Nodup
  /-- Who does not go on does not come back. -/
  gone : rounds.Pairwise fun ρ σ => ∀ a ∈ ρ.batch n, ρ.goesOn a = false → a ∉ σ.queue

def services (n : ℕ) (rounds : List (Round κ)) : List (ℕ × κ) :=
  rounds.flatMap fun ρ => (ρ.batch n).map fun a => (ρ.time, a)

theorem map_snd_services (n : ℕ) (rounds : List (Round κ)) :
    (services n rounds).map Prod.snd = rounds.flatMap (Round.batch n) := by
  unfold services
  rw [List.map_flatMap]
  simp [Function.comp_def]

section Place

variable {ρ : Round κ} {a : κ} {ahead behind : List κ}

/-- Whoever has fewer than `n` before it is served. -/
theorem mem_batch_of_lt (h : ρ.queue = ahead ++ a :: behind) (hlt : ahead.length < n) :
    a ∈ ρ.batch n := by
  obtain ⟨k, hk⟩ : ∃ k, n - ahead.length = k + 1 := ⟨n - ahead.length - 1, by omega⟩
  unfold Round.batch
  rw [h, List.take_append, hk, List.take_succ_cons]
  exact List.mem_append_right _ List.mem_cons_self

/-- Otherwise it moves up by `n`. -/
theorem batch_of_le (h : ρ.queue = ahead ++ a :: behind) (hle : n ≤ ahead.length) :
    ρ.batch n = ahead.take n ∧
      ρ.rest n = ahead.drop n ++ a :: (behind ++ (ahead.take n).filter ρ.goesOn) := by
  have hbatch : ρ.batch n = ahead.take n := by
    unfold Round.batch
    rw [h, List.take_append_of_le_length hle]
  refine ⟨hbatch, ?_⟩
  unfold Round.rest
  rw [hbatch, h, List.drop_append_of_le_length hle, List.append_assoc, List.cons_append]

end Place

/-! ### Between two services -/

variable [DecidableEq κ]

/-- How `a` waits in the queue: nobody else has been served twice since its last service, nobody
before it has been served at all, and who is eligible has been served or is before it. -/
def Waits (eligible : κ → Prop) (a : κ) (since queue : List κ) : Prop :=
  ∃ ahead behind, queue = ahead ++ a :: behind ∧ ∀ b, b ≠ a →
    since.count b ≤ 1 ∧ (b ∈ ahead → b ∉ since) ∧ (eligible b → b ∈ since ∨ b ∈ ahead)

variable {eligible : κ → Prop} {a : κ} {since queue queue' : List κ} {ρ σ : Round κ}

theorem Waits.newcomers (h : Waits eligible a since queue) (hnew : queue <+: queue') :
    Waits eligible a since queue' := by
  obtain ⟨ahead, behind, rfl, hothers⟩ := h
  obtain ⟨new, rfl⟩ := hnew
  exact ⟨ahead, behind ++ new, by simp, hothers⟩

/-- As `a` is served and goes on, everyone who waits gets before it. -/
theorem waits_of_served (hnodup : ρ.queue.Nodup) {before after : List κ}
    (hbatch : ρ.batch n = before ++ a :: after) (hon : ρ.goesOn a = true) :
    Waits (fun b => b ∈ ρ.queue ∧ (b ∈ before → ρ.goesOn b = true)) a after (ρ.rest n) := by
  have hnodup' : (before ++ a :: after).Nodup := by
    rw [← hbatch]
    exact hnodup.sublist (List.take_sublist n _)
  have hdisjoint : ∀ b ∈ ρ.batch n, b ∉ ρ.queue.drop n := by
    intro b hb hdrop
    exact List.disjoint_take_drop hnodup le_rfl hb hdrop
  refine ⟨ρ.queue.drop n ++ before.filter ρ.goesOn, after.filter ρ.goesOn, ?_, ?_⟩
  · unfold Round.rest
    rw [hbatch]
    simp [hon]
  intro b hb
  have hafter : b ∈ after → b ∉ before := by
    intro hafter hbefore
    exact (List.nodup_append.mp hnodup').2.2 b hbefore b (List.mem_cons_of_mem a hafter) rfl
  have hcount : after.Nodup := (List.nodup_cons.mp (List.nodup_append.mp hnodup').2.1).2
  refine ⟨List.nodup_iff_count_le_one.mp hcount b, ?_, ?_⟩
  · intro hahead hsince
    rcases List.mem_append.mp hahead with hdrop | hbefore
    · refine hdisjoint b ?_ hdrop
      rw [hbatch]
      exact List.mem_append_right _ (List.mem_cons_of_mem a hsince)
    · exact hafter hsince (List.mem_filter.mp hbefore).1
  · rintro ⟨hqueue, hgoesOn⟩
    rw [← List.take_append_drop n ρ.queue] at hqueue
    rcases List.mem_append.mp hqueue with htake | hdrop
    · have hmem : b ∈ before ++ a :: after := hbatch ▸ htake
      rcases List.mem_append.mp hmem with hbefore | hmem
      · have hkept := List.mem_filter.mpr ⟨hbefore, hgoesOn hbefore⟩
        exact .inr (List.mem_append_right _ hkept)
      · rcases List.mem_cons.mp hmem with rfl | hafter
        · exact absurd rfl hb
        · exact .inl hafter
    · exact .inr (List.mem_append_left _ hdrop)

/-- A round that does not reach `a` serves only who was before it. -/
theorem Waits.round (h : Waits eligible a since ρ.queue) (hnodup : ρ.queue.Nodup)
    (hout : a ∉ ρ.batch n) : Waits eligible a (since ++ ρ.batch n) (ρ.rest n) := by
  obtain ⟨ahead, behind, hqueue, hothers⟩ := h
  have hle : n ≤ ahead.length := Nat.le_of_not_lt fun hlt => hout (mem_batch_of_lt hqueue hlt)
  obtain ⟨hbatch, hrest⟩ := batch_of_le hqueue hle
  have hahead : ahead.Nodup := by
    rw [hqueue] at hnodup
    exact (List.nodup_append.mp hnodup).1
  refine ⟨ahead.drop n, behind ++ (ahead.take n).filter ρ.goesOn, hrest, fun b hb => ?_⟩
  obtain ⟨hcount, hbefore, heligible⟩ := hothers b hb
  rw [hbatch]
  refine ⟨?_, ?_, ?_⟩
  · rw [List.count_append]
    by_cases hmem : b ∈ ahead.take n
    · have hnone := List.count_eq_zero.mpr (hbefore (List.mem_of_mem_take hmem))
      have hone := List.nodup_iff_count_le_one.mp (hahead.sublist (List.take_sublist n _)) b
      omega
    · rw [List.count_eq_zero.mpr hmem]
      exact hcount
  · intro hdrop hsince
    rcases List.mem_append.mp hsince with hsince | htake
    · exact hbefore (List.mem_of_mem_drop hdrop) hsince
    · exact List.disjoint_take_drop hahead le_rfl htake hdrop
  · intro hb
    rcases heligible hb with hsince | hmem
    · exact .inl (List.mem_append_left _ hsince)
    · rw [← List.take_append_drop n ahead] at hmem
      rcases List.mem_append.mp hmem with htake | hdrop
      · exact .inl (List.mem_append_right _ htake)
      · exact .inr hdrop

/-- The round that serves `a` again has served everyone before it by then. -/
theorem Waits.served (h : Waits eligible a since ρ.queue) (hnodup : ρ.queue.Nodup)
    {before after : List κ} (hbatch : ρ.batch n = before ++ a :: after) {b : κ} (hb : b ≠ a) :
    (since ++ before).count b ≤ 1 ∧ (eligible b → (since ++ before).count b = 1) := by
  obtain ⟨ahead, behind, hqueue, hothers⟩ := h
  obtain ⟨hcount, hbefore, heligible⟩ := hothers b hb
  have hahead : ahead = before := by
    have hsplit : ρ.queue = before ++ a :: (after ++ ρ.queue.drop n) := by
      conv_lhs => rw [← List.take_append_drop n ρ.queue]
      rw [show ρ.queue.take n = before ++ a :: after from hbatch, List.append_assoc,
        List.cons_append]
    rw [hqueue] at hsplit
    have hnodup := hnodup
    rw [hqueue] at hnodup
    obtain ⟨-, hcons, hdisjoint⟩ := List.nodup_append.mp hnodup
    have hnot : a ∉ ahead := fun ha => hdisjoint a ha a List.mem_cons_self rfl
    exact ((List.append_cons_inj_of_notMem hnot (List.nodup_cons.mp hcons).1).mp hsplit).1
  subst hahead
  have hnodup' : ahead.Nodup := by
    rw [hqueue] at hnodup
    exact (List.nodup_append.mp hnodup).1
  have hone := List.nodup_iff_count_le_one.mp hnodup' b
  rw [List.count_append]
  by_cases hmem : b ∈ ahead
  · have hnone := List.count_eq_zero.mpr (hbefore hmem)
    have hpos := List.count_pos_iff.mpr hmem
    omega
  · have hnone := List.count_eq_zero.mpr hmem
    refine ⟨by omega, fun he => ?_⟩
    have hpos := List.count_pos_iff.mpr ((heligible he).resolve_right hmem)
    omega

/-- `a` waits through the rounds that do not serve it. -/
theorem Waits.rounds (h : Waits eligible a since (ρ.rest n)) {between : List (Round κ)}
    (hchain : (ρ :: between).IsChain (Follows n)) (hnodup : ∀ σ ∈ between, σ.queue.Nodup)
    (hout : ∀ σ ∈ between, a ∉ σ.batch n) :
    Waits eligible a (since ++ between.flatMap (Round.batch n))
      (((ρ :: between).getLast (List.cons_ne_nil ρ between)).rest n) := by
  induction between generalizing ρ since with
  | nil =>
    rw [List.flatMap_nil, List.append_nil]
    exact h
  | cons σ between ih =>
    obtain ⟨hfollows, hchain⟩ := List.isChain_cons_cons.mp hchain
    obtain ⟨hσ, hnodup⟩ := List.forall_mem_cons.mp hnodup
    obtain ⟨hskip, hout⟩ := List.forall_mem_cons.mp hout
    have hround := (h.newcomers hfollows.newcomers).round hσ hskip
    have hlast := ih hround hchain hnodup hout
    rw [List.append_assoc] at hlast
    rw [List.getLast_cons_cons]
    exact hlast

/-- Between a service of `a` and its next one every other is served once at most, and exactly once
if it waits as the first of the two rounds begins and goes on if it is served before `a` there. -/
theorem between_services {before between after : List (Round κ)}
    (h : Rounds n (before ++ ρ :: (between ++ σ :: after))) {first last first' last' : List κ}
    (hρ : ρ.batch n = first ++ a :: last) (hσ : σ.batch n = first' ++ a :: last')
    (hout : ∀ τ ∈ between, a ∉ τ.batch n) {b : κ} (hb : b ≠ a) :
    let since := last ++ between.flatMap (Round.batch n) ++ first'
    since.count b ≤ 1 ∧
      (b ∈ ρ.queue → (b ∈ first → ρ.goesOn b = true) → since.count b = 1) := by
  have hnodup {τ : Round κ} (hτ : τ ∈ ρ :: (between ++ σ :: after)) : τ.queue.Nodup :=
    h.nodup τ (List.mem_append_right before hτ)
  have hmemσ : σ ∈ between ++ σ :: after := List.mem_append_right between List.mem_cons_self
  have hon : ρ.goesOn a = true := by
    have hgone := (List.pairwise_cons.mp (List.pairwise_append.mp h.gone).2.1).1 σ hmemσ a
      (hρ ▸ List.mem_append_right first List.mem_cons_self)
    rw [← Bool.not_eq_false]
    refine fun hoff => hgone hoff ?_
    have hbatch : a ∈ σ.batch n := hσ ▸ List.mem_append_right first' List.mem_cons_self
    exact List.mem_of_mem_take hbatch
  have hchain : (ρ :: (between ++ σ :: after)).IsChain (Follows n) :=
    h.chain.suffix (List.suffix_append before _)
  rw [← List.cons_append] at hchain
  have hwaits := (waits_of_served (hnodup List.mem_cons_self) hρ hon).rounds hchain.left_of_append
    (fun τ hτ => hnodup (List.mem_cons_of_mem ρ (List.mem_append_left _ hτ))) hout
  have hfollows : Follows n ((ρ :: between).getLast (List.cons_ne_nil ρ between)) σ := by
    rw [List.isChain_append] at hchain
    exact hchain.2.2 _ (List.getLast_mem_getLast? _) σ rfl
  obtain ⟨hle, hone⟩ := (hwaits.newcomers hfollows.newcomers).served
    (hnodup (List.mem_cons_of_mem ρ hmemσ)) hσ hb
  exact ⟨hle, fun hqueue hfirst => hone ⟨hqueue, hfirst⟩⟩

/-! ### In the list of services -/

omit [DecidableEq κ] in
theorem flatMap_eq_append_cons {α β : Type*} {f : α → List β} {l : List α} {front back : List β}
    {x : β} (h : l.flatMap f = front ++ x :: back) :
    ∃ before e after first last, l = before ++ e :: after ∧ f e = first ++ x :: last ∧
      front = before.flatMap f ++ first ∧ back = last ++ after.flatMap f := by
  induction l generalizing front with
  | nil => exact absurd h.symm (by simp)
  | cons e l ih =>
    rw [List.flatMap_cons] at h
    rcases List.append_eq_append_iff.mp h with ⟨rest, hfront, hl⟩ | ⟨rest, he, hl⟩
    · obtain ⟨before, e', after, first, last, rfl, he', hrest, hback⟩ := ih hl
      refine ⟨e :: before, e', after, first, last, rfl, he', ?_, hback⟩
      rw [hfront, hrest, List.flatMap_cons, List.append_assoc]
    · rcases rest with - | ⟨y, rest⟩
      · have hl : l.flatMap f = [] ++ x :: back := hl.symm
        obtain ⟨before, e', after, first, last, rfl, he', hrest, hback⟩ := ih hl
        refine ⟨e :: before, e', after, first, last, rfl, he', ?_, hback⟩
        rw [List.append_nil] at he
        rw [List.flatMap_cons, List.append_assoc, ← hrest, List.append_nil, he]
      · obtain ⟨rfl, hback⟩ := List.cons.inj hl
        exact ⟨[], e, l, front, rest, rfl, he, rfl, hback⟩

omit [DecidableEq κ] in
theorem services_eq_append_cons {rounds : List (Round κ)} {front back : List (ℕ × κ)} {t : ℕ}
    (h : services n rounds = front ++ (t, a) :: back) :
    ∃ before ρ after first last, rounds = before ++ ρ :: after ∧ ρ.time = t ∧
      ρ.batch n = first ++ a :: last ∧
      front.map Prod.snd = before.flatMap (Round.batch n) ++ first ∧
      back = (last.map fun b => (ρ.time, b)) ++ services n after := by
  obtain ⟨before, ρ, after, first, last, hrounds, hbatch, hfront, hback⟩ :=
    flatMap_eq_append_cons h
  obtain ⟨first', rest, hbatch', rfl, hrest⟩ := List.map_eq_append_iff.mp hbatch
  obtain ⟨a', last', rfl, ha, rfl⟩ := List.map_eq_cons_iff.mp hrest
  obtain ⟨htime, rfl⟩ := Prod.mk.inj ha
  refine ⟨before, ρ, after, first', last', hrounds, htime, hbatch', ?_, hback⟩
  rw [hfront, List.map_append, ← services, map_snd_services]
  simp [Function.comp_def]

/-- Round-robin: between two services of `a` in a row every other is served once at most, and
exactly once if it waits as the round of the first one begins and goes on if it was served before
`a` there. -/
theorem fair {rounds : List (Round κ)} (h : Rounds n rounds) {front between back : List (ℕ × κ)}
    {t t' : ℕ} (hservices : services n rounds =
      front ++ (t, a) :: (between ++ (t', a) :: back))
    (hout : ∀ x ∈ between, x.2 ≠ a) :
    ∃ before ρ after first, rounds = before ++ ρ :: after ∧ ρ.time = t ∧
      front.map Prod.snd = before.flatMap (Round.batch n) ++ first ∧
      ∀ b, b ≠ a → (between.map Prod.snd).count b ≤ 1 ∧
        (b ∈ ρ.queue → (b ∈ first → ρ.goesOn b = true) → (between.map Prod.snd).count b = 1) := by
  obtain ⟨before, ρ, after, first, last, rfl, htime, hρ, hfront, hback⟩ :=
    services_eq_append_cons hservices
  refine ⟨before, ρ, after, first, rfl, htime, hfront, fun b hb => ?_⟩
  -- the second service is in a later round, since no round serves `a` twice
  have hlast : a ∉ last := by
    have hnodup := (h.nodup ρ (List.mem_append_right before List.mem_cons_self)).sublist
      (List.take_sublist n _)
    have hbatch : ρ.queue.take n = first ++ a :: last := hρ
    rw [hbatch] at hnodup
    exact (List.nodup_cons.mp (List.nodup_append.mp hnodup).2.1).1
  obtain ⟨middle, hbetween, hafter⟩ : ∃ middle, between =
      (last.map fun b => (ρ.time, b)) ++ middle ∧
        services n after = middle ++ (t', a) :: back := by
    rcases List.append_eq_append_iff.mp hback with ⟨rest, hl, hr⟩ | ⟨middle, hl, hr⟩
    · rcases rest with - | ⟨x, rest⟩
      · exact ⟨[], by rw [List.append_nil, hl, List.append_nil], hr.symm⟩
      · obtain ⟨rfl, -⟩ := List.cons.inj hr
        have hmem : (t', a) ∈ last.map fun b => (ρ.time, b) := by
          rw [hl]
          exact List.mem_append_right _ List.mem_cons_self
        obtain ⟨b', hb', heq⟩ := List.mem_map.mp hmem
        obtain ⟨-, rfl⟩ := Prod.mk.inj heq
        exact absurd hb' hlast
    · exact ⟨middle, hl, hr⟩
  obtain ⟨between', σ, after', first', last', rfl, -, hσ, hmiddle, -⟩ :=
    services_eq_append_cons hafter
  have hout' : ∀ τ ∈ between', a ∉ τ.batch n := by
    intro τ hτ ha
    have hmem : a ∈ middle.map Prod.snd := by
      rw [hmiddle]
      exact List.mem_append_left _ (List.mem_flatMap.mpr ⟨τ, hτ, ha⟩)
    obtain ⟨x, hx, rfl⟩ := List.mem_map.mp hmem
    exact hout x (hbetween ▸ List.mem_append_right _ hx) rfl
  have hsince : between.map Prod.snd = last ++ between'.flatMap (Round.batch n) ++ first' := by
    rw [hbetween, List.map_append, hmiddle, List.append_assoc]
    simp [Function.comp_def]
  rw [hsince]
  exact between_services h hρ hσ hout' hb

/-! ### How long it takes -/

omit [DecidableEq κ] in
/-- Who has `k` before it is served `k / n` rounds later, if there are as many: by induction on the
rounds, each of which serves `n` of the `k`. -/
theorem served_in_turn {rounds : List (Round κ)} (hn : 0 < n)
    (hchain : (ρ :: rounds).IsChain (Follows n)) {ahead behind : List κ}
    (hqueue : ρ.queue = ahead ++ a :: behind) :
    (∃ σ ∈ ρ :: rounds, a ∈ σ.batch n ∧ σ.time = ρ.time + ahead.length / n) ∨
      ∃ σ, (ρ :: rounds).getLast? = some σ ∧ a ∈ σ.rest n ∧
        σ.time < ρ.time + ahead.length / n := by
  induction rounds generalizing ρ ahead behind with
  | nil =>
    rcases Nat.lt_or_ge ahead.length n with hlt | hle
    · rw [Nat.div_eq_of_lt hlt]
      exact .inl ⟨ρ, List.mem_cons_self, mem_batch_of_lt hqueue hlt, rfl⟩
    · have hpos := Nat.div_pos hle hn
      refine .inr ⟨ρ, rfl, ?_, by omega⟩
      rw [(batch_of_le hqueue hle).2]
      exact List.mem_append_right _ List.mem_cons_self
  | cons σ rounds ih =>
    rcases Nat.lt_or_ge ahead.length n with hlt | hle
    · rw [Nat.div_eq_of_lt hlt]
      exact .inl ⟨ρ, List.mem_cons_self, mem_batch_of_lt hqueue hlt, rfl⟩
    obtain ⟨hfollows, hchain⟩ := List.isChain_cons_cons.mp hchain
    have hrest := (batch_of_le hqueue hle).2
    obtain ⟨new, hnew⟩ := hfollows.newcomers
    rw [hrest, List.append_assoc, List.cons_append] at hnew
    have htime := hfollows.time (by rw [hrest]; simp)
    have hdiv : ρ.time + ahead.length / n = σ.time + (ahead.drop n).length / n := by
      have hstep := Nat.div_eq_sub_div hn hle
      rw [List.length_drop]
      omega
    rw [hdiv]
    rcases ih hchain hnew.symm with ⟨τ, hτ, hserved⟩ | hlast
    · exact .inl ⟨τ, List.mem_cons_of_mem ρ hτ, hserved⟩
    · rw [List.getLast?_cons_cons]
      exact .inr hlast

end RoundRobin

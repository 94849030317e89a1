import BloomBee.Sanity.CacheHandles
import Mathlib.Algebra.BigOperators.Group.Finset.Basic
import Mathlib.Algebra.BigOperators.Group.Finset.Piecewise
import Mathlib.Data.Fintype.Basic

/-! The accounting of the cache: in every reachable state the counters are sums over the live
groups and the waiting requests, tokens and live handles are given back once, and a drained
pipe leaves the runtime with the handles of the live groups (`reaches_accounting`). -/

set_option autoImplicit false

namespace BloomBee.CacheHandles

/-! ### The groups of one call -/

section

variable {allocationTokens : AList fun _ : List ℕ => ℕ}
  {handleToAllocation : AList fun _ : ℕ => List ℕ} {live : List Group} {onlyKnown : Bool}

theorem lookup_eq_none_iff (hr : Records allocationTokens handleToAllocation live) (h : ℕ) :
    handleToAllocation.lookup h = none ↔ h ∉ liveHandles live := by
  rw [Option.eq_none_iff_forall_ne_some, mem_liveHandles]
  constructor
  · rintro hn ⟨g, hg, hh⟩
    exact hn g.handles ((hr.group h _).mpr ⟨hh, g.tokens, hg⟩)
  · intro hn g hl
    obtain ⟨hh, t, ht⟩ := (hr.group h g).mp hl
    exact hn ⟨⟨g, t⟩, ht, hh⟩

theorem freeable_groupsOf (onlyKnown : Bool)
    (hr : Records allocationTokens handleToAllocation live) (hs : List ℕ) :
    ∀ g ∈ groupsOf handleToAllocation onlyKnown [] hs, Freeable onlyKnown live g := by
  intro g hg
  rcases (mem_groupsOf _ _ _ _ _).mp hg with h | ⟨h, -, hl | ⟨hk, hl, rfl⟩⟩
  · cases h
  · obtain ⟨hh, ht⟩ := (hr.group h g).mp hl
    exact Or.inl ⟨List.ne_nil_of_mem hh, ht⟩
  · exact Or.inr ⟨hk, h, rfl, (lookup_eq_none_iff hr h).mp hl⟩

theorem filter_groupsOf (onlyKnown : Bool)
    (hr : Records allocationTokens handleToAllocation live) (hs : List ℕ) :
    live.filter (·.handles ∉ groupsOf handleToAllocation onlyKnown [] hs) = unhit hs live := by
  apply List.filter_congr
  intro g hg
  have := groupsOf_hit hr onlyKnown hs hg
  simp [this]

/-- Two groups of one call that share a handle are one. -/
theorem freeable_unique (hnd : (liveHandles live).Nodup) {g g' : List ℕ} {h : ℕ}
    (hg : Freeable onlyKnown live g) (hg' : Freeable onlyKnown live g') (hh : h ∈ g)
    (hh' : h ∈ g') : g = g' := by
  rcases hg with ⟨-, t, ht⟩ | ⟨-, k, rfl, hk⟩
  · rcases hg' with ⟨-, t', ht'⟩ | ⟨-, k', rfl, hk'⟩
    · exact congrArg Group.handles (group_unique hnd ht ht' hh hh')
    · rw [List.mem_singleton] at hh'
      subst hh'
      exact absurd (mem_liveHandles.mpr ⟨_, ht, hh⟩) hk'
  · rw [List.mem_singleton] at hh
    subst hh
    rcases hg' with ⟨-, t', ht'⟩ | ⟨-, k', rfl, hk'⟩
    · exact absurd (mem_liveHandles.mpr ⟨_, ht', hh'⟩) hk
    · rw [List.mem_singleton] at hh'
      rw [hh']

theorem freeable_nodup (hnd : (liveHandles live).Nodup) {g : List ℕ}
    (hg : Freeable onlyKnown live g) : g.Nodup := by
  rcases hg with ⟨-, t, ht⟩ | ⟨-, k, rfl, -⟩
  · exact (List.nodup_flatMap.mp hnd).1 _ ht
  · exact List.nodup_singleton k

theorem flatten_nodup (hnd : (liveHandles live).Nodup) {gs : List (List ℕ)} (hgs : gs.Nodup)
    (hfree : ∀ g ∈ gs, Freeable onlyKnown live g) : gs.flatten.Nodup := by
  rw [List.nodup_flatten]
  refine ⟨fun g hg => freeable_nodup hnd (hfree g hg), ?_⟩
  refine List.Pairwise.imp_of_mem ?_ hgs
  intro g g' hg hg' hne h hh hh'
  exact hne (freeable_unique hnd (hfree g hg) (hfree g' hg') hh hh')

/-- The handles that stay live are those no group of the call has. -/
theorem mem_liveHandles_filter (hnd : (liveHandles live).Nodup) {gs : List (List ℕ)}
    (hfree : ∀ g ∈ gs, Freeable onlyKnown live g) (h : ℕ) :
    h ∈ liveHandles (live.filter (·.handles ∉ gs)) ↔ h ∈ liveHandles live ∧ h ∉ gs.flatten := by
  simp only [mem_liveHandles, List.mem_filter, decide_eq_true_eq, List.mem_flatten, not_exists,
    not_and]
  constructor
  · rintro ⟨g, ⟨hg, hn⟩, hh⟩
    refine ⟨⟨g, hg, hh⟩, fun g' hg' hh' => ?_⟩
    have hfg : Freeable onlyKnown live g.handles := Or.inl ⟨List.ne_nil_of_mem hh, g.tokens, hg⟩
    rw [freeable_unique hnd hfg (hfree g' hg') hh hh'] at hn
    exact hn hg'
  · rintro ⟨⟨g, hg, hh⟩, hn⟩
    exact ⟨g, ⟨hg, fun hin => hn _ hin hh⟩, hh⟩

end

/-! ### The invariant -/

variable {ι : Type} [DecidableEq ι] [Fintype ι]

def Phase.waitingTokens : Phase → ℕ
  | .waiting descriptors => allocationSizeTokens descriptors
  | _ => 0

structure Inv (s : State ι) (live : List Group) : Prop where
  current : s.currentSizeTokens = (live.map Group.tokens).sum
  enqueued : s.enqueuedSizeTokens = ∑ i, ((s.phase i).waitingTokens : ℤ)
  records : Records s.allocationTokens s.handleToAllocation live
  nodup : (liveHandles live).Nodup
  below : ∀ h ∈ liveHandles live, h < s.handleCounter
  runtime : s.pipe.foldl processMessage s.allocatedTensors = (liveHandles live).toFinset
  returned_nodup : s.returned.Nodup
  /-- A group that was given back has a handle that is not live and not new either. -/
  returned_dead : ∀ g ∈ s.returned, ∃ h ∈ g, h < s.handleCounter ∧ h ∉ liveHandles live
  deleted_nodup : s.deletedLive.Nodup
  deleted_dead : ∀ h ∈ s.deletedLive, h < s.handleCounter ∧ h ∉ liveHandles live

omit [DecidableEq ι] in
theorem inv_init : Inv (State.init : State ι) [] where
  current := rfl
  enqueued := by simp [State.init, Phase.waitingTokens]
  records := ⟨fun g t _ => by simp [State.init], fun h g => by simp [State.init]⟩
  nodup := List.nodup_nil
  below := by intro h hh; cases hh
  runtime := rfl
  returned_nodup := List.nodup_nil
  returned_dead := by intro g hg; cases hg
  deleted_nodup := List.nodup_nil
  deleted_dead := by intro h hh; cases hh

omit [DecidableEq ι] in
theorem inv_release {onlyKnown : Bool} {s : State ι} {live : List Group} (hi : Inv s live)
    {gs : List (List ℕ)} (hgs : gs.Nodup) (hfree : ∀ g ∈ gs, Freeable onlyKnown live g) {f : Freed}
    (hrec : Records f.allocationTokens f.handleToAllocation (live.filter (·.handles ∉ gs)))
    (htok : f.tokensToFree + ((live.filter (·.handles ∉ gs)).map Group.tokens).sum =
      (live.map Group.tokens).sum)
    (hhan : f.handlesToFree = gs.flatten)
    (hret : f.returned = gs.filter (· ∈ live.map Group.handles)) :
    Inv (s.release f) (live.filter (·.handles ∉ gs)) := by
  have hmem := mem_liveHandles_filter hi.nodup hfree
  have hflat := flatten_nodup hi.nodup hgs hfree
  have hknown : ∀ h, h ∈ s.handleToAllocation ↔ h ∈ liveHandles live := by
    intro h
    rw [← not_iff_not, ← AList.lookup_eq_none, lookup_eq_none_iff hi.records]
  exact
    { current := by
        change s.currentSizeTokens - f.tokensToFree = _
        rw [hi.current]
        omega
      enqueued := hi.enqueued
      records := hrec
      nodup := hi.nodup.sublist (liveHandles_sublist List.filter_sublist)
      below := fun h hh => hi.below h ((hmem h).mp hh).1
      runtime := by
        have hpipe : (s.release f).pipe.foldl processMessage s.allocatedTensors =
            (liveHandles live).toFinset \ gs.flatten.toFinset := by
          simp only [State.release, hhan]
          split
          · next hnil => rw [hi.runtime, hnil, List.toFinset_nil, Finset.sdiff_empty]
          · rw [List.foldl_append, hi.runtime]; rfl
        refine hpipe.trans ?_
        ext h
        rw [Finset.mem_sdiff, List.mem_toFinset, List.mem_toFinset, List.mem_toFinset, hmem h]
      returned_nodup := by
        change (s.returned ++ f.returned).Nodup
        rw [hret]
        refine hi.returned_nodup.append (hgs.filter _) ?_
        -- a group given back before has a dead handle
        intro g hold hnew
        obtain ⟨h, hh, -, hdead⟩ := hi.returned_dead g hold
        obtain ⟨a, ha, rfl⟩ := List.mem_map.mp (by simpa using (List.mem_filter.mp hnew).2)
        exact hdead (mem_liveHandles.mpr ⟨a, ha, hh⟩)
      returned_dead := by
        intro g hg
        rcases List.mem_append.mp hg with hg | hg
        · obtain ⟨h, hh, hlt, hdead⟩ := hi.returned_dead g hg
          exact ⟨h, hh, hlt, fun hin => hdead ((hmem h).mp hin).1⟩
        · rw [hret, List.mem_filter] at hg
          obtain ⟨a, ha, rfl⟩ := List.mem_map.mp (by simpa using hg.2)
          have hne : a.handles ≠ [] := by
            rcases hfree _ hg.1 with ⟨hne, -⟩ | ⟨-, k, hk, -⟩
            · exact hne
            · rw [hk]; exact List.cons_ne_nil _ _
          obtain ⟨h, hh⟩ := List.exists_mem_of_ne_nil _ hne
          refine ⟨h, hh, hi.below h (mem_liveHandles.mpr ⟨a, ha, hh⟩), fun hin => ?_⟩
          exact ((hmem h).mp hin).2 (List.mem_flatten.mpr ⟨_, hg.1, hh⟩)
      deleted_nodup := by
        change (s.deletedLive ++ f.handlesToFree.filter (· ∈ s.handleToAllocation)).Nodup
        rw [hhan]
        refine hi.deleted_nodup.append (hflat.filter _) ?_
        intro h hold hnew
        have hlive := (hknown h).mp (by simpa using (List.mem_filter.mp hnew).2)
        exact (hi.deleted_dead h hold).2 hlive
      deleted_dead := by
        intro h hh
        rcases List.mem_append.mp hh with hh | hh
        · obtain ⟨hlt, hdead⟩ := hi.deleted_dead h hh
          exact ⟨hlt, fun hin => hdead ((hmem h).mp hin).1⟩
        · rw [hhan, List.mem_filter] at hh
          have hlive := (hknown h).mp (by simpa using hh.2)
          exact ⟨hi.below h hlive, fun hin => ((hmem h).mp hin).2 hh.1⟩ }

omit [DecidableEq ι] in
/-- `force_free` on any handles keeps the invariant for the groups it does not hit. -/
theorem inv_forceFree (onlyKnown : Bool) {s : State ι} {live : List Group} (hi : Inv s live)
    (hs : List ℕ) : Inv (forceFree onlyKnown s hs) (unhit hs live) := by
  have hgs := groupsOf_nodup s.handleToAllocation onlyKnown hs [] List.nodup_nil
  have hfree := freeable_groupsOf onlyKnown hi.records hs
  obtain ⟨hrec, htok, hhan, hret⟩ := foldl_freeGroup _
    ⟨s.allocationTokens, s.handleToAllocation, 0, [], []⟩ live hi.records hi.nodup hgs hfree
  rw [← filter_groupsOf onlyKnown hi.records hs]
  exact inv_release hi hgs hfree hrec (by simpa using htok) (by simpa using hhan)
    (by simpa using hret)

theorem sum_waitingTokens_update (phase : ι → Phase) (i : ι) (p : Phase) :
    ∑ j, ((Function.update phase i p j).waitingTokens : ℤ) =
      ∑ j, ((phase j).waitingTokens : ℤ) - (phase i).waitingTokens + p.waitingTokens := by
  rw [← Finset.add_sum_erase _ _ (Finset.mem_univ i), ← Finset.add_sum_erase _ _ (Finset.mem_univ i),
    Function.update_self]
  have hrest : ∑ j ∈ Finset.univ.erase i, ((Function.update phase i p j).waitingTokens : ℤ) =
      ∑ j ∈ Finset.univ.erase i, ((phase j).waitingTokens : ℤ) := by
    apply Finset.sum_congr rfl
    intro j hj
    rw [Function.update_of_ne (Finset.ne_of_mem_erase hj)]
  rw [hrest]
  omega

theorem inv_requeue {s : State ι} {live : List Group} (hi : Inv s live) (i : ι) (p : Phase) :
    Inv { s with
      enqueuedSizeTokens := s.enqueuedSizeTokens - (s.phase i).waitingTokens + p.waitingTokens
      phase := Function.update s.phase i p } live :=
  { hi with enqueued := by rw [sum_waitingTokens_update, hi.enqueued] }

omit [DecidableEq ι] [Fintype ι] in
theorem mem_newHandles {s : State ι} {descriptors : List ℕ} {h : ℕ}
    (hh : h ∈ s.newHandles descriptors) :
    s.handleCounter ≤ h ∧ h < s.handleCounter + (s.newHandles descriptors).length := by
  have hlen : (s.newHandles descriptors).length = descriptors.length := by simp [State.newHandles]
  obtain ⟨k, hk, rfl⟩ := List.mem_map.mp hh
  rw [List.mem_range] at hk
  omega

omit [DecidableEq ι] [Fintype ι] in
theorem newHandles_nodup (s : State ι) (descriptors : List ℕ) :
    (s.newHandles descriptors).Nodup :=
  List.nodup_range.map fun _ _ h => Nat.add_left_cancel h

theorem inv_scheduleAlloc {s : State ι} {live : List Group} (hi : Inv s live) {i : ι}
    {descriptors : List ℕ} (hw : s.phase i = .waiting descriptors) :
    Inv (scheduleAlloc s i descriptors)
      (live ++ [⟨s.newHandles descriptors, allocationSizeTokens descriptors⟩]) := by
  have hlive : liveHandles (live ++ [⟨s.newHandles descriptors, allocationSizeTokens descriptors⟩])
      = liveHandles live ++ s.newHandles descriptors := by simp [liveHandles]
  have hfresh : ∀ h ∈ s.newHandles descriptors, h ∉ liveHandles live := by
    intro h hh hlive
    have := hi.below h hlive
    have := (mem_newHandles hh).1
    omega
  -- a handle that was dead before stays dead
  have hdead : ∀ h, h < s.handleCounter → h ∉ liveHandles live →
      h ∉ liveHandles live ++ s.newHandles descriptors := by
    intro h hlt hd hin
    rcases List.mem_append.mp hin with hin | hin
    · exact hd hin
    · have := (mem_newHandles hin).1
      omega
  exact
    { current := by simp [scheduleAlloc, hi.current]
      enqueued := by
        change _ = ∑ j, ((Function.update s.phase i _ j).waitingTokens : ℤ)
        rw [sum_waitingTokens_update, ← hi.enqueued, hw]
        simp [Phase.waitingTokens, scheduleAlloc]
      records := records_append hi.records _ hfresh
      nodup := by
        rw [hlive]
        exact hi.nodup.append (newHandles_nodup s descriptors) fun h h1 h2 => hfresh h h2 h1
      below := by
        intro h hh
        rw [hlive] at hh
        rcases List.mem_append.mp hh with hh | hh
        · exact Nat.lt_add_right _ (hi.below h hh)
        · exact (mem_newHandles hh).2
      runtime := by
        change (s.pipe ++ [_]).foldl processMessage s.allocatedTensors = _
        rw [hlive, List.toFinset_append, List.foldl_append, hi.runtime]
        rfl
      returned_nodup := hi.returned_nodup
      returned_dead := by
        intro g hg
        obtain ⟨h, hh, hlt, hd⟩ := hi.returned_dead g hg
        exact ⟨h, hh, Nat.lt_add_right _ hlt, hlive ▸ hdead h hlt hd⟩
      deleted_nodup := hi.deleted_nodup
      deleted_dead := by
        intro h hh
        obtain ⟨hlt, hd⟩ := hi.deleted_dead h hh
        exact ⟨Nat.lt_add_right _ hlt, hlive ▸ hdead h hlt hd⟩ }

theorem inv_step {s s' : State ι} {live : List Group} {e : Event ι} (hi : Inv s live)
    (hs : step s e = some s') : Inv s' (liveStep s live e) := by
  cases e with
  | enqueue i descriptors =>
    cases hph : s.phase i with
    | idle =>
      simp only [step, hph, Option.some.injEq] at hs
      subst hs
      simpa [liveStep, hph, Phase.waitingTokens] using inv_requeue hi i (.waiting descriptors)
    | waiting _ => simp [step, hph] at hs
    | holding _ => simp [step, hph] at hs
  | succeed i =>
    cases hph : s.phase i with
    | idle => simp [step, hph] at hs
    | waiting descriptors =>
      simp only [step, hph, Option.some.injEq] at hs
      subst hs
      simpa only [liveStep, hph] using inv_scheduleAlloc hi hph
    | holding _ => simp [step, hph] at hs
  | fail i =>
    cases hph : s.phase i with
    | idle => simp [step, hph] at hs
    | waiting descriptors =>
      simp only [step, hph, Option.some.injEq] at hs
      subst hs
      simpa [liveStep, hph, Phase.waitingTokens] using inv_requeue hi i .idle
    | holding _ => simp [step, hph] at hs
  | free i =>
    cases hph : s.phase i with
    | idle => simp [step, hph] at hs
    | waiting _ => simp [step, hph] at hs
    | holding handles =>
      simp only [step, hph, Option.some.injEq] at hs
      subst hs
      have hfree := inv_requeue (inv_forceFree true hi handles) i .idle
      simpa [liveStep, hph, forceFree, State.release, Phase.waitingTokens] using hfree
  | forceFree handles =>
    cases hs
    exact inv_forceFree false hi handles
  | receive =>
    cases hp : s.pipe with
    | nil => simp [step, hp] at hs
    | cons m pipe =>
      simp only [step, hp, Option.some.injEq] at hs
      subst hs
      have := hi.runtime
      rw [hp, List.foldl_cons] at this
      exact { hi with runtime := this }

theorem inv_of_reaches {s : State ι} {live : List Group} (h : Reaches s live) : Inv s live := by
  induction h with
  | init => exact inv_init
  | step _ hs ih => exact inv_step ih hs

/-- In every reachable state of one handler process. -/
theorem reaches_accounting {s : State ι} {live : List Group} (h : Reaches s live) :
    s.currentSizeTokens = (live.map Group.tokens).sum ∧
    s.enqueuedSizeTokens = ∑ i, ((s.phase i).waitingTokens : ℤ) ∧
    (∀ h, h ∈ s.handleToAllocation ↔ h ∈ liveHandles live) ∧
    s.deletedLive.Nodup ∧ s.returned.Nodup ∧
    (s.pipe = [] → s.allocatedTensors = (liveHandles live).toFinset) := by
  have hi := inv_of_reaches h
  refine ⟨hi.current, hi.enqueued, ?_, hi.deleted_nodup, hi.returned_nodup, ?_⟩
  · intro h
    rw [← not_iff_not, ← AList.lookup_eq_none, lookup_eq_none_iff hi.records]
  · intro hp
    have := hi.runtime
    rwa [hp] at this

/-- Two groups, a third request that times out, an early free of repeated, foreign and unknown
handles, and the free at the end of the group that is gone. -/
theorem reaches_accounting_freed_early :
    ∃ (s : State (Fin 3)) (live : List Group), Reaches s live ∧
      live = [⟨[2], 4⟩] ∧ s.returned = [[0, 1]] ∧ s.deletedLive = [0, 1] ∧ s.pipe = [] ∧
      s.currentSizeTokens = (live.map Group.tokens).sum ∧
      s.enqueuedSizeTokens = ∑ i, ((s.phase i).waitingTokens : ℤ) ∧
      (∀ h, h ∈ s.handleToAllocation ↔ h ∈ liveHandles live) ∧
      s.deletedLive.Nodup ∧ s.returned.Nodup ∧
      (s.pipe = [] → s.allocatedTensors = (liveHandles live).toFinset) := by
  have h0 : Reaches (State.init : State (Fin 3)) [] := .init
  have h1 := h0.step (e := .enqueue 0 [3, 5]) rfl
  have h2 := (h1.step (e := .enqueue 1 [4]) rfl).step (e := .enqueue 2 [9]) rfl
  have h3 := (h2.step (e := .succeed 0) rfl).step (e := .succeed 1) rfl
  have h4 := (h3.step (e := .receive) rfl).step (e := .fail 2) rfl
  have h5 := (h4.step (e := .forceFree [1, 1, 7, 0]) rfl).step (e := .free 0) rfl
  have h6 := (h5.step (e := .receive) rfl).step (e := .receive) rfl
  exact ⟨_, _, h6, rfl, rfl, rfl, rfl, reaches_accounting h6⟩

end BloomBee.CacheHandles

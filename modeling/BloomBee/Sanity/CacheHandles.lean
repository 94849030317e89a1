import BloomBee.Spec.CacheHandles
import Mathlib.Algebra.BigOperators.Group.List.Basic
import Mathlib.Algebra.Ring.Nat
import Mathlib.Data.List.Flatten
import Mathlib.Data.List.Nodup

/-! What the loops of `force_free` do to dictionaries that record a list of disjoint live
groups (`foldl_freeGroup`, `groupsOf_hit`). -/

set_option autoImplicit false

namespace BloomBee.CacheHandles

/-! ### The dictionary of handles -/

theorem eraseAll_lookup (group : List ℕ) (table : AList fun _ : ℕ => List ℕ) (h : ℕ) :
    (eraseAll table group).lookup h = if h ∈ group then none else table.lookup h := by
  induction group generalizing table with
  | nil => simp [eraseAll]
  | cons a group ih =>
    rw [eraseAll, List.foldl_cons]
    change (eraseAll (table.erase a) group).lookup h = _
    rw [ih]
    by_cases hg : h ∈ group
    · rw [if_pos hg, if_pos (List.mem_cons_of_mem _ hg)]
    · rw [if_neg hg]
      by_cases ha : h = a
      · subst ha
        rw [AList.lookup_erase, if_pos List.mem_cons_self]
      · rw [AList.lookup_erase_ne ha, if_neg (by simp [ha, hg])]

theorem register_lookup (table : AList fun _ : ℕ => List ℕ) (handles : List ℕ) (h : ℕ) :
    (register table handles).lookup h =
      if h ∈ handles then some handles else table.lookup h := by
  -- the handles registered so far, all with the whole group
  have key : ∀ (l : List ℕ) (t : AList fun _ : ℕ => List ℕ),
      (l.foldl (fun t h => t.insert h handles) t).lookup h =
        if h ∈ l then some handles else t.lookup h := by
    intro l
    induction l with
    | nil => intro t; simp
    | cons a l ih =>
      intro t
      rw [List.foldl_cons, ih]
      by_cases hl : h ∈ l
      · rw [if_pos hl, if_pos (List.mem_cons_of_mem _ hl)]
      · rw [if_neg hl]
        by_cases ha : h = a
        · subst ha
          rw [AList.lookup_insert, if_pos List.mem_cons_self]
        · rw [AList.lookup_insert_ne ha, if_neg (by simp [ha, hl])]
  exact key handles table

/-! ### Live groups -/

/-- The dictionaries have the live groups. The group of an allocation without descriptors has
no handles and is left out. -/
structure Records (allocationTokens : AList fun _ : List ℕ => ℕ)
    (handleToAllocation : AList fun _ : ℕ => List ℕ) (live : List Group) : Prop where
  tokens : ∀ g t, g ≠ [] → (allocationTokens.lookup g = some t ↔ ⟨g, t⟩ ∈ live)
  group : ∀ h g, handleToAllocation.lookup h = some g ↔ h ∈ g ∧ ∃ t, ⟨g, t⟩ ∈ live

def liveHandles (live : List Group) : List ℕ := live.flatMap Group.handles

theorem mem_liveHandles {live : List Group} {h : ℕ} :
    h ∈ liveHandles live ↔ ∃ g ∈ live, h ∈ g.handles := List.mem_flatMap

theorem liveHandles_cons (g : Group) (live : List Group) :
    liveHandles (g :: live) = g.handles ++ liveHandles live := rfl

theorem liveHandles_sublist {live live' : List Group} (h : live'.Sublist live) :
    (liveHandles live').Sublist (liveHandles live) := h.flatMap _

theorem group_unique {live : List Group} (hnd : (liveHandles live).Nodup) {g g' : Group} {h : ℕ}
    (hg : g ∈ live) (hg' : g' ∈ live) (hh : h ∈ g.handles) (hh' : h ∈ g'.handles) : g = g' := by
  induction live with
  | nil => cases hg
  | cons a live ih =>
    rw [liveHandles_cons, List.nodup_append] at hnd
    obtain ⟨-, hnd, hdisj⟩ := hnd
    rcases List.mem_cons.mp hg with rfl | hl
    · rcases List.mem_cons.mp hg' with rfl | hl'
      · rfl
      · exact absurd rfl (hdisj h hh h (mem_liveHandles.mpr ⟨g', hl', hh'⟩))
    · rcases List.mem_cons.mp hg' with rfl | hl'
      · exact absurd rfl (hdisj h hh' h (mem_liveHandles.mpr ⟨g, hl, hh⟩))
      · exact ih hnd hl hl'

theorem records_append {allocationTokens : AList fun _ : List ℕ => ℕ}
    {handleToAllocation : AList fun _ : ℕ => List ℕ} {live : List Group}
    (hr : Records allocationTokens handleToAllocation live) {new : List ℕ} (tokens : ℕ)
    (hfresh : ∀ h ∈ new, h ∉ liveHandles live) :
    Records (allocationTokens.insert new tokens) (register handleToAllocation new)
      (live ++ [⟨new, tokens⟩]) where
  tokens g t hne := by
    by_cases hg : g = new
    · subst hg
      obtain ⟨h, hh⟩ := List.exists_mem_of_ne_nil _ hne
      have hnot : (⟨g, t⟩ : Group) ∉ live := fun hin =>
        hfresh h hh (mem_liveHandles.mpr ⟨_, hin, hh⟩)
      simp [AList.lookup_insert, hnot, eq_comm]
    · rw [AList.lookup_insert_ne hg, hr.tokens g t hne]
      simp [hg]
  group h g := by
    rw [register_lookup]
    split
    · next hh =>
      constructor
      · rintro ⟨⟩
        exact ⟨hh, _, List.mem_append_right _ (List.mem_singleton_self _)⟩
      · rintro ⟨hg, t, ht⟩
        rcases List.mem_append.mp ht with ht | ht
        · exact absurd (mem_liveHandles.mpr ⟨_, ht, hg⟩) (hfresh h hh)
        · rw [List.mem_singleton, Group.mk.injEq] at ht
          rw [ht.1]
    · next hh =>
      rw [hr.group]
      constructor
      · rintro ⟨hg, t, ht⟩
        exact ⟨hg, t, List.mem_append_left _ ht⟩
      · rintro ⟨hg, t, ht⟩
        rcases List.mem_append.mp ht with ht | ht
        · exact ⟨hg, t, ht⟩
        · rw [List.mem_singleton, Group.mk.injEq] at ht
          exact absurd (ht.1 ▸ hg) hh

theorem tokens_filter_ne {live : List Group} (hnd : (liveHandles live).Nodup) {g : Group}
    (hg : g ∈ live) (hne : g.handles ≠ []) :
    g.tokens + ((live.filter (·.handles ≠ g.handles)).map Group.tokens).sum =
      (live.map Group.tokens).sum := by
  induction live with
  | nil => cases hg
  | cons a live ih =>
    obtain ⟨h, hh⟩ := List.exists_mem_of_ne_nil _ hne
    have hnd' := hnd
    rw [liveHandles_cons, List.nodup_append] at hnd
    obtain ⟨-, hnd, hdisj⟩ := hnd
    by_cases ha : a.handles = g.handles
    · -- no other group has this handle
      have hag : a = g :=
        group_unique hnd' List.mem_cons_self hg (ha ▸ hh) hh
      have hrest : live.filter (·.handles ≠ g.handles) = live := by
        rw [List.filter_eq_self]
        intro b hb
        have : b.handles ≠ g.handles := by
          intro hbg
          exact hdisj h (ha ▸ hh) h (mem_liveHandles.mpr ⟨b, hb, hbg ▸ hh⟩) rfl
        simpa using this
      rw [List.filter_cons_of_neg (by simpa using ha), hrest, hag, List.map_cons, List.sum_cons]
    · have hg' : g ∈ live := by
        rcases List.mem_cons.mp hg with rfl | hg
        · exact absurd rfl ha
        · exact hg
      have := ih hnd hg'
      rw [List.filter_cons_of_pos (by simpa using ha), List.map_cons, List.sum_cons, List.map_cons,
        List.sum_cons]
      omega

/-! ### The loops of `force_free` -/

theorem nodup_addNew {groups : List (List ℕ)} (hnd : groups.Nodup) (g : List ℕ) :
    (if g ∈ groups then groups else groups ++ [g]).Nodup := by
  split
  · exact hnd
  · next hg => exact hnd.append (List.nodup_singleton g) (by simpa using hg)

theorem mem_addNew {groups : List (List ℕ)} {g g' : List ℕ} :
    g' ∈ (if g ∈ groups then groups else groups ++ [g]) ↔ g' ∈ groups ∨ g' = g := by
  split
  · next hg =>
    constructor
    · exact Or.inl
    · rintro (h | rfl)
      · exact h
      · exact hg
  · simp

theorem groupsOf_nodup (table : AList fun _ : ℕ => List ℕ) (onlyKnown : Bool) (hs : List ℕ) :
    ∀ groups : List (List ℕ), groups.Nodup → (groupsOf table onlyKnown groups hs).Nodup := by
  induction hs with
  | nil => intro groups hnd; exact hnd
  | cons h hs ih =>
    intro groups hnd
    rw [groupsOf]
    split
    · exact ih _ (nodup_addNew hnd _)
    · split
      · exact ih _ hnd
      · exact ih _ (nodup_addNew hnd _)

/-- The groups of the first loop: those of known handles, and unknown handles alone. -/
theorem mem_groupsOf (table : AList fun _ : ℕ => List ℕ) (onlyKnown : Bool) (hs : List ℕ)
    (g : List ℕ) :
    ∀ groups : List (List ℕ), g ∈ groupsOf table onlyKnown groups hs ↔
      g ∈ groups ∨ ∃ h ∈ hs, table.lookup h = some g ∨
        (onlyKnown = false ∧ table.lookup h = none ∧ g = [h]) := by
  induction hs with
  | nil => intro groups; simp [groupsOf]
  | cons h hs ih =>
    intro groups
    rw [groupsOf]
    cases hl : table.lookup h with
    | some g' =>
      simp only [ih, mem_addNew, List.exists_mem_cons_iff, hl, Option.some.injEq, reduceCtorEq,
        false_and, and_false, or_false]
      rw [or_assoc, eq_comm (a := g)]
    | none =>
      cases onlyKnown with
      | true =>
        simp only [if_true, ih, List.exists_mem_cons_iff, hl, reduceCtorEq, false_and, or_false,
          false_or, Bool.true_eq_false]
      | false =>
        simp only [Bool.false_eq_true, if_false, ih, mem_addNew, List.exists_mem_cons_iff, hl,
          reduceCtorEq, false_or, true_and]
        rw [or_assoc]

/-- A live group is among the groups of the first loop when one of its handles is freed. -/
theorem groupsOf_hit {allocationTokens : AList fun _ : List ℕ => ℕ}
    {handleToAllocation : AList fun _ : ℕ => List ℕ} {live : List Group}
    (hr : Records allocationTokens handleToAllocation live) (onlyKnown : Bool) (hs : List ℕ)
    {g : Group} (hg : g ∈ live) :
    g.handles ∈ groupsOf handleToAllocation onlyKnown [] hs ↔ ∃ h ∈ g.handles, h ∈ hs := by
  rw [mem_groupsOf]
  constructor
  · rintro (h | ⟨h, hh, hl | ⟨-, hl, hgh⟩⟩)
    · cases h
    · exact ⟨h, ((hr.group h _).mp hl).1, hh⟩
    · have hin : h ∈ g.handles := by rw [hgh]; exact List.mem_singleton_self h
      cases hl.symm.trans ((hr.group h g.handles).mpr ⟨hin, g.tokens, hg⟩)
  · rintro ⟨h, hin, hh⟩
    exact Or.inr ⟨h, hh, Or.inl ((hr.group h g.handles).mpr ⟨hin, g.tokens, hg⟩)⟩

theorem freeGroup_live (onlyKnown : Bool) {f : Freed} {live : List Group}
    (hr : Records f.allocationTokens f.handleToAllocation live) (hnd : (liveHandles live).Nodup)
    {g : Group} (hg : g ∈ live) (hne : g.handles ≠ []) :
    Records (freeGroup onlyKnown f g.handles).allocationTokens
      (freeGroup onlyKnown f g.handles).handleToAllocation
      (live.filter (·.handles ≠ g.handles)) ∧
    (freeGroup onlyKnown f g.handles).tokensToFree = f.tokensToFree + g.tokens ∧
    (freeGroup onlyKnown f g.handles).handlesToFree = f.handlesToFree ++ g.handles ∧
    (freeGroup onlyKnown f g.handles).returned = f.returned ++ [g.handles] := by
  have hl : f.allocationTokens.lookup g.handles = some g.tokens := (hr.tokens _ _ hne).mpr hg
  simp only [freeGroup, hl, and_true]
  constructor
  · intro g' t hne'
    by_cases hgg : g' = g.handles
    · subst hgg
      simp [AList.lookup_erase]
    · rw [AList.lookup_erase_ne hgg, hr.tokens g' t hne', List.mem_filter]
      simp [hgg]
  · intro h g'
    rw [eraseAll_lookup]
    by_cases hh : h ∈ g.handles
    · -- the group of `h` is gone
      simp only [if_pos hh, reduceCtorEq, false_iff]
      rintro ⟨hh', t, ht⟩
      rw [List.mem_filter] at ht
      have : g = ⟨g', t⟩ := group_unique hnd hg ht.1 hh hh'
      simp [this] at ht
    · rw [if_neg hh, hr.group]
      simp only [List.mem_filter, decide_eq_true_eq]
      constructor
      · rintro ⟨hh', t, ht⟩
        exact ⟨hh', t, ht, fun he => hh (he ▸ hh')⟩
      · rintro ⟨hh', t, ht, -⟩
        exact ⟨hh', t, ht⟩

/-- A group the second loop can meet: a live one, or a handle that belongs to none. -/
def Freeable (onlyKnown : Bool) (live : List Group) (g : List ℕ) : Prop :=
  (g ≠ [] ∧ ∃ t, ⟨g, t⟩ ∈ live) ∨
    (onlyKnown = false ∧ ∃ h, g = [h] ∧ h ∉ liveHandles live)

theorem not_live_of_unknown {live : List Group} {h : ℕ} (hh : h ∉ liveHandles live) {g : Group}
    (hg : g ∈ live) : g.handles ≠ [h] := by
  intro he
  exact hh (mem_liveHandles.mpr ⟨g, hg, by rw [he]; exact List.mem_singleton_self h⟩)

theorem freeGroup_unknown {f : Freed} {live : List Group}
    (hr : Records f.allocationTokens f.handleToAllocation live) {h : ℕ}
    (hh : h ∉ liveHandles live) :
    Records (freeGroup false f [h]).allocationTokens (freeGroup false f [h]).handleToAllocation
      live ∧
    (freeGroup false f [h]).tokensToFree = f.tokensToFree ∧
    (freeGroup false f [h]).handlesToFree = f.handlesToFree ++ [h] ∧
    (freeGroup false f [h]).returned = f.returned := by
  have hl : f.allocationTokens.lookup [h] = none := by
    rw [Option.eq_none_iff_forall_ne_some]
    intro t ht
    exact not_live_of_unknown hh ((hr.tokens _ _ (by simp)).mp ht) rfl
  simp only [freeGroup, hl, Bool.false_eq_true, if_false, and_self, and_true]
  refine ⟨hr.tokens, ?_⟩
  intro h' g
  rw [eraseAll_lookup]
  by_cases he : h' ∈ [h]
  · rw [List.mem_singleton] at he
    subst he
    simp only [List.mem_singleton_self, if_true, reduceCtorEq, false_iff]
    rintro ⟨hin, t, ht⟩
    exact hh (mem_liveHandles.mpr ⟨⟨g, t⟩, ht, hin⟩)
  · rw [if_neg he, hr.group]

/-- The second loop over groups that are live or unknown: the live ones are dropped, their
tokens add up, and the handles of all of them are collected. -/
theorem foldl_freeGroup {onlyKnown : Bool} (gs : List (List ℕ)) :
    ∀ (f : Freed) (live : List Group), Records f.allocationTokens f.handleToAllocation live →
      (liveHandles live).Nodup → gs.Nodup → (∀ g ∈ gs, Freeable onlyKnown live g) →
      Records (gs.foldl (freeGroup onlyKnown) f).allocationTokens
        (gs.foldl (freeGroup onlyKnown) f).handleToAllocation
        (live.filter (·.handles ∉ gs)) ∧
      (gs.foldl (freeGroup onlyKnown) f).tokensToFree +
        ((live.filter (·.handles ∉ gs)).map Group.tokens).sum =
          f.tokensToFree + (live.map Group.tokens).sum ∧
      (gs.foldl (freeGroup onlyKnown) f).handlesToFree = f.handlesToFree ++ gs.flatten ∧
      (gs.foldl (freeGroup onlyKnown) f).returned =
        f.returned ++ gs.filter (· ∈ live.map Group.handles) := by
  induction gs with
  | nil => intro f live hr _ _ _; simpa using hr
  | cons g gs ih =>
    intro f live hr hnd hcons hfree
    obtain ⟨hg, hgs⟩ := List.nodup_cons.mp hcons
    rw [List.foldl_cons]
    rcases hfree g List.mem_cons_self with ⟨hne, t, ht⟩ | ⟨rfl, h, rfl, hh⟩
    · obtain ⟨hr1, htok, hhan, hret⟩ := freeGroup_live onlyKnown hr hnd ht hne
      have hnd1 : (liveHandles (live.filter (·.handles ≠ g))).Nodup :=
        hnd.sublist (liveHandles_sublist List.filter_sublist)
      have hmem : ∀ g' ∈ gs, ∀ t, (⟨g', t⟩ : Group) ∈ live →
          (⟨g', t⟩ : Group) ∈ live.filter (·.handles ≠ g) := by
        intro g' hg' t ht
        rw [List.mem_filter]
        refine ⟨ht, ?_⟩
        have : g' ≠ g := by rintro rfl; exact hg hg'
        simpa using this
      have hfree1 : ∀ g' ∈ gs, Freeable onlyKnown (live.filter (·.handles ≠ g)) g' := by
        intro g' hg'
        rcases hfree g' (List.mem_cons_of_mem _ hg') with ⟨hne', t', ht'⟩ | ⟨hk, h, rfl, hh⟩
        · exact Or.inl ⟨hne', t', hmem g' hg' t' ht'⟩
        · exact Or.inr ⟨hk, h, rfl, fun hin =>
            hh ((liveHandles_sublist List.filter_sublist).subset hin)⟩
      obtain ⟨hr2, htok2, hhan2, hret2⟩ := ih _ _ hr1 hnd1 hgs hfree1
      have hfilter : (live.filter (·.handles ≠ g)).filter (·.handles ∉ gs) =
          live.filter (·.handles ∉ g :: gs) := by
        rw [List.filter_filter]
        congr 1
        funext a
        simp [Bool.and_comm]
      have hsum := tokens_filter_ne hnd ht hne
      rw [hfilter] at hr2 htok2
      refine ⟨hr2, ?_, ?_, ?_⟩
      · rw [htok2, htok]
        omega
      · rw [hhan2, hhan, List.flatten_cons, List.append_assoc]
      · have hlive : g ∈ live.map Group.handles := List.mem_map.mpr ⟨_, ht, rfl⟩
        rw [hret2, hret, List.filter_cons_of_pos (by simpa using hlive), List.append_assoc,
          List.singleton_append]
        congr 2
        apply List.filter_congr
        intro g' hg'
        have hiff : g' ∈ (live.filter (·.handles ≠ g)).map Group.handles ↔
            g' ∈ live.map Group.handles := by
          constructor
          · intro h
            exact (List.filter_sublist.map Group.handles).subset h
          · intro h
            obtain ⟨a, ha, rfl⟩ := List.mem_map.mp h
            exact List.mem_map.mpr ⟨a, hmem _ hg' a.tokens ha, rfl⟩
        simp only [hiff]
    · obtain ⟨hr1, htok, hhan, hret⟩ := freeGroup_unknown hr hh
      obtain ⟨hr2, htok2, hhan2, hret2⟩ := ih _ live hr1 hnd hgs
        fun g' hg' => hfree g' (List.mem_cons_of_mem _ hg')
      have hfilter : live.filter (·.handles ∉ gs) = live.filter (·.handles ∉ [h] :: gs) := by
        apply List.filter_congr
        intro a ha
        simp [not_live_of_unknown hh ha]
      have hnot : [h] ∉ live.map Group.handles := by
        intro hin
        obtain ⟨a, ha, hah⟩ := List.mem_map.mp hin
        exact not_live_of_unknown hh ha hah
      rw [hfilter] at hr2 htok2
      refine ⟨hr2, by rw [htok2, htok], ?_, ?_⟩
      · rw [hhan2, hhan, List.flatten_cons, List.append_assoc]
      · rw [hret2, hret, List.filter_cons_of_neg (by simpa using hnot)]

end BloomBee.CacheHandles

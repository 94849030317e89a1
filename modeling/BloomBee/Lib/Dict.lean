import Mathlib.Algebra.BigOperators.Group.Finset.Basic
import Mathlib.Data.List.AList

/-! Dictionaries whose values hold lists. `collect f m` concatenates the list `f` reads in
every value of `m`; updating one key moves only that key's list. -/

namespace Dict

variable {κ ν γ : Type*}

/-- The lists `f` reads in the values of `m`, one after the other. -/
def collect (f : ν → List γ) (m : AList fun _ : κ => ν) : List γ :=
  m.entries.flatMap fun e => f e.2

@[simp] theorem collect_empty (f : ν → List γ) :
    collect f (∅ : AList fun _ : κ => ν) = [] := rfl

variable [DecidableEq κ]

theorem entries_perm_cons_erase {m : AList fun _ : κ => ν} {a : κ} {b : ν}
    (h : m.lookup a = some b) : m.entries.Perm (⟨a, b⟩ :: (m.erase a).entries) := by
  have hm : a ∈ m.keys := AList.mem_keys.mp (AList.lookup_isSome.mp (by simp [h]))
  obtain ⟨b', l₁, l₂, hl₁, hm', he⟩ := List.exists_of_kerase hm
  have hb : b' = b := by
    have hmem : (⟨a, b'⟩ : Sigma fun _ : κ => ν) ∈ m.entries := by rw [hm']; simp
    have hlook : m.lookup a = some b' := List.mem_dlookup m.nodupKeys hmem
    rw [h] at hlook
    exact (Option.some.inj hlook).symm
  subst hb
  rw [show (m.erase a).entries = l₁ ++ l₂ from he]
  conv_lhs => rw [hm']
  exact List.perm_middle

/-- Reading the list of one key apart from all the others. -/
theorem collect_perm_erase (f : ν → List γ) {m : AList fun _ : κ => ν} {a : κ} {b : ν}
    (h : m.lookup a = some b) : (collect f m).Perm (f b ++ collect f (m.erase a)) := by
  have hp := (entries_perm_cons_erase h).flatMap_right fun e => f e.2
  simpa [collect] using hp

theorem collect_insert (f : ν → List γ) (m : AList fun _ : κ => ν) (a : κ) (b : ν) :
    collect f (m.insert a b) = f b ++ collect f (m.erase a) := by
  rw [collect, AList.entries_insert, List.flatMap_cons]
  rfl

theorem collect_erase_of_notMem (f : ν → List γ) {m : AList fun _ : κ => ν} {a : κ}
    (h : a ∉ m) : collect f (m.erase a) = collect f m := by
  have he : (m.erase a).entries = m.entries :=
    List.kerase_of_notMem_keys fun hk => h (AList.mem_keys.mpr hk)
  simp [collect, he]

theorem keys_insert_toFinset (m : AList fun _ : κ => ν) (a : κ) (b : ν) :
    (m.insert a b).keys.toFinset = insert a m.keys.toFinset := by
  ext c
  simp only [List.mem_toFinset, Finset.mem_insert, ← AList.mem_keys, AList.mem_insert]

/-- A value stored under another key is still there after an update. -/
theorem lookup_insert_eq {m : AList fun _ : κ => ν} (a a' : κ) (b : ν) :
    (m.insert a b).lookup a' = if a' = a then some b else m.lookup a' := by
  split_ifs with h
  · subst h; simp
  · exact AList.lookup_insert_ne h

/-- What one key's list holds is held by the whole dictionary. -/
theorem subset_collect (f : ν → List γ) {m : AList fun _ : κ => ν} {a : κ} {b : ν}
    (h : m.lookup a = some b) : f b ⊆ collect f m := by
  intro x hx
  exact (collect_perm_erase f h).mem_iff.mpr (List.mem_append_left _ hx)

/-- Lists stored under two keys share nothing when the whole collection has no repeats. -/
theorem disjoint_of_nodup (f : ν → List γ) {m : AList fun _ : κ => ν} {a a' : κ} {b b' : ν}
    (hn : (collect f m).Nodup) (ha : m.lookup a = some b) (ha' : m.lookup a' = some b')
    (hne : a' ≠ a) : List.Disjoint (f b) (f b') := by
  have hp := (collect_perm_erase f ha).nodup_iff.mp hn
  have hlook : (m.erase a).lookup a' = some b' := by
    rw [AList.lookup_erase_ne hne, ha']
  intro x hx hx'
  exact (List.nodup_append.mp hp).2.2 x hx x (subset_collect f hlook hx') rfl

theorem length_collect (f : ν → List γ) (m : AList fun _ : κ => ν) :
    (collect f m).length =
      ∑ a ∈ m.keys.toFinset, (m.lookup a).elim 0 fun b => (f b).length := by
  rw [List.sum_toFinset _ m.keys_nodup, collect, List.length_flatMap, AList.keys, List.keys,
    List.map_map]
  congr 1
  apply List.map_congr_left
  intro e he
  have hl : m.lookup e.1 = some e.2 := List.mem_dlookup m.nodupKeys he
  rw [Function.comp_apply, hl, Option.elim_some]

/-- A fold over distinct keys whose steps update one key each updates these keys once. `look`
reads a key in a state, and `P` holds in every state of the fold. -/
theorem look_foldl {σ : Type*} (look : σ → κ → Option ν) {step : σ → κ → σ} {g : ν → ν}
    {P : σ → Prop} (hP : ∀ s a, P s → P (step s a))
    (hstep : ∀ s a, P s → ∀ a', look (step s a) a' =
      if a' = a then (look s a').map g else look s a') {as : List κ} (hn : as.Nodup) :
    ∀ {s : σ}, P s → ∀ a', look (as.foldl step s) a' =
      if a' ∈ as then (look s a').map g else look s a' := by
  induction as with
  | nil =>
    intro s hs a'
    rw [List.foldl_nil, if_neg List.not_mem_nil]
  | cons a as ih =>
    intro s hs a'
    obtain ⟨ha, hn'⟩ := List.nodup_cons.mp hn
    rw [List.foldl_cons, ih hn' (hP s a hs), hstep s a hs]
    by_cases heq : a' = a
    · subst heq
      rw [if_neg ha, if_pos rfl, if_pos List.mem_cons_self]
    · rw [if_neg heq]
      simp only [List.mem_cons, heq, false_or]

end Dict

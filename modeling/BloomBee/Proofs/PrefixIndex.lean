import Mathlib.Algebra.BigOperators.Group.List.Basic
import Mathlib.Algebra.Order.Ring.Int
import Mathlib.Data.List.Induction
import BloomBee.Lib.Fallible
import BloomBee.Spec.PrefixIndex

/-! The prefix index over any run: its size is kept, what was not used for the longest is
evicted first, and a request is only ever given the cache of a true prefix of its tokens. First what
one operation does: the size is that of what is stored, the entries stand in the order of their last
use, and a lookup finds the longest prefix it may. -/

set_option autoImplicit false

namespace BloomBee.PrefixIndex

open Fallible
open Recency (LeastRecentFirst)

variable {κ H V : Type}

def totalTokens (es : List (κ × KVPrefixIndexEntry κ H V)) : ℤ :=
  (es.map fun e => e.2.prefixLength).sum

structure Stored (hash : List ℤ → κ) (e : κ × KVPrefixIndexEntry κ H V) : Prop where
  key : e.1 = hash e.2.tokenPrefix
  tokenSha256 : e.2.tokenSha256 = e.1
  prefixLength : e.2.prefixLength = e.2.tokenPrefix.length
  pos : 0 < e.2.tokenPrefix.length

/-- A prefix of the query that `lookup` may return. -/
def Matches (query : List ℤ) (minPrefixLength : ℤ) (entry : KVPrefixIndexEntry κ H V) : Prop :=
  entry.tokenPrefix <+: query ∧ minPrefixLength ≤ entry.tokenPrefix.length

variable {hash : List ℤ → κ} {maxSizeTokens : Option ℕ} {index index' : KVPrefixIndex κ H V} {uses : List (Option κ)}

@[simp] theorem totalTokens_nil : totalTokens ([] : List (κ × KVPrefixIndexEntry κ H V)) = 0 := rfl

@[simp] theorem totalTokens_cons (e : κ × KVPrefixIndexEntry κ H V)
    (es : List (κ × KVPrefixIndexEntry κ H V)) :
    totalTokens (e :: es) = e.2.prefixLength + totalTokens es := List.sum_cons

@[simp] theorem totalTokens_append (es fs : List (κ × KVPrefixIndexEntry κ H V)) :
    totalTokens (es ++ fs) = totalTokens es + totalTokens fs := by
  unfold totalTokens
  rw [List.map_append, List.sum_append]

theorem totalTokens_perm {es fs : List (κ × KVPrefixIndexEntry κ H V)} (h : es.Perm fs) :
    totalTokens es = totalTokens fs := (h.map _).sum_eq

theorem Stored.prefixLength_pos {e : κ × KVPrefixIndexEntry κ H V} (h : Stored hash e) :
    0 < e.2.prefixLength := by
  rw [h.prefixLength]
  exact Int.natCast_pos.mpr h.pos

/-! ### Eviction -/

/-- What is evicted comes first, and no more than has to be. -/
structure Evicts (index index' : KVPrefixIndex κ H V)
    (evicted : List (κ × KVPrefixIndexEntry κ H V)) : Prop where
  maxSizeTokens : index'.maxSizeTokens = index.maxSizeTokens
  entries : index.entries.entries = evicted ++ index'.entries.entries
  size : index'.currentSizeTokens = index.currentSizeTokens - totalTokens evicted
  enough : ∀ m ∈ index.maxSizeTokens, index'.currentSizeTokens ≤ m ∨ index'.entries.entries = []
  needed : ∀ before e after, evicted = before ++ e :: after → ∃ m ∈ index.maxSizeTokens,
    (m : ℤ) < index'.currentSizeTokens + totalTokens (e :: after)

theorem evicts_refl
    (h : ∀ m ∈ index.maxSizeTokens, index.currentSizeTokens ≤ m ∨ index.entries.entries = []) :
    Evicts index index [] := by
  refine ⟨rfl, rfl, (Int.sub_zero _).symm, h, fun before e after hnil => ?_⟩
  exact absurd hnil.symm (List.append_ne_nil_of_right_ne_nil before (List.cons_ne_nil e after))

theorem exists_evicts_evictLoop {m : ℕ} : ∀ (turns : ℕ) (index : KVPrefixIndex κ H V),
    index.maxSizeTokens = some m → index.entries.entries.length = turns →
    ∃ evicted, Evicts index (evictLoop m turns index) evicted := by
  intro turns
  induction turns with
  | zero =>
    intro index hm hlen
    exact ⟨[], evicts_refl fun _ _ => .inr (List.length_eq_zero_iff.mp hlen)⟩
  | succ turns ih =>
    intro index hm hlen
    unfold evictLoop
    by_cases hsize : (m : ℤ) < index.currentSizeTokens
    · rw [if_pos hsize]
      rcases hpop : index.entries.popFirst with - | ⟨⟨key, removed⟩, entries⟩
      · rw [OrderedDict.popFirst_eq_none hpop] at hlen
        cases hlen
      have hentries := OrderedDict.popFirst_eq_some hpop
      rw [hentries, List.length_cons] at hlen
      obtain ⟨evicted, hrest⟩ := ih
        { index with
          entries
          currentSizeTokens := index.currentSizeTokens - removed.prefixLength }
        hm (Nat.succ.inj hlen)
      dsimp only
      refine ⟨(key, removed) :: evicted, hrest.maxSizeTokens, ?_, ?_, hrest.enough, ?_⟩
      · rw [hentries, List.cons_append]
        exact congrArg _ hrest.entries
      · rw [hrest.size, totalTokens_cons, Int.sub_sub]
      · intro before e after hsplit
        rcases before with - | ⟨f, before⟩
        · obtain ⟨rfl, rfl⟩ := List.cons.inj hsplit
          refine ⟨m, hm, ?_⟩
          have hlast := hrest.size
          rw [totalTokens_cons]
          dsimp only at hlast ⊢
          omega
        · exact hrest.needed before e after (List.cons.inj hsplit).2
    · rw [if_neg hsize]
      refine ⟨[], evicts_refl fun m' hm' => .inl ?_⟩
      rw [hm] at hm'
      obtain rfl := Option.some.inj hm'
      exact Int.not_lt.mp hsize

/-- Where the size is that of the entries, it still is, and they fit. -/
theorem evictIfNeeded_spec {es : List (κ × KVPrefixIndexEntry κ H V)}
    (hes : index.entries.entries = es) (hsize : index.currentSizeTokens = totalTokens es) :
    (evictIfNeeded index).maxSizeTokens = index.maxSizeTokens ∧
      ∃ evicted, evicted ++ (evictIfNeeded index).entries.entries = es ∧
        (evictIfNeeded index).currentSizeTokens =
          totalTokens (evictIfNeeded index).entries.entries ∧
        (∀ m ∈ index.maxSizeTokens, (evictIfNeeded index).currentSizeTokens ≤ m) ∧
        ∀ before e after, evicted = before ++ e :: after → ∃ m ∈ index.maxSizeTokens,
          (m : ℤ) < totalTokens (e :: after ++ (evictIfNeeded index).entries.entries) := by
  obtain ⟨evicted, hevicts⟩ : ∃ evicted, Evicts index (evictIfNeeded index) evicted := by
    unfold evictIfNeeded
    rcases hm : index.maxSizeTokens with - | m
    · refine ⟨[], evicts_refl fun m h => ?_⟩
      rw [hm] at h
      cases h
    · exact exists_evicts_evictLoop _ index hm rfl
  have hall := hevicts.entries.symm.trans hes
  have htotal : (evictIfNeeded index).currentSizeTokens =
      totalTokens (evictIfNeeded index).entries.entries := by
    rw [hevicts.size, hsize, ← hall, totalTokens_append]
    omega
  refine ⟨hevicts.maxSizeTokens, evicted, hall, htotal, fun m hm => ?_,
    fun before e after hsplit => ?_⟩
  · rcases hevicts.enough m hm with hle | hnil
    · exact hle
    · rw [htotal, hnil]
      exact Int.natCast_nonneg m
  · obtain ⟨m, hm, hlt⟩ := hevicts.needed before e after hsplit
    refine ⟨m, hm, ?_⟩
    rw [totalTokens_append, ← htotal, Int.add_comm]
    exact hlt

/-! ### The invariant -/

variable [DecidableEq κ]

structure Valid (hash : List ℤ → κ) (limit : Option ℕ) (uses : List (Option κ))
    (index : KVPrefixIndex κ H V) : Prop where
  maxSizeTokens : index.maxSizeTokens = limit
  size : index.currentSizeTokens = totalTokens index.entries.entries
  le_max : ∀ m ∈ limit, index.currentSizeTokens ≤ m
  stored : ∀ e ∈ index.entries.entries, Stored hash e
  order : LeastRecentFirst uses index.entries.entries

theorem valid_new (hash : List ℤ → κ) (maxSizeTokens : Option ℕ) :
    Valid hash maxSizeTokens [] (KVPrefixIndex.new maxSizeTokens : KVPrefixIndex κ H V) where
  maxSizeTokens := rfl
  size := rfl
  le_max := fun m _ => Int.natCast_nonneg m
  stored := fun _ he => absurd he List.not_mem_nil
  order := List.Pairwise.nil

theorem Valid.skip (h : Valid hash maxSizeTokens uses index) : Valid hash maxSizeTokens (none :: uses) index :=
  ⟨h.maxSizeTokens, h.size, h.le_max, h.stored, h.order.skip⟩

theorem popKey_spec (key : κ) (index : KVPrefixIndex κ H V) :
    (popKey key index).2.maxSizeTokens = index.maxSizeTokens ∧
      (popKey key index).2.entries.entries = (index.entries.erase key).entries ∧
      (index.currentSizeTokens = totalTokens index.entries.entries →
        (popKey key index).2.currentSizeTokens = totalTokens (index.entries.erase key).entries) := by
  unfold popKey
  rcases hget : index.entries.get? key with - | previous
  · dsimp only
    rw [OrderedDict.erase_of_get?_eq_none hget]
    exact ⟨rfl, rfl, id⟩
  · refine ⟨rfl, rfl, fun hsize => ?_⟩
    have hperm := totalTokens_perm (OrderedDict.perm_cons_erase hget)
    rw [totalTokens_cons] at hperm
    dsimp only at hperm ⊢
    omega

theorem erase_sublist (index : KVPrefixIndex κ H V) (key : κ) :
    List.Sublist (index.entries.erase key).entries index.entries.entries :=
  List.filter_sublist

theorem totalTokens_erase_le (h : ∀ e ∈ index.entries.entries, Stored hash e) (key : κ) :
    totalTokens (index.entries.erase key).entries ≤ totalTokens index.entries.entries := by
  rcases hget : index.entries.get? key with - | previous
  · rw [OrderedDict.erase_of_get?_eq_none hget]
  · have hpos := (h _ (OrderedDict.get?_eq_some_iff.mp hget)).prefixLength_pos
    rw [totalTokens_perm (OrderedDict.perm_cons_erase hget), totalTokens_cons]
    omega

theorem Valid.popKey (h : Valid hash maxSizeTokens uses index) (key : κ) :
    Valid hash maxSizeTokens (none :: uses) (popKey key index).2 := by
  obtain ⟨hmax, hentries, hsize⟩ := popKey_spec key index
  refine ⟨hmax.trans h.maxSizeTokens, ?_, fun m hm => ?_, fun e he => ?_, ?_⟩
  · rw [hentries, hsize h.size]
  · have hle := h.le_max m hm
    rw [h.size] at hle
    rw [hsize h.size]
    exact Int.le_trans (totalTokens_erase_le h.stored key) hle
  · rw [hentries] at he
    exact h.stored e ((erase_sublist index key).subset he)
  · rw [hentries]
    exact (h.order.sublist (erase_sublist index key)).skip

/-! ### The operations -/

/-- What `register` stores, and what it evicts. -/
theorem register_spec (h : Valid hash maxSizeTokens uses index) {tokenPrefix : List (Option ℤ)} {handle : H}
    {prefixLength : Option ℤ} {metadata : Option (OrderedDict String V)}
    {entry : KVPrefixIndexEntry κ H V}
    (hregister : register hash index tokenPrefix handle prefixLength metadata =
      .ok (entry, index')) :
    Stored hash (entry.tokenSha256, entry) ∧ index'.maxSizeTokens = index.maxSizeTokens ∧
      ∃ evicted,
        evicted ++ index'.entries.entries =
          (index.entries.erase entry.tokenSha256).entries ++ [(entry.tokenSha256, entry)] ∧
        index'.currentSizeTokens = totalTokens index'.entries.entries ∧
        (∀ m ∈ index.maxSizeTokens, index'.currentSizeTokens ≤ m) ∧
        ∀ before e after, evicted = before ++ e :: after → ∃ m ∈ index.maxSizeTokens,
          (m : ℤ) < totalTokens (e :: after ++ index'.entries.entries) := by
  obtain ⟨tokens, htokens, hregister⟩ := bind_eq_ok hregister
  dsimp only at hregister
  split_ifs at hregister with hlength
  rw [not_or, Int.not_le, Int.not_lt] at hlength
  set length := prefixLength.getD tokens.length with hdef
  set key := hash (tokens.take length.toNat) with hkey
  obtain ⟨hmax, hentries, hsize⟩ := popKey_spec key index
  obtain ⟨rfl, rfl⟩ := Prod.mk.inj (Except.ok.inj hregister)
  have hcount : length.toNat ≤ tokens.length := by omega
  have htake : (tokens.take length.toNat).length = length.toNat := by
    rw [List.length_take, Nat.min_eq_left hcount]
  set popped := (popKey key index).2 with hpopped
  set entry : KVPrefixIndexEntry κ H V :=
    ⟨tokens.take length.toNat, handle, length, key, metadata.getD .empty⟩ with hentry
  have hnew : popped.entries.get? key = none := by
    refine OrderedDict.get?_eq_none_iff.mpr fun v hv => ?_
    rw [hentries] at hv
    exact (OrderedDict.mem_erase.mp hv).2 rfl
  have hset := OrderedDict.entries_set_of_get?_eq_none hnew entry
  rw [hentries] at hset
  have hstored : Stored hash (key, entry) := by
    refine ⟨rfl, rfl, ?_, ?_⟩
    · show length = (tokens.take length.toNat).length
      rw [htake]
      omega
    · show 0 < (tokens.take length.toNat).length
      rw [htake]
      omega
  have hsize' : popped.currentSizeTokens + length =
      totalTokens ((index.entries.erase key).entries ++ [(key, entry)]) := by
    rw [totalTokens_append, totalTokens_cons, totalTokens_nil, hsize h.size, Int.add_zero]
  refine ⟨hstored, ?_⟩
  rw [← hmax]
  exact evictIfNeeded_spec hset hsize'

theorem Valid.register (h : Valid hash maxSizeTokens uses index) {tokenPrefix : List (Option ℤ)} {handle : H}
    {prefixLength : Option ℤ} {metadata : Option (OrderedDict String V)}
    {entry : KVPrefixIndexEntry κ H V}
    (hregister : PrefixIndex.register hash index tokenPrefix handle prefixLength metadata =
      .ok (entry, index')) :
    Valid hash maxSizeTokens (some entry.tokenSha256 :: uses) index' := by
  obtain ⟨hstored, hmax, evicted, hall, hsize, hle, -⟩ := register_spec h hregister
  have hkept : List.Sublist index'.entries.entries
      ((index.entries.erase entry.tokenSha256).entries ++ [(entry.tokenSha256, entry)]) := by
    rw [← hall]
    exact List.sublist_append_right evicted _
  refine ⟨hmax.trans h.maxSizeTokens, hsize, fun m hm => hle m (h.maxSizeTokens ▸ hm),
    fun e he => ?_, ?_⟩
  · rcases List.mem_append.mp (hkept.subset he) with he | he
    · exact h.stored e ((erase_sublist index _).subset he)
    · obtain rfl := List.mem_singleton.mp he
      exact hstored
  · have herase := h.order.sublist (erase_sublist index entry.tokenSha256)
    exact (herase.use fun e he => (OrderedDict.mem_erase.mp he).2).sublist hkept

variable (hash index) in
/-- The loop of `lookup`: the first length that has an entry with these tokens. -/
theorem lookupLoop_spec (query : List ℤ) (minLen : ℤ) : ∀ length : ℕ, length ≤ query.length →
    match lookupLoop hash index query minLen length with
    | none => ∀ n : ℕ, 0 < n → n ≤ length → minLen ≤ n → ∀ entry,
        index.entries.get? (hash (query.take n)) = some entry → entry.tokenPrefix ≠ query.take n
    | some (key, entry) => ∃ n : ℕ, 0 < n ∧ n ≤ length ∧ minLen ≤ n ∧ key = hash (query.take n) ∧
        index.entries.get? key = some entry ∧ entry.tokenPrefix = query.take n ∧
        ∀ n' : ℕ, n < n' → n' ≤ length → ∀ entry,
          index.entries.get? (hash (query.take n')) = some entry →
            entry.tokenPrefix ≠ query.take n' := by
  intro length
  induction length with
  | zero => exact fun _ n hpos hle => by omega
  | succ length ih =>
    intro hle
    have ih := ih (Nat.le_of_succ_le hle)
    unfold lookupLoop
    by_cases hmin : (length : ℤ) + 1 < minLen
    · rw [if_pos hmin]
      intro n _ hn hn'
      omega
    rw [if_neg hmin]
    dsimp only
    -- an entry that does not match: the shorter lengths decide
    have hnext (hno : ∀ entry, index.entries.get? (hash (query.take (length + 1))) = some entry →
        entry.tokenPrefix ≠ query.take (length + 1)) :
        match lookupLoop hash index query minLen length with
        | none => ∀ n : ℕ, 0 < n → n ≤ length + 1 → minLen ≤ n → ∀ entry,
            index.entries.get? (hash (query.take n)) = some entry →
              entry.tokenPrefix ≠ query.take n
        | some (key, entry) => ∃ n : ℕ, 0 < n ∧ n ≤ length + 1 ∧ minLen ≤ n ∧
            key = hash (query.take n) ∧ index.entries.get? key = some entry ∧
            entry.tokenPrefix = query.take n ∧
            ∀ n' : ℕ, n < n' → n' ≤ length + 1 → ∀ entry,
              index.entries.get? (hash (query.take n')) = some entry →
                entry.tokenPrefix ≠ query.take n' := by
      rcases hloop : lookupLoop hash index query minLen length with - | ⟨key, entry⟩
      · rw [hloop] at ih
        intro n hpos hn hn'
        rcases Nat.lt_or_eq_of_le hn with hn | rfl
        · exact ih n hpos (Nat.le_of_lt_succ hn) hn'
        · exact hno
      · rw [hloop] at ih
        obtain ⟨n, hpos, hn, hn', hkey, hget, htokens, hlonger⟩ := ih
        refine ⟨n, hpos, Nat.le_succ_of_le hn, hn', hkey, hget, htokens, fun n' hlt hle' => ?_⟩
        rcases Nat.lt_or_eq_of_le hle' with hle' | rfl
        · exact hlonger n' hlt (Nat.le_of_lt_succ hle')
        · exact hno
    rcases hget : index.entries.get? (hash (query.take (length + 1))) with - | entry
    · refine hnext fun entry h => ?_
      rw [hget] at h
      cases h
    dsimp only
    by_cases htokens : entry.tokenPrefix = query.take (length + 1)
    · rw [if_pos htokens]
      exact ⟨length + 1, Nat.succ_pos _, Nat.le_refl _, by push_cast; omega, rfl, hget, htokens,
        fun n' hlt hle' => by omega⟩
    · rw [if_neg htokens]
      refine hnext fun entry' h => ?_
      rw [hget] at h
      exact Option.some.inj h ▸ htokens

theorem lookup_eq {tokens : List (Option ℤ)} {query : List ℤ}
    (htokens : normalizeTokens tokens = .ok query) (minPrefixLength : ℤ) :
    lookup hash index tokens minPrefixLength =
      match lookupLoop hash index query (max 1 minPrefixLength) query.length with
      | none => .ok (none, index)
      | some (key, entry) =>
        .ok (some entry, { index with entries := index.entries.moveToEnd key }) := by
  unfold lookup
  rw [htokens]
  rfl

/-- What `lookup` finds, and that it only moves it. -/
theorem lookup_spec (h : Valid hash maxSizeTokens uses index) {tokens : List (Option ℤ)} {query : List ℤ}
    (htokens : normalizeTokens tokens = .ok query) (minPrefixLength : ℤ) :
    ∃ found index', lookup hash index tokens minPrefixLength = .ok (found, index') ∧
      (∀ entry ∈ found, (entry.tokenSha256, entry) ∈ index.entries.entries ∧
        Matches query minPrefixLength entry) ∧
      (Function.Injective hash → ∀ e ∈ index.entries.entries, Matches query minPrefixLength e.2 →
        ∃ entry ∈ found, e.2.tokenPrefix.length ≤ entry.tokenPrefix.length) ∧
      Valid hash maxSizeTokens (found.map (fun entry => entry.tokenSha256) :: uses) index' := by
  rw [lookup_eq htokens]
  have hloop := lookupLoop_spec hash index query (max 1 minPrefixLength) query.length le_rfl
  -- what is stored for a prefix of the query is found under the hash of as many tokens
  have hmatch (hinj : Function.Injective hash) {e : κ × KVPrefixIndexEntry κ H V}
      (he : e ∈ index.entries.entries) (hm : Matches query minPrefixLength e.2) :
      index.entries.get? (hash (query.take e.2.tokenPrefix.length)) = some e.2 ∧
        e.2.tokenPrefix = query.take e.2.tokenPrefix.length ∧
        e.2.tokenPrefix.length ≤ query.length := by
    have htake := List.prefix_iff_eq_take.mp hm.1
    refine ⟨?_, htake, hm.1.length_le⟩
    rw [← htake, ← (h.stored e he).key]
    exact OrderedDict.get?_eq_some_iff.mpr he
  rcases hfound : lookupLoop hash index query (max 1 minPrefixLength) query.length with
    - | ⟨key, entry⟩
  · rw [hfound] at hloop
    refine ⟨none, index, rfl, fun _ hentry => absurd hentry (by simp), fun hinj e he hm => ?_,
      h.skip⟩
    obtain ⟨hget, htake, hle⟩ := hmatch hinj he hm
    have hpos := (h.stored e he).pos
    have hmin := hm.2
    exact absurd htake (hloop _ hpos hle (by omega) e.2 hget)
  · rw [hfound] at hloop
    obtain ⟨n, hpos, hn, hmin, hkey, hget, htake, hlonger⟩ := hloop
    have hmem := OrderedDict.get?_eq_some_iff.mp hget
    have hstored := h.stored _ hmem
    have hsha : entry.tokenSha256 = key := hstored.tokenSha256
    have hlength : entry.tokenPrefix.length = n := by
      rw [htake, List.length_take, Nat.min_eq_left hn]
    refine ⟨some entry, _, rfl, fun entry' h' => ?_, fun hinj e he hm => ⟨entry, rfl, ?_⟩, ?_⟩
    · obtain rfl := Option.some.inj h'
      rw [hsha]
      refine ⟨hmem, ?_, ?_⟩
      · rw [htake]
        exact List.take_prefix n query
      · rw [hlength]
        omega
    · obtain ⟨hget', htake', hle⟩ := hmatch hinj he hm
      by_contra hlt
      rw [hlength, Nat.not_le] at hlt
      exact hlonger _ hlt hle e.2 hget' htake'
    · have hentries := OrderedDict.entries_moveToEnd hget
      refine ⟨h.maxSizeTokens, ?_, h.le_max,
        fun e he => h.stored e (OrderedDict.mem_moveToEnd.mp he), ?_⟩
      · have hperm := totalTokens_perm (OrderedDict.perm_cons_erase hget)
        rw [totalTokens_cons, ← h.size] at hperm
        rw [hentries, totalTokens_append, totalTokens_cons, totalTokens_nil]
        dsimp only at hperm ⊢
        omega
      · rw [hentries, Option.map_some, hsha]
        exact (h.order.sublist (erase_sublist index key)).use fun e he =>
          (OrderedDict.mem_erase.mp he).2

theorem Valid.advance (h : Valid hash maxSizeTokens uses index) (operation : Operation H V) :
    Valid hash maxSizeTokens (PrefixIndex.advance hash (index, uses) operation).2
      (PrefixIndex.advance hash (index, uses) operation).1 := by
  unfold PrefixIndex.advance
  rcases happly : operation.apply hash index with error | ⟨found, index'⟩
  · exact h.skip
  cases operation with
  | register tokenPrefix handle prefixLength metadata =>
    obtain ⟨⟨entry, index''⟩, hregister, hfound⟩ := bind_eq_ok happly
    obtain ⟨rfl, rfl⟩ := Prod.mk.inj (Except.ok.inj hfound)
    exact h.register hregister
  | lookup tokens minPrefixLength =>
    obtain ⟨query, htokens, -⟩ := bind_eq_ok happly
    obtain ⟨found', index'', hlookup, -, -, hvalid⟩ := lookup_spec h htokens minPrefixLength
    obtain ⟨rfl, rfl⟩ := Prod.mk.inj (Except.ok.inj (hlookup.symm.trans happly))
    exact hvalid
  | remove tokenPrefix =>
    obtain ⟨tokens, -, hpop⟩ := bind_eq_ok happly
    have hindex : (PrefixIndex.popKey (hash tokens) index).2 = index' :=
      congrArg Prod.snd (Except.ok.inj hpop)
    rw [← hindex]
    exact h.popKey (hash tokens)

theorem valid_run (hash : List ℤ → κ) (maxSizeTokens : Option ℕ)
    (operations : List (Operation H V)) :
    Valid hash maxSizeTokens (run hash maxSizeTokens operations).2 (run hash maxSizeTokens operations).1 := by
  induction operations using List.reverseRecOn with
  | nil => exact valid_new hash maxSizeTokens
  | append_singleton operations operation ih =>
    unfold run
    rw [List.foldl_concat]
    exact ih.advance operation

end BloomBee.PrefixIndex

/-! ### Any run -/

namespace BloomBee.PrefixIndex

open Recency (LeastRecentFirst)

variable {κ H V : Type} [DecidableEq κ]

/-- The contract of the index, after any operations and for any hash. The size is that of the
entries and within the limit. What `register` evicts was used less recently than all it keeps,
and evicting less of it would leave too much. `lookup` returns stored entries only, whose tokens
are a prefix of the query that is long enough; if no two lists of tokens have the same hash, the
longest of these. -/
theorem prefixIndex_contract (hash : List ℤ → κ) (maxSizeTokens : Option ℕ)
    (operations : List (Operation H V)) :
    let (index, uses) := run hash maxSizeTokens operations
    index.currentSizeTokens = totalTokens index.entries.entries ∧
      (∀ m ∈ maxSizeTokens, index.currentSizeTokens ≤ m) ∧
      (∀ tokenPrefix handle prefixLength metadata entry index',
        register hash index tokenPrefix handle prefixLength metadata = .ok (entry, index') →
        ∃ evicted,
          evicted ++ index'.entries.entries =
            (index.entries.erase entry.tokenSha256).entries ++ [(entry.tokenSha256, entry)] ∧
          LeastRecentFirst (some entry.tokenSha256 :: uses) (evicted ++ index'.entries.entries) ∧
          ∀ before e after, evicted = before ++ e :: after → ∃ m ∈ maxSizeTokens,
            (m : ℤ) < totalTokens (e :: after ++ index'.entries.entries)) ∧
      ∀ tokens query minPrefixLength, normalizeTokens tokens = .ok query →
        ∃ found index', lookup hash index tokens minPrefixLength = .ok (found, index') ∧
          (∀ entry ∈ found, (entry.tokenSha256, entry) ∈ index.entries.entries ∧
            Matches query minPrefixLength entry) ∧
          (Function.Injective hash → ∀ e ∈ index.entries.entries,
            Matches query minPrefixLength e.2 →
              ∃ entry ∈ found, e.2.tokenPrefix.length ≤ entry.tokenPrefix.length) := by
  have h := valid_run hash maxSizeTokens operations
  refine ⟨h.size, h.le_max, ?_, ?_⟩
  · intro tokenPrefix handle prefixLength metadata entry index' hregister
    obtain ⟨-, -, evicted, hall, -, -, hneeded⟩ := register_spec h hregister
    refine ⟨evicted, hall, ?_, fun before e after hsplit => ?_⟩
    · rw [hall]
      exact (h.order.sublist (erase_sublist _ _)).use fun e he => (OrderedDict.mem_erase.mp he).2
    · obtain ⟨m, hm, hlt⟩ := hneeded before e after hsplit
      exact ⟨m, h.maxSizeTokens ▸ hm, hlt⟩
  · intro tokens query minPrefixLength htokens
    obtain ⟨found, index', hlookup, hsound, hlongest, -⟩ := lookup_spec h htokens minPrefixLength
    exact ⟨found, index', hlookup, hsound, hlongest⟩

/-- Three tokens and a limit of five: three others evict them. -/
theorem prefixIndex_contract_evicts :
    let operations : List (Operation ℕ ℕ) :=
      [.register [some 1, some 2, some 3] 11 none none, .lookup [some 1, some 2, some 3, some 9] 1]
    ∃ evicted, evicted.map Prod.fst ++ [[4, 5, 6]] = [[1, 2, 3], [4, 5, 6]] ∧
      LeastRecentFirst [some [4, 5, 6], some [1, 2, 3], some [1, 2, 3]]
        (evicted ++ (run id (some 5)
          (operations ++ [.register [some 4, some 5, some 6] 12 none none])).1.entries.entries) := by
  intro operations
  obtain ⟨-, -, hregister, -⟩ := prefixIndex_contract id (some 5) operations
  obtain ⟨evicted, hall, horder, -⟩ :=
    hregister [some 4, some 5, some 6] 12 none none _ _ rfl
  have hkeys := congrArg (List.map Prod.fst) hall
  rw [List.map_append] at hkeys
  exact ⟨evicted, hkeys, horder⟩

end BloomBee.PrefixIndex

import Mathlib.Data.List.Basic
import Mathlib.Data.List.Nodup
import Mathlib.Data.Nat.Notation

/-! Dictionaries that remember the order of insertion, first entry first. Storing under a key
that is there keeps its place; `moveToEnd` and `popFirst` are what a least-recently-used cache
does with them, and the last section has the order such a cache keeps. -/

set_option autoImplicit false

structure OrderedDict (κ ν : Type*) where
  entries : List (κ × ν)
  nodup : (entries.map Prod.fst).Nodup

namespace OrderedDict

variable {κ ν : Type*}

def empty : OrderedDict κ ν := ⟨[], List.nodup_nil⟩

theorem eq_of_mem {d : OrderedDict κ ν} {k : κ} {v w : ν} (hv : (k, v) ∈ d.entries)
    (hw : (k, w) ∈ d.entries) : v = w := by
  have h := List.inj_on_of_nodup_map d.nodup hv hw rfl
  exact (Prod.mk.injEq k v k w ▸ h).2

def filter (p : κ × ν → Bool) (d : OrderedDict κ ν) : OrderedDict κ ν :=
  ⟨d.entries.filter p, d.nodup.sublist ((List.filter_sublist).map Prod.fst)⟩

/-- `popitem(last=False)`. -/
def popFirst (d : OrderedDict κ ν) : Option ((κ × ν) × OrderedDict κ ν) :=
  match h : d.entries with
  | [] => none
  | e :: es => some (e, ⟨es, (List.nodup_cons.mp (by have := d.nodup; rwa [h] at this)).2⟩)

theorem popFirst_eq_some {d d' : OrderedDict κ ν} {e : κ × ν} (h : d.popFirst = some (e, d')) :
    d.entries = e :: d'.entries := by
  unfold popFirst at h
  split at h
  · cases h
  · rename_i e' es hes
    obtain ⟨rfl, rfl⟩ := Prod.mk.inj (Option.some.inj h)
    exact hes

theorem popFirst_eq_none {d : OrderedDict κ ν} (h : d.popFirst = none) : d.entries = [] := by
  unfold popFirst at h
  split at h
  · assumption
  · cases h

variable [DecidableEq κ]

def get? (d : OrderedDict κ ν) (k : κ) : Option ν :=
  (d.entries.find? fun e => decide (e.1 = k)).map Prod.snd

theorem get?_eq_some_iff {d : OrderedDict κ ν} {k : κ} {v : ν} :
    d.get? k = some v ↔ (k, v) ∈ d.entries := by
  unfold get?
  rw [Option.map_eq_some_iff]
  constructor
  · rintro ⟨⟨k', v'⟩, hfind, rfl⟩
    have hk : k' = k := by simpa using List.find?_some hfind
    exact hk ▸ List.mem_of_find?_eq_some hfind
  · intro hmem
    obtain ⟨e, he⟩ : ∃ e, (d.entries.find? fun e => decide (e.1 = k)) = some e := by
      rw [← Option.isSome_iff_exists, List.find?_isSome]
      exact ⟨(k, v), hmem, decide_eq_true rfl⟩
    have hk : e.1 = k := by simpa using List.find?_some he
    exact ⟨e, he, eq_of_mem (hk ▸ List.mem_of_find?_eq_some he) hmem⟩

theorem get?_eq_none_iff {d : OrderedDict κ ν} {k : κ} :
    d.get? k = none ↔ ∀ v, (k, v) ∉ d.entries := by
  rw [Option.eq_none_iff_forall_ne_some]
  exact forall_congr' fun v => not_congr get?_eq_some_iff

def erase (k : κ) (d : OrderedDict κ ν) : OrderedDict κ ν := d.filter fun e => decide (e.1 ≠ k)

theorem entries_erase (d : OrderedDict κ ν) (k : κ) :
    (d.erase k).entries = d.entries.filter fun e => decide (e.1 ≠ k) := rfl

theorem mem_erase {d : OrderedDict κ ν} {k : κ} {e : κ × ν} :
    e ∈ (d.erase k).entries ↔ e ∈ d.entries ∧ e.1 ≠ k := by
  unfold erase filter
  rw [List.mem_filter, decide_eq_true_iff]

def push (k : κ) (v : ν) (d : OrderedDict κ ν) : OrderedDict κ ν :=
  ⟨(d.erase k).entries ++ [(k, v)], by
    rw [List.map_append, List.map_singleton]
    refine List.nodup_append.mpr ⟨(d.erase k).nodup, List.nodup_singleton k, ?_⟩
    rintro a ha b hb rfl
    obtain rfl := List.mem_singleton.mp hb
    obtain ⟨e, he, rfl⟩ := List.mem_map.mp ha
    exact (mem_erase.mp he).2 rfl⟩

def replace (k : κ) (v : ν) (d : OrderedDict κ ν) : OrderedDict κ ν :=
  ⟨d.entries.map fun e => if e.1 = k then (k, v) else e, by
    have hkeys : (d.entries.map fun e => if e.1 = k then (k, v) else e).map Prod.fst =
        d.entries.map Prod.fst := by
      rw [List.map_map]
      refine List.map_congr_left fun e _ => ?_
      by_cases h : e.1 = k
      · rw [Function.comp_apply, if_pos h, h]
      · rw [Function.comp_apply, if_neg h]
    rw [hkeys]
    exact d.nodup⟩

/-- `d[k] = v`. -/
def set (k : κ) (v : ν) (d : OrderedDict κ ν) : OrderedDict κ ν :=
  if (d.get? k).isSome then d.replace k v else d.push k v

/-- `d.move_to_end(k)`. -/
def moveToEnd (k : κ) (d : OrderedDict κ ν) : OrderedDict κ ν :=
  match d.get? k with
  | none => d
  | some v => d.push k v

theorem entries_push (d : OrderedDict κ ν) (k : κ) (v : ν) :
    (d.push k v).entries = (d.erase k).entries ++ [(k, v)] := rfl

theorem erase_of_get?_eq_none {d : OrderedDict κ ν} {k : κ} (h : d.get? k = none) :
    (d.erase k).entries = d.entries := by
  unfold erase filter
  refine List.filter_eq_self.mpr fun e he => decide_eq_true fun hk => ?_
  exact get?_eq_none_iff.mp h e.2 (hk ▸ he)

theorem entries_set_of_get?_eq_none {d : OrderedDict κ ν} {k : κ} (h : d.get? k = none) (v : ν) :
    (d.set k v).entries = d.entries ++ [(k, v)] := by
  unfold set
  rw [h, Option.isSome_none, if_neg Bool.false_ne_true, entries_push, erase_of_get?_eq_none h]

theorem perm_cons_erase {d : OrderedDict κ ν} {k : κ} {v : ν} (h : d.get? k = some v) :
    d.entries.Perm ((k, v) :: (d.erase k).entries) := by
  have hd : d.entries.Nodup := d.nodup.of_map
  refine (List.perm_ext_iff_of_nodup hd (List.nodup_cons.mpr ⟨?_, (d.erase k).nodup.of_map⟩)).mpr ?_
  · exact fun hv => (mem_erase.mp hv).2 rfl
  · intro e
    have hkv := get?_eq_some_iff.mp h
    rw [List.mem_cons, mem_erase]
    constructor
    · intro he
      by_cases hk : e.1 = k
      · exact .inl (Prod.ext hk (eq_of_mem (k := k) (hk ▸ he) hkv))
      · exact .inr ⟨he, hk⟩
    · rintro (rfl | he)
      · exact hkv
      · exact he.1

theorem mem_push {d : OrderedDict κ ν} {k : κ} {v : ν} {e : κ × ν} :
    e ∈ (d.push k v).entries ↔ e ∈ d.entries ∧ e.1 ≠ k ∨ e = (k, v) := by
  unfold push
  rw [List.mem_append, mem_erase, List.mem_singleton]

theorem mem_set {d : OrderedDict κ ν} {k : κ} {v : ν} {e : κ × ν} :
    e ∈ (d.set k v).entries ↔ e ∈ d.entries ∧ e.1 ≠ k ∨ e = (k, v) := by
  unfold set
  split_ifs with h
  · unfold replace
    rw [List.mem_map]
    constructor
    · rintro ⟨f, hf, rfl⟩
      split_ifs with hk
      · exact .inr rfl
      · exact .inl ⟨hf, hk⟩
    · rintro (⟨he, hk⟩ | rfl)
      · exact ⟨e, he, if_neg hk⟩
      · obtain ⟨w, hw⟩ := Option.isSome_iff_exists.mp h
        exact ⟨(k, w), get?_eq_some_iff.mp hw, if_pos rfl⟩
  · exact mem_push

theorem get?_set (d : OrderedDict κ ν) (k : κ) (v : ν) (k' : κ) :
    (d.set k v).get? k' = if k' = k then some v else d.get? k' := by
  refine Option.ext fun w => ?_
  rw [get?_eq_some_iff, mem_set]
  split_ifs with h
  · subst h
    simp [eq_comm]
  · rw [get?_eq_some_iff]
    simp [h]

theorem erase_set (d : OrderedDict κ ν) (k : κ) (v : ν) :
    ((d.set k v).erase k).entries = (d.erase k).entries := by
  have herase : ∀ es : List (κ × ν),
      (es.map fun e => if e.1 = k then (k, v) else e).filter (fun e => decide (e.1 ≠ k)) =
        es.filter fun e => decide (e.1 ≠ k) := by
    intro es
    induction es with
    | nil => rfl
    | cons e es ih =>
      rw [List.map_cons, List.filter_cons, List.filter_cons, ih]
      by_cases hk : e.1 = k
      · simp [hk]
      · simp [hk]
  unfold set
  split_ifs with h
  · exact herase d.entries
  · rw [entries_erase, entries_push, entries_erase, List.filter_append, List.filter_filter]
    simp

theorem exists_mem_foldl_set {α : Type*} (key : α → κ) (val : α → ν) (es : List α)
    (d : OrderedDict κ ν) (k : κ) :
    (∃ v, (k, v) ∈ (es.foldl (fun d e => d.set (key e) (val e)) d).entries) ↔
      (∃ v, (k, v) ∈ d.entries) ∨ ∃ e ∈ es, key e = k := by
  induction es generalizing d with
  | nil => simp
  | cons e es ih =>
    have hset : (∃ v, (k, v) ∈ (d.set (key e) (val e)).entries) ↔
        (∃ v, (k, v) ∈ d.entries) ∨ key e = k := by
      constructor
      · rintro ⟨v, hv⟩
        rcases mem_set.mp hv with ⟨hv, -⟩ | hv
        · exact .inl ⟨v, hv⟩
        · exact .inr (Prod.mk.inj hv).1.symm
      · rintro (⟨v, hv⟩ | rfl)
        · by_cases hk : k = key e
          · exact ⟨val e, mem_set.mpr (.inr (by rw [hk]))⟩
          · exact ⟨v, mem_set.mpr (.inl ⟨hv, hk⟩)⟩
        · exact ⟨val e, mem_set.mpr (.inr rfl)⟩
    rw [List.foldl_cons, ih, hset, List.exists_mem_cons_iff, or_assoc]

/-- What a run of assignments leaves was there before or is one of them. -/
theorem mem_foldl_set {α : Type*} {key : α → κ} {val : α → ν} {f : κ × ν} :
    ∀ {es : List α} {d : OrderedDict κ ν},
      f ∈ (es.foldl (fun d e => d.set (key e) (val e)) d).entries →
        f ∈ d.entries ∨ ∃ e ∈ es, (key e, val e) = f := by
  intro es
  induction es with
  | nil => exact fun h => .inl h
  | cons e es ih =>
    intro d h
    rcases ih h with h | ⟨e', he', h⟩
    · rcases mem_set.mp h with ⟨h, -⟩ | rfl
      · exact .inl h
      · exact .inr ⟨e, List.mem_cons_self, rfl⟩
    · exact .inr ⟨e', List.mem_cons_of_mem e he', h⟩

/-- A key that is only ever assigned one value has this value. -/
theorem get?_foldl_set {α : Type*} {key : α → κ} {val : α → ν} {k : κ} {v : ν} :
    ∀ {es : List α} {d : OrderedDict κ ν}, (∀ e ∈ es, key e = k → val e = v) →
      (d.get? k = some v ∨ ∃ e ∈ es, key e = k) →
      (es.foldl (fun d e => d.set (key e) (val e)) d).get? k = some v := by
  intro es
  induction es with
  | nil => exact fun _ h => h.resolve_right fun ⟨e, he, _⟩ => List.not_mem_nil he
  | cons e es ih =>
    intro d hval h
    obtain ⟨hhead, hval⟩ := List.forall_mem_cons.mp hval
    refine ih hval ?_
    rw [get?_set]
    split_ifs with hk
    · exact .inl (by rw [hhead hk.symm])
    · refine h.imp_right ?_
      rintro ⟨f, hf, hfk⟩
      rcases List.mem_cons.mp hf with rfl | hf
      · exact absurd hfk.symm hk
      · exact ⟨f, hf, hfk⟩

theorem entries_moveToEnd {d : OrderedDict κ ν} {k : κ} {v : ν} (h : d.get? k = some v) :
    (d.moveToEnd k).entries = (d.erase k).entries ++ [(k, v)] := by
  unfold moveToEnd
  rw [h]
  rfl

theorem mem_moveToEnd {d : OrderedDict κ ν} {k : κ} {e : κ × ν} :
    e ∈ (d.moveToEnd k).entries ↔ e ∈ d.entries := by
  unfold moveToEnd
  rcases h : d.get? k with - | v
  · rfl
  · rw [mem_push]
    have hv := get?_eq_some_iff.mp h
    constructor
    · rintro (he | rfl)
      · exact he.1
      · exact hv
    · intro he
      by_cases hk : e.1 = k
      · obtain ⟨k', w⟩ := e
        dsimp only at hk
        subst hk
        rw [eq_of_mem he hv]
        exact .inr rfl
      · exact .inl ⟨he, hk⟩

end OrderedDict

/-! ### Least recently used

Keys ordered by their last use. A run is the list of the keys that its operations use, the last
operation first; one that uses no key is `none`. -/

namespace Recency

variable {κ ν : Type*} [DecidableEq κ] {uses : List (Option κ)} {es : List (κ × ν)} {k : κ} {v : ν}

def age (uses : List (Option κ)) (k : κ) : ℕ := uses.idxOf (some k)

def LeastRecentFirst (uses : List (Option κ)) (es : List (κ × ν)) : Prop :=
  es.Pairwise fun e f => age uses f.1 < age uses e.1

@[simp] theorem age_none_cons (uses : List (Option κ)) (k : κ) :
    age (none :: uses) k = age uses k + 1 := by
  unfold age
  rw [List.idxOf_cons_ne uses (by exact fun h => by cases h)]

@[simp] theorem age_self_cons (uses : List (Option κ)) (k : κ) : age (some k :: uses) k = 0 := by
  unfold age
  exact List.idxOf_cons_self

theorem age_cons_of_ne {k' : κ} (h : k ≠ k') (uses : List (Option κ)) :
    age (some k' :: uses) k = age uses k + 1 := by
  unfold age
  exact List.idxOf_cons_ne uses fun h' => h (Option.some.inj h').symm

theorem LeastRecentFirst.sublist {fs : List (κ × ν)} (h : LeastRecentFirst uses es)
    (hsub : List.Sublist fs es) : LeastRecentFirst uses fs :=
  List.Pairwise.sublist hsub h

theorem LeastRecentFirst.skip (h : LeastRecentFirst uses es) :
    LeastRecentFirst (none :: uses) es := by
  refine List.Pairwise.imp (fun {e f} hef => ?_) h
  rw [age_none_cons, age_none_cons]
  exact Nat.succ_lt_succ hef

theorem LeastRecentFirst.use (h : LeastRecentFirst uses es) (hk : ∀ e ∈ es, e.1 ≠ k) :
    LeastRecentFirst (some k :: uses) (es ++ [(k, v)]) := by
  refine List.pairwise_append.mpr ⟨?_, List.pairwise_singleton _ _, ?_⟩
  · refine List.Pairwise.imp_of_mem (fun {e f} he hf hef => ?_) h
    rw [age_cons_of_ne (hk e he), age_cons_of_ne (hk f hf)]
    exact Nat.succ_lt_succ hef
  · intro e he f hf
    obtain rfl := List.mem_singleton.mp hf
    rw [age_self_cons, age_cons_of_ne (hk e he)]
    exact Nat.succ_pos _

end Recency

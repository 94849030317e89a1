import BloomBee.Lib.Tiling
import Mathlib.Algebra.BigOperators.Group.List.Basic
import Mathlib.Algebra.GroupWithZero.Nat
import Mathlib.Data.List.GetD

/-! Arrays of any number of dimensions: slices along an axis, concatenation and padding. -/

set_option autoImplicit false

namespace NDArray

/-- The index has one place for each axis, and each is within the size of its axis. -/
def InBounds (shape idx : List ℕ) : Prop :=
  idx.length = shape.length ∧ ∀ k < shape.length, idx.getD k 0 < shape.getD k 0

instance (shape idx : List ℕ) : Decidable (InBounds shape idx) :=
  inferInstanceAs (Decidable (_ ∧ _))

def OffAxis (d : ℕ) (shape idx : List ℕ) : Prop :=
  idx.length = shape.length ∧ ∀ k < shape.length, k ≠ d → idx.getD k 0 < shape.getD k 0

/-- Two shapes that differ along the axis `d` at most. -/
def SameOff (d : ℕ) (s s' : List ℕ) : Prop :=
  s'.length = s.length ∧ ∀ k < s.length, k ≠ d → s'.getD k 0 = s.getD k 0

instance (d : ℕ) (s s' : List ℕ) : Decidable (SameOff d s s') :=
  inferInstanceAs (Decidable (_ ∧ _))

section Shapes

variable {d n : ℕ} {s s' idx : List ℕ}

theorem getD_set_self (hd : d < s.length) : (s.set d n).getD d 0 = n := by
  rw [List.getD_eq_getElem?_getD, List.getElem?_set_self hd, Option.getD_some]

theorem getD_set_ne {k : ℕ} (hk : k ≠ d) : (s.set d n).getD k 0 = s.getD k 0 := by
  rw [List.getD_eq_getElem?_getD, List.getElem?_set_ne hk.symm, ← List.getD_eq_getElem?_getD]

theorem getD_modify_self (hd : d < s.length) (f : ℕ → ℕ) :
    (s.modify d f).getD d 0 = f (s.getD d 0) := by
  rw [List.getD_eq_getElem?_getD, List.getElem?_modify_eq, List.getD_eq_getElem?_getD,
    List.getElem?_eq_getElem hd]
  rfl

theorem getD_modify_ne {k : ℕ} (hk : k ≠ d) (f : ℕ → ℕ) :
    (s.modify d f).getD k 0 = s.getD k 0 := by
  rw [List.getD_eq_getElem?_getD, List.getElem?_modify_ne _ _ hk.symm,
    ← List.getD_eq_getElem?_getD]

theorem inBounds_iff (hd : d < s.length) :
    InBounds s idx ↔ OffAxis d s idx ∧ idx.getD d 0 < s.getD d 0 := by
  constructor
  · rintro ⟨hlen, hlt⟩
    exact ⟨⟨hlen, fun k hk _ => hlt k hk⟩, hlt d hd⟩
  · rintro ⟨⟨hlen, hlt⟩, hself⟩
    refine ⟨hlen, fun k hk => ?_⟩
    by_cases hkd : k = d
    · exact hkd ▸ hself
    · exact hlt k hk hkd

theorem SameOff.offAxis_iff (h : SameOff d s s') : OffAxis d s' idx ↔ OffAxis d s idx := by
  obtain ⟨hlen, hsame⟩ := h
  rw [OffAxis, OffAxis, hlen]
  refine and_congr_right fun _ => forall_congr' fun k => ?_
  exact forall_congr' fun hk => forall_congr' fun hkd => by rw [hsame k hk hkd]

theorem sameOff_set : SameOff d s (s.set d n) :=
  ⟨List.length_set, fun _ _ hk => getD_set_ne hk⟩

theorem SameOff.symm (h : SameOff d s s') : SameOff d s' s :=
  ⟨h.1.symm, fun k hk hkd => (h.2 k (h.1 ▸ hk) hkd).symm⟩

theorem SameOff.refl : SameOff d s s := ⟨rfl, fun _ _ _ => rfl⟩

theorem SameOff.trans {u : List ℕ} (h : SameOff d s s') (h' : SameOff d s' u) : SameOff d s u :=
  ⟨h'.1.trans h.1, fun k hk hkd => (h'.2 k (h.1 ▸ hk) hkd).trans (h.2 k hk hkd)⟩

theorem SameOff.set_eq (h : SameOff d s s') : s'.set d n = s.set d n := by
  refine List.ext_getElem (by rw [List.length_set, List.length_set, h.1]) fun k hk hk' => ?_
  rw [List.length_set] at hk hk'
  have hsame := h.2 k hk'
  rw [List.getD_eq_getElem _ _ hk, List.getD_eq_getElem _ _ hk'] at hsame
  rw [List.getElem_set, List.getElem_set]
  split_ifs with hkd
  · rfl
  · exact hsame (Ne.symm hkd)

theorem set_getD_self (hd : d < s.length) : s.set d (s.getD d 0) = s := by
  rw [List.getD_eq_getElem _ _ hd, List.set_getElem_self]

theorem offAxis_modify (f : ℕ → ℕ) : OffAxis d s (idx.modify d f) ↔ OffAxis d s idx := by
  rw [OffAxis, OffAxis, List.length_modify]
  refine and_congr_right fun _ => forall_congr' fun k => ?_
  exact forall_congr' fun _ => forall_congr' fun hkd => by rw [getD_modify_ne hkd]

theorem modify_eq_self_of {f : ℕ → ℕ} (hf : f (idx.getD d 0) = idx.getD d 0) :
    idx.modify d f = idx := by
  by_cases hd : d < idx.length
  · refine List.ext_getElem (List.length_modify _ _ _) fun k hk hk' => ?_
    rw [List.getElem_modify]
    split_ifs with hkd
    · subst hkd
      rwa [List.getD_eq_getElem _ _ hk'] at hf
    · rfl
  · exact List.modify_eq_self (Nat.le_of_not_lt hd)

theorem modify_congr {f g : ℕ → ℕ} (hfg : f (idx.getD d 0) = g (idx.getD d 0)) :
    idx.modify d f = idx.modify d g := by
  refine List.ext_getElem (by rw [List.length_modify, List.length_modify]) fun k hk hk' => ?_
  rw [List.length_modify] at hk
  rw [List.getElem_modify, List.getElem_modify]
  split_ifs with hkd
  · subst hkd
    rwa [List.getD_eq_getElem _ _ hk] at hfg
  · rfl

end Shapes

end NDArray

/-- An array: its shape and the entry at each index within it. -/
structure NDArray (α : Type) where
  shape : List ℕ
  get : List ℕ → Option α
  get_isSome : ∀ idx, (get idx).isSome ↔ NDArray.InBounds shape idx

namespace NDArray

variable {α : Type} {d n : ℕ}

theorem ext {t u : NDArray α} (hshape : t.shape = u.shape) (hget : ∀ idx, t.get idx = u.get idx) :
    t = u := by
  cases t with
  | mk shape get h =>
    cases u with
    | mk shape' get' h' =>
      obtain rfl : shape = shape' := hshape
      obtain rfl : get = get' := funext hget
      rfl

theorem get_eq_none {t : NDArray α} {idx : List ℕ} (h : ¬InBounds t.shape idx) : t.get idx = none := by
  rw [← t.get_isSome, Option.not_isSome_iff_eq_none] at h
  exact h

def size (t : NDArray α) (d : ℕ) : ℕ := t.shape.getD d 0

def numel (t : NDArray α) : ℕ := t.shape.prod

def indices : List ℕ → List (List ℕ)
  | [] => [[]]
  | n :: shape => (List.range n).flatMap fun i => (indices shape).map (i :: ·)

/-- `t.view(-1)` -/
def entries (t : NDArray α) : List α := (indices t.shape).filterMap t.get

/-- The rows of `t.reshape(t.shape[0], -1)` -/
def rows (t : NDArray α) : List (List α) :=
  (List.range (t.size 0)).map fun i => (indices t.shape.tail).filterMap fun idx => t.get (i :: idx)

def vectorGet (xs : List α) : List ℕ → Option α
  | [i] => xs[i]?
  | _ => none

theorem vectorGet_isSome (xs : List α) (idx : List ℕ) :
    (vectorGet xs idx).isSome ↔ InBounds [xs.length] idx := by
  rcases idx with _ | ⟨i, _ | ⟨j, idx⟩⟩
  · exact iff_of_false (by simp [vectorGet]) fun h => Nat.zero_ne_one h.1
  · rw [inBounds_iff (s := [xs.length]) (d := 0) Nat.one_pos]
    have hoff : OffAxis 0 [xs.length] [i] :=
      ⟨rfl, fun k hk hne => absurd (Nat.lt_one_iff.1 hk) hne⟩
    simp [vectorGet, hoff]
  · exact iff_of_false (by simp [vectorGet]) fun h => by
      have hlen := h.1
      simp only [List.length_cons, List.length_nil] at hlen
      omega

/-- `torch.tensor(xs)` of a list of numbers. -/
def vector (xs : List α) : NDArray α := ⟨[xs.length], vectorGet xs, vectorGet_isSome xs⟩

/-! ### Slices -/

/-- What is left of the axis `d` from `start` on, `len` places at most. -/
def restrictShape (t : NDArray α) (d start len : ℕ) : List ℕ :=
  t.shape.set d (min len (t.size d - start))

def restrictGet (t : NDArray α) (d start len : ℕ) (idx : List ℕ) : Option α :=
  if InBounds (t.restrictShape d start len) idx then t.get (idx.modify d (· + start)) else none

theorem inBounds_restrict {t : NDArray α} {start len : ℕ} {idx : List ℕ} (hd : d < t.shape.length) :
    InBounds (t.restrictShape d start len) idx ↔
      OffAxis d t.shape idx ∧ idx.getD d 0 < min len (t.size d - start) := by
  have hd' : d < (t.restrictShape d start len).length := by rwa [restrictShape, List.length_set]
  rw [inBounds_iff hd', restrictShape, getD_set_self hd, (sameOff_set (s := t.shape)).offAxis_iff]

theorem inBounds_modify {s idx : List ℕ} (hd : d < s.length) (f : ℕ → ℕ) :
    InBounds s (idx.modify d f) ↔ OffAxis d s idx ∧ f (idx.getD d 0) < s.getD d 0 := by
  rw [inBounds_iff hd, offAxis_modify]
  refine and_congr_right fun hoff => ?_
  rw [getD_modify_self (hoff.1 ▸ hd)]

theorem restrictGet_isSome (t : NDArray α) (d start len : ℕ) (hd : d < t.shape.length) (idx : List ℕ) :
    (t.restrictGet d start len idx).isSome ↔ InBounds (t.restrictShape d start len) idx := by
  rw [restrictGet]
  split_ifs with hin
  · refine iff_of_true ?_ hin
    obtain ⟨hoff, hlt⟩ := (inBounds_restrict hd).1 hin
    rw [t.get_isSome, inBounds_modify hd]
    exact ⟨hoff, by rw [size] at hlt; omega⟩
  · exact iff_of_false (by simp) hin

/-- `t[start:start + len]` along the axis `d`. -/
def restrict (t : NDArray α) (d start len : ℕ) (hd : d < t.shape.length) : NDArray α :=
  ⟨t.restrictShape d start len, t.restrictGet d start len, t.restrictGet_isSome d start len hd⟩

theorem size_restrict (t : NDArray α) (start len : ℕ) (hd : d < t.shape.length) :
    (t.restrict d start len hd).size d = min len (t.size d - start) :=
  getD_set_self hd

/-- `t[:, ..., start:stop]`, and `none` where there is no axis `d`. -/
def slice (t : NDArray α) (d start stop : ℕ) : Option (NDArray α) :=
  if hd : d < t.shape.length then some (t.restrict d start (stop - start) hd) else none

/-- `t.narrow(d, start, len)` -/
def narrow (t : NDArray α) (d start len : ℕ) : Option (NDArray α) :=
  if hd : d < t.shape.length then
    if start + len ≤ t.size d then some (t.restrict d start len hd) else none
  else none

/-! ### Concatenation -/

def catGet (d : ℕ) : List (NDArray α) → List ℕ → Option α
  | [], _ => none
  | t :: ts, idx =>
    if idx.getD d 0 < t.size d then t.get idx else catGet d ts (idx.modify d (· - t.size d))

def sizeSum (d : ℕ) (ts : List (NDArray α)) : ℕ := (ts.map fun t => t.size d).sum

theorem catGet_isSome {shape : List ℕ} (hd : d < shape.length) (ts : List (NDArray α))
    (hsame : ∀ t ∈ ts, SameOff d shape t.shape) (idx : List ℕ) :
    (catGet d ts idx).isSome ↔ InBounds (shape.set d (sizeSum d ts)) idx := by
  have hset : ∀ m, InBounds (shape.set d m) idx ↔ OffAxis d shape idx ∧ idx.getD d 0 < m := by
    intro m
    rw [inBounds_iff (by rwa [List.length_set]), getD_set_self hd,
      (sameOff_set (s := shape)).offAxis_iff]
  rw [hset]
  clear hset
  induction ts generalizing idx with
  | nil => exact iff_of_false (by simp [catGet]) fun h => Nat.not_lt_zero _ h.2
  | cons t ts ih =>
    have ht := hsame t List.mem_cons_self
    have htd : d < t.shape.length := ht.1 ▸ hd
    have hsum : sizeSum d (t :: ts) = t.size d + sizeSum d ts := List.sum_cons
    rw [catGet]
    split_ifs with hlt
    · rw [t.get_isSome, inBounds_iff htd, ht.offAxis_iff]
      exact and_congr_right fun _ => iff_of_true hlt (by omega)
    · have hrest := ih (fun u hu => hsame u (List.mem_cons_of_mem t hu)) (idx.modify d (· - t.size d))
      refine hrest.trans ?_
      rw [offAxis_modify]
      refine and_congr_right fun hoff => ?_
      rw [getD_modify_self (hoff.1 ▸ hd)]
      omega

/-- What `cat` asks of the arrays after the first. -/
def Catable (d : ℕ) (t : NDArray α) (rest : List (NDArray α)) : Prop :=
  d < t.shape.length ∧ ∀ u ∈ rest, SameOff d t.shape u.shape

instance (t : NDArray α) (rest : List (NDArray α)) : Decidable (Catable d t rest) :=
  inferInstanceAs (Decidable (_ ∧ _))

theorem Catable.sameOff {t : NDArray α} {rest : List (NDArray α)} (h : Catable d t rest) :
    ∀ u ∈ t :: rest, SameOff d t.shape u.shape :=
  List.forall_mem_cons.2 ⟨.refl, h.2⟩

def catList (d : ℕ) (t : NDArray α) (rest : List (NDArray α)) (h : Catable d t rest) : NDArray α :=
  ⟨t.shape.set d (sizeSum d (t :: rest)), catGet d (t :: rest), catGet_isSome h.1 _ h.sameOff⟩

/-- `torch.cat(ts, dim=d)` of arrays of one number of dimensions. -/
def cat (d : ℕ) : List (NDArray α) → Option (NDArray α)
  | [] => none
  | t :: rest => if h : Catable d t rest then some (catList d t rest h) else none

theorem catable_of_cat {t m : NDArray α} {rest : List (NDArray α)} (h : cat d (t :: rest) = some m) :
    Catable d t rest := by
  by_contra hno
  rw [cat, dif_neg hno] at h
  cases h

theorem cat_singleton (t : NDArray α) (hd : d < t.shape.length) : cat d [t] = some t := by
  have hsum : sizeSum d [t] = t.shape.getD d 0 := Nat.add_zero _
  rw [cat, dif_pos ⟨hd, fun u hu => absurd hu List.not_mem_nil⟩]
  refine congrArg some (ext ?_ fun idx => ?_)
  · show t.shape.set d (sizeSum d [t]) = t.shape
    rw [hsum, set_getD_self hd]
  · show (if idx.getD d 0 < t.size d then t.get idx else none) = t.get idx
    split_ifs with hlt
    · rfl
    · exact (get_eq_none fun h => hlt (h.2 d hd)).symm

/-! ### Padding -/

def fullGet (shape : List ℕ) (v : α) (idx : List ℕ) : Option α :=
  if InBounds shape idx then some v else none

theorem fullGet_isSome (shape : List ℕ) (v : α) (idx : List ℕ) :
    (fullGet shape v idx).isSome ↔ InBounds shape idx := by
  rw [fullGet]
  split_ifs with hin
  · exact iff_of_true rfl hin
  · exact iff_of_false (by simp) hin

/-- `torch.full(shape, v)` -/
def full (shape : List ℕ) (v : α) : NDArray α := ⟨shape, fullGet shape v, fullGet_isSome shape v⟩

def overwriteGet (t u : NDArray α) (idx : List ℕ) : Option α :=
  if InBounds t.shape idx then (u.get idx).or (t.get idx) else none

theorem overwriteGet_isSome (t u : NDArray α) (idx : List ℕ) :
    (t.overwriteGet u idx).isSome ↔ InBounds t.shape idx := by
  rw [overwriteGet]
  split_ifs with hin
  · rw [Option.isSome_or, (t.get_isSome idx).2 hin, Bool.or_true]
    exact iff_of_true rfl hin
  · exact iff_of_false (by simp) hin

/-- `t[:n, ..., :m] = u` for the sizes of `u` -/
def overwrite (t u : NDArray α) : NDArray α := ⟨t.shape, t.overwriteGet u, t.overwriteGet_isSome u⟩

theorem get_overwrite_full (u : NDArray α) {shape idx : List ℕ} (v : α) (hin : InBounds shape idx) :
    ((full shape v).overwrite u).get idx = some ((u.get idx).getD v) := by
  have hfull : (full shape v).get idx = some v := if_pos hin
  have hget : ((full shape v).overwrite u).get idx = (u.get idx).or ((full shape v).get idx) :=
    if_pos hin
  rw [hget, hfull]
  cases u.get idx <;> rfl

/-! ### The parts of a concatenation -/

/-- Past the arrays before it, an array is read at its own index. -/
theorem catGet_append (pre ts : List (NDArray α)) {idx : List ℕ} (hd : d < idx.length) :
    catGet d (pre ++ ts) (idx.modify d (· + sizeSum d pre)) = catGet d ts idx := by
  induction pre with
  | nil =>
    rw [List.nil_append, modify_eq_self_of]
    exact Nat.add_zero _
  | cons t pre ih =>
    have hsum : sizeSum d (t :: pre) = t.size d + sizeSum d pre := List.sum_cons
    rw [List.cons_append, catGet, getD_modify_self hd, if_neg (by omega), List.modify_modify_eq,
      ← ih]
    congr 1
    refine modify_congr ?_
    show idx.getD d 0 + sizeSum d (t :: pre) - t.size d = _
    omega

/-- The slices of an array along a tiling, laid one after the other. -/
theorem catGet_slices (t : NDArray α) (hd : d < t.shape.length) {a c : ℕ} {rs : List (ℕ × ℕ)}
    (tiles : Tiles a c rs) (hc : c ≤ t.size d) (idx : List ℕ) :
    catGet d (rs.map fun r => t.restrict d r.1 (r.2 - r.1) hd) idx =
      if idx.getD d 0 < c - a then t.get (idx.modify d (· + a)) else none := by
  induction tiles generalizing idx with
  | nil a => rw [List.map_nil, catGet, if_neg (by omega)]
  | @cons a b c rs hab tiles ih =>
    have hbc := tiles.le
    have hsize : (t.restrict d a (b - a) hd).size d = b - a := by
      rw [size_restrict]
      omega
    rw [List.map_cons, catGet, hsize]
    by_cases hlt : idx.getD d 0 < b - a
    · rw [if_pos hlt, if_pos (by omega)]
      show t.restrictGet d a (b - a) idx = _
      rw [restrictGet]
      split_ifs with hin
      · rfl
      · refine (get_eq_none fun h => hin ?_).symm
        exact (inBounds_restrict hd).2 ⟨((inBounds_modify hd _).1 h).1, by omega⟩
    · rw [if_neg hlt, ih hc]
      by_cases hd' : d < idx.length
      · rw [getD_modify_self hd', List.modify_modify_eq]
        refine if_congr (by omega) (congrArg t.get (modify_congr ?_)) rfl
        show idx.getD d 0 - (b - a) + b = idx.getD d 0 + a
        omega
      · have hnone : ∀ f : ℕ → ℕ, t.get (idx.modify d f) = none := by
          intro f
          refine get_eq_none fun h => hd' ?_
          have hlen := h.1
          rw [List.length_modify] at hlen
          omega
        rw [hnone, List.modify_modify_eq, hnone, ite_self, ite_self]

/-- The slices of an array along a tiling of an axis are the array. -/
theorem cat_slices (t : NDArray α) (hd : d < t.shape.length) {rs : List (ℕ × ℕ)}
    (tiles : Tiles 0 (t.size d) rs) (hrs : rs ≠ []) :
    cat d (rs.map fun r => t.restrict d r.1 (r.2 - r.1) hd) = some t := by
  have hsame : ∀ u ∈ rs.map fun r => t.restrict d r.1 (r.2 - r.1) hd, SameOff d t.shape u.shape := by
    intro u hu
    obtain ⟨r, -, rfl⟩ := List.mem_map.1 hu
    exact sameOff_set
  have hsum : ∀ {a c : ℕ} {rs : List (ℕ × ℕ)}, Tiles a c rs → c ≤ t.size d →
      sizeSum d (rs.map fun r => t.restrict d r.1 (r.2 - r.1) hd) = c - a := by
    intro a c rs tiles hc
    induction tiles with
    | nil a => rw [Nat.sub_self]; rfl
    | @cons a b c rs hab tiles ih =>
      have hbc := tiles.le
      have hsize : (t.restrict d a (b - a) hd).size d = b - a := by
        rw [size_restrict]
        omega
      rw [List.map_cons, sizeSum, List.map_cons, List.sum_cons, hsize]
      have := ih hc
      rw [sizeSum] at this
      omega
  cases rs with
  | nil => exact absurd rfl hrs
  | cons r rs =>
    have hfirst := hsame _ (List.mem_map_of_mem List.mem_cons_self)
    have hcat : Catable d (t.restrict d r.1 (r.2 - r.1) hd)
        (rs.map fun r => t.restrict d r.1 (r.2 - r.1) hd) := by
      refine ⟨hfirst.1 ▸ hd, fun u hu => ?_⟩
      exact hfirst.symm.trans (hsame u (List.mem_cons_of_mem _ hu))
    rw [List.map_cons, cat, dif_pos hcat]
    refine congrArg some (ext ?_ fun idx => ?_)
    · have hsize := hsum tiles (Nat.le_refl _)
      show (t.restrict d r.1 (r.2 - r.1) hd).shape.set d (sizeSum d (_ :: _)) = t.shape
      rw [List.map_cons] at hsize
      rw [hsize, hfirst.set_eq, Nat.sub_zero]
      exact set_getD_self hd
    · refine (catGet_slices t hd tiles (Nat.le_refl _) idx).trans ?_
      rw [Nat.sub_zero, modify_eq_self_of (Nat.add_zero _)]
      split_ifs with hlt
      · rfl
      · exact (get_eq_none fun h => hlt (((inBounds_iff hd).1 h).2)).symm

theorem restrict_whole (t : NDArray α) (hd : d < t.shape.length) :
    t.restrict d 0 (t.size d) hd = t := by
  have hcat := cat_slices t hd (.singleton (Nat.zero_le (t.size d))) (List.cons_ne_nil _ _)
  have hd' : d < (t.restrict d 0 (t.size d) hd).shape.length := by
    rwa [(sameOff_set (s := t.shape)).1.symm] at hd
  rw [List.map_singleton, Nat.sub_zero, cat_singleton _ hd'] at hcat
  exact Option.some.inj hcat

/-! ### Rows -/

theorem rows_length (t : NDArray α) : t.rows.length = t.size 0 := by
  rw [rows, List.length_map, List.length_range]

theorem numel_restrict_ne_zero {t : NDArray α} (hd : 0 < t.shape.length) {start stop : ℕ}
    (hn : t.numel ≠ 0) (hlt : start < stop) (hstop : stop ≤ t.size 0) :
    (t.restrict 0 start (stop - start) hd).numel ≠ 0 := by
  show (t.shape.set 0 (min (stop - start) (t.size 0 - start))).prod ≠ 0
  rw [numel] at hn
  generalize t.shape = shape at hd hn ⊢
  cases shape with
  | nil => exact absurd hd (Nat.lt_irrefl 0)
  | cons n rest =>
    rw [List.prod_cons] at hn
    rw [List.set_cons_zero, List.prod_cons]
    exact Nat.mul_ne_zero (by omega) (Nat.mul_ne_zero_iff.1 hn).2

/-- The rows of a slice are the slice of the rows. -/
theorem rows_restrict (t : NDArray α) (hd : 0 < t.shape.length) {start stop : ℕ}
    (hstop : stop ≤ t.size 0) :
    (t.restrict 0 start (stop - start) hd).rows = (t.rows.drop start).take (stop - start) := by
  have hsize : (t.restrict 0 start (stop - start) hd).size 0 = stop - start := by
    rw [size_restrict]
    omega
  have htail : (t.restrict 0 start (stop - start) hd).shape.tail = t.shape.tail := by
    show (t.shape.set 0 _).tail = t.shape.tail
    cases t.shape <;> rfl
  refine List.ext_getElem ?_ fun i hi _ => ?_
  · rw [rows_length, hsize, List.length_take, List.length_drop, rows_length]
    omega
  · rw [rows_length, hsize] at hi
    rw [List.getElem_take, List.getElem_drop]
    simp only [rows, List.getElem_map, List.getElem_range, htail]
    refine List.filterMap_congr fun idx _ => ?_
    show t.restrictGet 0 start (stop - start) (i :: idx) = _
    have hmod : (i :: idx).modify 0 (· + start) = (start + i) :: idx := by
      rw [List.modify_zero_cons, Nat.add_comm]
    rw [restrictGet, hmod]
    split_ifs with hin
    · rfl
    · refine (get_eq_none fun h => hin ((inBounds_restrict hd).2 ⟨?_, ?_⟩)).symm
      · exact (offAxis_modify (· + start)).1 (hmod ▸ ((inBounds_iff hd).1 h).1)
      · rw [List.getD_cons_zero]
        omega

end NDArray

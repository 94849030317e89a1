import BloomBee.Spec.KVSlab

/-! What a write to the slab does to its cells and what a read of its columns returns, over one
device or several. -/

set_option autoImplicit false

namespace BloomBee.KVSlab

open PagedKV (BlockConfig NewKvs Tensor sourceHeadsPerBatch)
open PagedKV.PagedKVTable (Broadcasts broadcastIndex)

variable {κ : Type}

theorem broadcastIndex_of_lt {n i : ℕ} (h : i < n) : broadcastIndex n i = i := by
  rw [broadcastIndex]
  split_ifs
  · omega
  · rfl

theorem slice_tokens (x : Block κ) (lo hi : ℕ) : (x.slice x.tokens lo hi).tokens = x.tokens :=
  Nat.min_self _

/-! ### Cells -/

theorem cellOf_isSome {segs : List (Segment κ)} {s col : ℕ} (h : col < totalWidth segs) :
    ∃ x, cellOf segs s col = some x := by
  induction segs generalizing col with
  | nil => simp [totalWidth] at h
  | cons seg segs ih =>
    simp only [totalWidth] at h
    rw [cellOf]
    split_ifs with hc
    · exact ⟨_, rfl⟩
    · exact ih (by omega)

theorem cell?_isSome {c : Cache κ} {s col : ℕ} (hs : s < c.seqLen) (hcol : col < c.bh) :
    ∃ x, c.cell? s col = some x := by
  rw [Cache.cell?, if_pos hs]
  exact cellOf_isSome hcol

theorem lt_of_cellOf {segs : List (Segment κ)} {s col : ℕ} {x : κ}
    (h : cellOf segs s col = some x) : col < totalWidth segs := by
  induction segs generalizing col with
  | nil => cases h
  | cons seg segs ih =>
    rw [cellOf] at h
    rw [totalWidth]
    split_ifs at h with hc
    · omega
    · have := ih h
      omega

theorem lt_of_cell? {c : Cache κ} {s col : ℕ} {x : κ} (h : c.cell? s col = some x) :
    s < c.seqLen ∧ col < c.bh := by
  rw [Cache.cell?] at h
  split_ifs at h with hs
  exact ⟨hs, lt_of_cellOf h⟩

structure SameShape (c c' : Cache κ) : Prop where
  seqLen : c'.seqLen = c.seqLen
  d : c'.d = c.d
  bh : c'.bh = c.bh

theorem SameShape.refl (c : Cache κ) : SameShape c c := ⟨rfl, rfl, rfl⟩

theorem SameShape.trans {c c' c'' : Cache κ} (h : SameShape c c') (h' : SameShape c' c'') :
    SameShape c c'' := ⟨h'.seqLen.trans h.seqLen, h'.d.trans h.d, h'.bh.trans h.bh⟩

theorem SameShape.batch {c c' : Cache κ} (h : SameShape c c') (heads : ℕ) :
    c'.batch heads = c.batch heads :=
  congrArg (· / heads) h.bh

/-! ### One copy -/

section Copy

variable {seqLen start stop : ℕ}

theorem copySlice_ok (x : Segment κ) (lo hi : ℕ) (src : Block κ)
    (ht : Broadcasts src.tokens (min stop seqLen - start)) (hhi : hi ≤ x.width)
    (hw : src.width = hi - lo) :
    ∃ x', x.copySlice seqLen start stop lo hi src = .ok x' ∧ x'.width = x.width ∧
      ∀ s c, x'.data s c =
        if start ≤ s ∧ s < min stop seqLen ∧ lo ≤ c ∧ c < hi then
          src.data (broadcastIndex src.tokens (s - start)) (c - lo)
        else x.data s c := by
  have hmin : min hi x.width = hi := Nat.min_eq_left hhi
  refine ⟨_, if_pos ⟨ht, .inl (by rw [hmin, hw])⟩, rfl, fun s c => ?_⟩
  simp only [hmin]
  split_ifs with hin
  · have hcol : c - lo < src.width := by omega
    rw [broadcastIndex_of_lt hcol]
  · rfl

theorem copySlice_error {x : Segment κ} {lo hi : ℕ} {src : Block κ}
    (ht : ¬Broadcasts src.tokens (min stop seqLen - start)) :
    x.copySlice seqLen start stop lo hi src = .error .runtimeError :=
  if_neg fun h => ht h.1

/-! ### Over the segments -/

variable {bhStart bhEnd : ℕ} {src : Block κ}

/-- A segment takes the columns of the source that it shares with the destination. -/
theorem copyOverlap_ok {first segStart : ℕ} (seg : Segment κ)
    (ht : Broadcasts src.tokens (min stop seqLen - start))
    (hsrc : first + (bhEnd - bhStart) ≤ src.width)
    (hover : max bhStart segStart < min bhEnd (segStart + seg.width)) :
    let lo := max bhStart segStart
    let hi := min bhEnd (segStart + seg.width)
    ∃ seg', seg.copySlice seqLen start stop (lo - segStart) (lo - segStart + (hi - lo))
        (src.slice src.tokens (first + (lo - bhStart)) (first + (lo - bhStart) + (hi - lo))) =
          .ok seg' ∧ seg'.width = seg.width ∧
      ∀ s, ∀ col < seg.width, seg'.data s col =
        if start ≤ s ∧ s < min stop seqLen ∧ bhStart ≤ segStart + col ∧ segStart + col < bhEnd then
          src.data (broadcastIndex src.tokens (s - start)) (first + (segStart + col - bhStart))
        else seg.data s col := by
  intro lo hi
  have hlo : bhStart ≤ lo ∧ segStart ≤ lo := ⟨le_max_left .., le_max_right ..⟩
  have hhi : hi ≤ bhEnd ∧ hi ≤ segStart + seg.width := ⟨min_le_left .., min_le_right ..⟩
  have hstart : ∀ col, lo ≤ segStart + col ↔ bhStart ≤ segStart + col :=
    fun col => by simp [lo]
  have hend : ∀ col < seg.width, segStart + col < hi ↔ segStart + col < bhEnd :=
    fun col hc => by simp [hi, hc]
  have hlt : lo < hi := hover
  clear_value lo hi
  obtain ⟨seg', hcopy, hwidth, hdata⟩ := copySlice_ok seg (lo - segStart)
    (lo - segStart + (hi - lo))
    (src.slice src.tokens (first + (lo - bhStart)) (first + (lo - bhStart) + (hi - lo)))
    (by rw [slice_tokens]; exact ht) (by omega) (by
      have hcolumns : first + (lo - bhStart) + (hi - lo) ≤ src.width := by omega
      simp only [Block.slice, Nat.min_eq_left hcolumns]
      omega)
  refine ⟨seg', hcopy, hwidth, fun s col hc => ?_⟩
  have hin : (lo - segStart ≤ col ∧ col < lo - segStart + (hi - lo)) ↔
      bhStart ≤ segStart + col ∧ segStart + col < bhEnd := by
    rw [← hstart col, ← hend col hc]
    omega
  rw [hdata]
  refine ite_congr (by rw [hin]) (fun hcell => ?_) fun _ => rfl
  have hcol : first + (lo - bhStart) + (col - (lo - segStart)) =
      first + (segStart + col - bhStart) := by
    have := (hstart col).mpr hcell.2.2.1
    omega
  simp only [Block.slice, Nat.min_self, hcol]

/-- Each segment takes its part of the source: the columns before it are behind the source's
offset. -/
theorem writeSegments_ok {first : ℕ} (ht : Broadcasts src.tokens (min stop seqLen - start))
    (hsrc : first + (bhEnd - bhStart) ≤ src.width) (segs : List (Segment κ)) (segStart : ℕ) :
    ∃ segs', writeSegments seqLen start stop bhStart bhEnd src segStart
        (first + (min bhEnd (max bhStart segStart) - bhStart)) segs = (segs', .ok ()) ∧
      totalWidth segs' = totalWidth segs ∧
      ∀ s col, cellOf segs' s col = (cellOf segs s col).map fun old =>
        if start ≤ s ∧ s < min stop seqLen ∧ bhStart ≤ segStart + col ∧ segStart + col < bhEnd then
          src.data (broadcastIndex src.tokens (s - start)) (first + (segStart + col - bhStart))
        else old := by
  induction segs generalizing segStart with
  | nil => exact ⟨[], rfl, rfl, fun _ _ => rfl⟩
  | cons seg segs ih =>
    obtain ⟨segs', hrest, hwidth, hcells⟩ := ih (segStart + seg.width)
    -- the cells behind this segment
    have hbehind : ∀ col, ¬col < seg.width → segStart + seg.width + (col - seg.width) =
        segStart + col := fun col hc => by omega
    rw [writeSegments]
    by_cases hover : max bhStart segStart < min bhEnd (segStart + seg.width)
    · have hoff : min bhEnd (max bhStart segStart) = max bhStart segStart := by omega
      have hnext : first + (max bhStart segStart - bhStart) +
          (min bhEnd (segStart + seg.width) - max bhStart segStart) =
          first + (min bhEnd (max bhStart (segStart + seg.width)) - bhStart) := by omega
      obtain ⟨seg', hcopy, hw', hdata⟩ := copyOverlap_ok seg ht hsrc hover
      simp only [if_pos hover, hoff, hcopy]
      simp only [hnext, hrest]
      refine ⟨_, rfl, by simp only [totalWidth, hw', hwidth], fun s col => ?_⟩
      rw [cellOf, cellOf, hw']
      by_cases hc : col < seg.width
      · rw [if_pos hc, if_pos hc, Option.map_some, hdata s col hc]
      · rw [if_neg hc, if_neg hc, hcells, hbehind col hc]
    · have hnext : min bhEnd (max bhStart segStart) - bhStart =
          min bhEnd (max bhStart (segStart + seg.width)) - bhStart := by omega
      simp only [if_neg hover, hnext, hrest]
      refine ⟨_, rfl, by simp only [totalWidth, hwidth], fun s col => ?_⟩
      rw [cellOf, cellOf]
      by_cases hc : col < seg.width
      · rw [if_pos hc, if_pos hc, Option.map_some, if_neg (by omega)]
      · rw [if_neg hc, if_neg hc, hcells, hbehind col hc]

theorem writeSegments_error {srcOffset : ℕ} (segs : List (Segment κ)) (segStart : ℕ)
    (ht : ¬Broadcasts src.tokens (min stop seqLen - start))
    (hover : max bhStart segStart < min bhEnd (segStart + totalWidth segs)) :
    writeSegments seqLen start stop bhStart bhEnd src segStart srcOffset segs =
      (segs, .error .runtimeError) := by
  induction segs generalizing segStart with
  | nil => simp only [totalWidth] at hover; omega
  | cons seg segs ih =>
    rw [writeSegments]
    by_cases hseg : max bhStart segStart < min bhEnd (segStart + seg.width)
    · simp only [if_pos hseg]
      rw [copySlice_error (by rwa [slice_tokens])]
    · simp only [totalWidth] at hover
      simp only [if_neg hseg, ih (segStart + seg.width) (by omega)]

theorem writeSegments_empty {srcOffset : ℕ} (segs : List (Segment κ)) (segStart : ℕ)
    (h : bhEnd ≤ bhStart) :
    writeSegments seqLen start stop bhStart bhEnd src segStart srcOffset segs =
      (segs, .ok ()) := by
  induction segs generalizing segStart with
  | nil => rfl
  | cons seg segs ih => rw [writeSegments, if_neg (by omega), ih]

end Copy

/-! ### One write -/

section Write

variable {c : Cache κ} {start stop bhStart bhEnd : ℕ} {src : Block κ}

/-- What `src_idx` takes of the source. -/
theorem sourceData (src : Block κ) (srcIdx : Option SourceSlice)
    (hhi : (srcIdx.getD ⟨src.tokens, 0, src.width⟩).hi ≤ src.width) :
    let idx := srcIdx.getD ⟨src.tokens, 0, src.width⟩
    let data := srcIdx.elim src fun idx => src.slice idx.tokens idx.lo idx.hi
    data.tokens = min idx.tokens src.tokens ∧ data.width = idx.hi - idx.lo ∧
      ∀ t col, data.data t col = src.data t (idx.lo + col) := by
  cases srcIdx with
  | none => exact ⟨(Nat.min_self _).symm, rfl, fun t col => congrArg _ (Nat.zero_add col).symm⟩
  | some idx =>
    have hmin : min idx.hi src.width = idx.hi := Nat.min_eq_left hhi
    exact ⟨rfl, congrArg (· - idx.lo) hmin, fun _ _ => rfl⟩

/-- A write of as many columns as its destination has, all of them in the slab. -/
theorem writeToCache_ok (srcIdx : Option SourceSlice) {idx : SourceSlice}
    (hidx : srcIdx.getD ⟨src.tokens, 0, src.width⟩ = idx)
    (ht : Broadcasts (min idx.tokens src.tokens) (min stop c.seqLen - start))
    (hw : idx.hi = idx.lo + (bhEnd - bhStart)) (hhi : idx.hi ≤ src.width) (hbh : bhEnd ≤ c.bh) :
    ∃ c', writeToCache c start stop bhStart bhEnd src srcIdx = (c', .ok ()) ∧ SameShape c c' ∧
      ∀ s col, c'.cell? s col = (c.cell? s col).map fun old =>
        if start ≤ s ∧ s < stop ∧ bhStart ≤ col ∧ col < bhEnd then
          src.data (broadcastIndex (min idx.tokens src.tokens) (s - start))
            (idx.lo + (col - bhStart))
        else old := by
  obtain ⟨seqLen, d, storage⟩ := c
  cases storage with
  | whole seg =>
    obtain ⟨htokens, hwidth, hdata⟩ := sourceData src srcIdx (by rwa [hidx])
    simp only [hidx] at htokens hwidth hdata
    obtain ⟨seg', hcopy, hw', hcells⟩ := copySlice_ok seg bhStart bhEnd _
      (by rw [htokens]; exact ht) hbh (by omega)
    simp only [writeToCache, hcopy]
    refine ⟨_, rfl, ⟨rfl, rfl, congrArg (· + 0) hw'⟩, fun s col => ?_⟩
    simp only [Cache.cell?, Storage.segments, cellOf, hw']
    by_cases hs : s < seqLen
    · rw [if_pos hs, if_pos hs]
      by_cases hcol : col < seg.width
      · rw [if_pos hcol, if_pos hcol, Option.map_some, hcells, hdata, htokens]
        exact congrArg some (if_congr (by dsimp only; omega) rfl rfl)
      · rw [if_neg hcol, if_neg hcol, Option.map_none]
    · rw [if_neg hs, if_neg hs, Option.map_none]
  | mixed segs =>
    have hslice : (src.slice idx.tokens 0 src.width).width = src.width := by
      rw [Block.slice, Nat.min_self, Nat.sub_zero]
    have hsrc : idx.lo + (bhEnd - bhStart) ≤ (src.slice idx.tokens 0 src.width).width := by omega
    obtain ⟨segs', hwrite, hw', hcells⟩ := writeSegments_ok ht hsrc segs 0
    have hoff : min bhEnd (max bhStart 0) - bhStart = 0 := by omega
    rw [hoff, Nat.add_zero] at hwrite
    simp only [writeToCache, hidx, hwrite]
    refine ⟨_, rfl, ⟨rfl, rfl, hw'⟩, fun s col => ?_⟩
    simp only [Cache.cell?, Storage.segments]
    by_cases hs : s < seqLen
    · rw [if_pos hs, if_pos hs, hcells]
      refine congrArg (Option.map · _) (funext fun old => if_congr (by dsimp only; omega) ?_ rfl)
      simp only [Block.slice, Nat.zero_add]
    · rw [if_neg hs, if_neg hs, Option.map_none]

theorem writeToCache_error (srcIdx : Option SourceSlice) {idx : SourceSlice}
    (hidx : srcIdx.getD ⟨src.tokens, 0, src.width⟩ = idx)
    (ht : ¬Broadcasts (min idx.tokens src.tokens) (min stop c.seqLen - start))
    (hlt : bhStart < bhEnd) (hbh : bhEnd ≤ c.bh) (hhi : idx.hi ≤ src.width) :
    writeToCache c start stop bhStart bhEnd src srcIdx = (c, .error .runtimeError) := by
  obtain ⟨seqLen, d, storage⟩ := c
  cases storage with
  | whole seg =>
    obtain ⟨htokens, -, -⟩ := sourceData src srcIdx (by rwa [hidx])
    simp only [hidx] at htokens
    simp only [writeToCache]
    rw [copySlice_error (by rw [htokens]; exact ht)]
  | mixed segs =>
    have hover : max bhStart 0 < min bhEnd (0 + totalWidth segs) := by
      change bhEnd ≤ totalWidth segs at hbh
      omega
    simp only [writeToCache, hidx]
    rw [writeSegments_error segs 0 ht hover]

theorem writeToCache_empty (srcIdx : Option SourceSlice) (h : bhEnd ≤ bhStart) :
    (writeToCache c start stop bhStart bhEnd src srcIdx).2 = .ok () ∨
      writeToCache c start stop bhStart bhEnd src srcIdx = (c, .error .runtimeError) := by
  obtain ⟨seqLen, d, storage⟩ := c
  cases storage with
  | whole seg =>
    simp only [writeToCache, Segment.copySlice]
    split_ifs
    · exact .inl rfl
    · exact .inr rfl
  | mixed segs =>
    refine .inl ?_
    simp only [writeToCache, writeSegments_empty segs 0 h]

end Write

/-! ### Rows of heads -/

/-- The columns of the slab have one head each, in strides of the heads. -/
theorem col_inj {stride r r' h h' : ℕ} (hh : h < stride) (hh' : h' < stride)
    (heq : r * stride + h = r' * stride + h') : r = r' ∧ h = h' := by
  have hdiv : ∀ {a b : ℕ}, b < stride → (a * stride + b) / stride = a := fun hb => by
    rw [Nat.mul_comm, Nat.mul_add_div (Nat.zero_lt_of_lt hb), Nat.div_eq_of_lt hb, Nat.add_zero]
  have hrow : r = r' := calc
    r = (r * stride + h) / stride := (hdiv hh).symm
    _ = (r' * stride + h') / stride := by rw [heq]
    _ = r' := hdiv hh'
  subst hrow
  exact ⟨rfl, Nat.add_left_cancel heq⟩

/-- The cells of `rows` batch rows of `heads` heads have `value` at the position `start` and on, and
no other cell has changed. -/
structure Stores (stride start sNew firstRow rows heads : ℕ) (value : ℕ → ℕ → ℕ → κ)
    (c c' : Cache κ) : Prop where
  shape : SameShape c c'
  stored : ∀ r < rows, ∀ h < heads, ∀ t < sNew,
    c'.cell? (start + t) ((firstRow + r) * stride + h) = some (value r h t)
  kept : ∀ s col, (∀ r < rows, ∀ h < heads, ∀ t < sNew,
      ¬(s = start + t ∧ col = (firstRow + r) * stride + h)) →
    c'.cell? s col = c.cell? s col

section Stores

variable {stride start sNew firstRow rows heads : ℕ} {value : ℕ → ℕ → ℕ → κ} {c c' : Cache κ}

theorem Stores.nil (h : rows = 0) : Stores stride start sNew firstRow rows heads value c c where
  shape := .refl c
  stored r hr := by omega
  kept _ _ _ := rfl

theorem Stores.cons {c₁ : Cache κ} (hheads : heads ≤ stride)
    (hfirst : Stores stride start sNew firstRow 1 heads value c c₁)
    (hrest : Stores stride start sNew (firstRow + 1) rows heads (fun r => value (r + 1)) c₁ c') :
    Stores stride start sNew firstRow (rows + 1) heads value c c' where
  shape := hfirst.shape.trans hrest.shape
  stored r hr h hh t ht := by
    cases r with
    | zero =>
      rw [hrest.kept _ _ fun r' _ h' hh' t' _ heq => ?_]
      · exact hfirst.stored 0 Nat.one_pos h hh t ht
      · have := (col_inj (Nat.lt_of_lt_of_le hh hheads) (Nat.lt_of_lt_of_le hh' hheads) heq.2).1
        omega
    | succ r =>
      rw [show firstRow + (r + 1) = firstRow + 1 + r by omega]
      exact hrest.stored r (by omega) h hh t ht
  kept s col hout := by
    rw [hrest.kept s col fun r hr h hh t ht heq => ?_, hfirst.kept s col fun r hr h hh t ht heq => ?_]
    · exact hout 0 (by omega) h hh t ht (by rwa [Nat.lt_one_iff.mp hr] at heq)
    · exact hout (r + 1) (by omega) h hh t ht 
        (by rwa [show firstRow + (r + 1) = firstRow + 1 + r by omega])

/-- A write of a range of columns, when the range is that of the rows. -/
theorem stores_of_cells {bhStart bhEnd : ℕ} (val : ℕ → ℕ → κ) (hshape : SameShape c c')
    (hcells : ∀ s col, c'.cell? s col = (c.cell? s col).map fun old =>
      if start ≤ s ∧ s < start + sNew ∧ bhStart ≤ col ∧ col < bhEnd then
        val (s - start) (col - bhStart)
      else old)
    (hfit : start + sNew ≤ c.seqLen) (hbh : bhEnd ≤ c.bh)
    (hcover : ∀ col, (bhStart ≤ col ∧ col < bhEnd) ↔
      ∃ r < rows, ∃ h < heads, col = (firstRow + r) * stride + h)
    (hval : ∀ r < rows, ∀ h < heads, ∀ t < sNew,
      val t ((firstRow + r) * stride + h - bhStart) = value r h t) :
    Stores stride start sNew firstRow rows heads value c c' where
  shape := hshape
  stored r hr h hh t ht := by
    have hcol := (hcover _).mpr ⟨r, hr, h, hh, rfl⟩
    obtain ⟨x, hx⟩ := cell?_isSome (c := c) (s := start + t) (by omega)
      (Nat.lt_of_lt_of_le hcol.2 hbh)
    rw [hcells, hx, Option.map_some, if_pos ⟨by omega, by omega, hcol⟩, Nat.add_sub_cancel_left,
      hval r hr h hh t ht]
  kept s col hout := by
    have hnot : ¬(start ≤ s ∧ s < start + sNew ∧ bhStart ≤ col ∧ col < bhEnd) := by
      rintro ⟨hs, hs', hcol⟩
      obtain ⟨r, hr, h, hh, rfl⟩ := (hcover col).mp hcol
      exact hout r hr h hh (s - start) (by omega) ⟨by omega, rfl⟩
    rw [hcells]
    simp only [if_neg hnot, Option.map_id']

theorem writeRows_ok {src : Block κ} (hheads : heads ≤ stride)
    (ht : Broadcasts (min sNew src.tokens) sNew) (n i : ℕ) {c : Cache κ}
    (hfit : start + sNew ≤ c.seqLen) (hrows : (firstRow + i + n) * stride ≤ c.bh)
    (hsrc : (i + n) * heads ≤ src.width) :
    ∃ c', writeRows stride heads (firstRow * stride) start sNew src n i c = (c', .ok ()) ∧
      Stores stride start sNew (firstRow + i) n heads
        (fun r h t => src.data (broadcastIndex (min sNew src.tokens) t) ((i + r) * heads + h))
        c c' := by
  induction n generalizing i c with
  | zero => exact ⟨c, rfl, .nil rfl⟩
  | succ n ih =>
    have hrow : (firstRow + i) * stride + stride ≤ c.bh := by
      rw [← Nat.succ_mul]
      exact Nat.le_trans (Nat.mul_le_mul_right _ (by omega)) hrows
    have htake : i * heads + heads ≤ src.width := by
      rw [← Nat.succ_mul]
      exact Nat.le_trans (Nat.mul_le_mul_right _ (by omega)) hsrc
    have htake' : Broadcasts (min sNew src.tokens) (min (start + sNew) c.seqLen - start) := by
      rwa [Nat.min_eq_left hfit, Nat.add_sub_cancel_left]
    obtain ⟨c₁, hwrite, hshape, hcells⟩ := writeToCache_ok
      (some ⟨sNew, i * heads, i * heads + heads⟩) (Option.getD_some ..) htake'
      (by rw [Nat.add_sub_cancel_left]) htake
      (show (firstRow + i) * stride + heads ≤ c.bh by omega)
    have hfirst : Stores stride start sNew (firstRow + i) 1 heads
        (fun r h t => src.data (broadcastIndex (min sNew src.tokens) t) ((i + r) * heads + h))
        c c₁ := by
      refine stores_of_cells
        (fun t col => src.data (broadcastIndex (min sNew src.tokens) t) (i * heads + col))
        hshape hcells hfit (by omega) (fun col => ?_) ?_
      · constructor
        · rintro ⟨hlo, hhi⟩
          exact ⟨0, Nat.one_pos, col - (firstRow + i) * stride, by omega,
            by rw [Nat.add_zero]; omega⟩
        · rintro ⟨r, hr, h, hh, rfl⟩
          rw [Nat.lt_one_iff.mp hr, Nat.add_zero]
          omega
      · intro r hr h hh t ht
        rw [Nat.lt_one_iff.mp hr, Nat.add_zero, Nat.add_zero, Nat.add_sub_cancel_left]
    obtain ⟨c', hrest, hstores⟩ := ih (i + 1) (c := c₁) (by rwa [hshape.seqLen])
      (by rw [hshape.bh, show firstRow + (i + 1) + n = firstRow + i + (n + 1) by omega]; exact hrows)
      (by rwa [show i + 1 + n = i + (n + 1) by omega])
    refine ⟨c', ?_, hfirst.cons hheads ?_⟩
    · rw [writeRows, ← Nat.add_mul]
      simp only [hwrite, hrest]
    · rw [show firstRow + (i + 1) = firstRow + i + 1 by omega] at hstores
      simpa only [show ∀ r, i + 1 + r = i + (r + 1) by omega] using hstores

/-- A write that takes the source as it is, when every row has all the heads. -/
theorem writeWhole_ok {src : Block κ} (ht : Broadcasts src.tokens sNew)
    (hfit : start + sNew ≤ c.seqLen) (hrows : (firstRow + rows) * stride ≤ c.bh)
    (hsrc : src.width = rows * stride) :
    ∃ c', writeToCache c start (start + sNew) (firstRow * stride)
        (firstRow * stride + rows * stride) src none = (c', .ok ()) ∧
      Stores stride start sNew firstRow rows stride
        (fun r h t => src.data (broadcastIndex src.tokens t) (r * stride + h)) c c' := by
  have htake : Broadcasts (min src.tokens src.tokens) (min (start + sNew) c.seqLen - start) := by
    rwa [Nat.min_self, Nat.min_eq_left hfit, Nat.add_sub_cancel_left]
  rw [Nat.add_mul] at hrows
  obtain ⟨c', hwrite, hshape, hcells⟩ := writeToCache_ok none (Option.getD_none ..) htake
    (show src.width = 0 + (firstRow * stride + rows * stride - firstRow * stride) by omega)
    (Nat.le_refl _) hrows
  rw [Nat.min_self] at hcells
  refine ⟨c', hwrite, stores_of_cells
    (fun t col => src.data (broadcastIndex src.tokens t) (0 + col)) hshape hcells hfit hrows
    (fun col => ?_) fun r hr h hh t ht => ?_⟩
  · constructor
    · rintro ⟨hlo, hhi⟩
      have hpos : 0 < stride := Nat.pos_of_ne_zero fun h0 => by
        rw [h0, Nat.mul_zero, Nat.mul_zero] at hhi
        omega
      refine ⟨(col - firstRow * stride) / stride, ?_, (col - firstRow * stride) % stride,
        Nat.mod_lt _ hpos, ?_⟩
      · exact (Nat.div_lt_iff_lt_mul hpos).mpr (by omega)
      · have := Nat.div_add_mod' (col - firstRow * stride) stride
        rw [Nat.add_mul]
        omega
    · rintro ⟨r, hr, h, hh, rfl⟩
      have := Nat.mul_le_mul_right stride (Nat.succ_le_of_lt hr)
      rw [Nat.succ_mul] at this
      rw [Nat.add_mul]
      omega
  · rw [Nat.add_mul, Nat.zero_add, show firstRow * stride + r * stride + h - firstRow * stride =
      r * stride + h by omega]

end Stores

/-! ### Reading the columns -/

/-- The parts of the segments from `segStart` on, behind what is already read. -/
theorem foldl_cat_readSegments {n lo hi : ℕ} (segs : List (Segment κ)) (segStart : ℕ) (x : Block κ)
    (hw : x.width = min hi (max lo segStart) - lo) :
    let y := (readSegments n lo hi segStart segs).foldl Block.cat x
    y.tokens = x.tokens ∧ y.width = min hi (max lo (segStart + totalWidth segs)) - lo ∧
      (∀ t, ∀ col < x.width, y.data t col = x.data t col) ∧
      ∀ t col, x.width ≤ col → col < y.width →
        cellOf segs t (lo + col - segStart) = some (y.data t col) := by
  induction segs generalizing segStart x with
  | nil => exact ⟨rfl, hw, fun _ _ _ => rfl, fun t col hle hlt => absurd hlt (Nat.not_lt.mpr hle)⟩
  | cons seg segs ih =>
    rw [readSegments]
    by_cases hover : max lo segStart < min hi (segStart + seg.width)
    · simp only [if_pos hover, List.foldl_cons]
      obtain ⟨htokens, hwidth, hkept, hrest⟩ := ih (segStart + seg.width) (x.cat
        ⟨n, min hi (segStart + seg.width) - max lo segStart,
          fun t c => seg.data t (max lo segStart - segStart + c)⟩) (by
          simp only [Block.cat]; omega)
      simp only [Block.cat] at htokens hwidth hkept hrest ⊢
      refine ⟨htokens, by rw [hwidth, totalWidth, Nat.add_assoc], fun t col hcol => ?_,
        fun t col hle hlt => ?_⟩
      · rw [hkept t col (by omega), if_pos hcol]
      · rw [cellOf]
        by_cases hc : lo + col - segStart < seg.width
        · rw [if_pos hc, hkept t col (by omega), if_neg (by omega)]
          congr 2
          omega
        · rw [if_neg hc, ← hrest t col (by omega) hlt]
          congr 1
          omega
    · simp only [if_neg hover]
      obtain ⟨htokens, hwidth, hkept, hrest⟩ := ih (segStart + seg.width) x (by omega)
      refine ⟨htokens, by rw [hwidth, totalWidth, Nat.add_assoc], hkept, fun t col hle hlt => ?_⟩
      rw [cellOf, if_neg (by omega), ← hrest t col hle hlt]
      congr 1
      omega

theorem readSegments_tokens {n lo hi : ℕ} (segs : List (Segment κ)) (segStart : ℕ) {part : Block κ}
    (h : part ∈ readSegments n lo hi segStart segs) : part.tokens = n := by
  induction segs generalizing segStart with
  | nil => cases h
  | cons seg segs ih =>
    simp only [readSegments] at h
    split_ifs at h with hover
    · rcases List.mem_cons.mp h with rfl | h
      · rfl
      · exact ih _ h
    · exact ih _ h

theorem cat_empty (x : Block κ) : Block.cat ⟨x.tokens, 0, x.data⟩ x = x := by
  simp [Block.cat]

theorem read_ok {c : Cache κ} {n lo hi : ℕ} (hlt : lo < hi) (hhi : hi ≤ c.bh) :
    ∃ x, c.read n lo hi = .ok x ∧ x.tokens = n ∧ x.width = hi - lo ∧
      ∀ t < c.seqLen, ∀ col < hi - lo, c.cell? t (lo + col) = some (x.data t col) := by
  obtain ⟨seqLen, d, storage⟩ := c
  cases storage with
  | whole seg =>
    have hhi : hi ≤ seg.width := hhi
    refine ⟨_, rfl, rfl, by rw [Nat.min_eq_left hhi], fun t ht col hcol => ?_⟩
    simp only [Cache.cell?, Storage.segments, cellOf]
    rw [if_pos ht, if_pos (by omega)]
  | mixed segs =>
    have hhi : hi ≤ totalWidth segs := hhi
    have hspan (x : Block κ) (hx : x.width = 0) := foldl_cat_readSegments (n := n) segs 0 x
      (show x.width = min hi (max lo 0) - lo by omega)
    cases hparts : readSegments n lo hi 0 segs with
    | nil =>
      obtain ⟨x, -⟩ := cellOf_isSome (s := 0) (Nat.lt_of_lt_of_le hlt hhi)
      have hwidth := (hspan ⟨n, 0, fun _ _ => x⟩ rfl).2.1
      rw [hparts, List.foldl_nil] at hwidth
      simp only at hwidth
      omega
    | cons part parts =>
      obtain ⟨htokens, hwidth, -, hcells⟩ := hspan ⟨part.tokens, 0, part.data⟩ rfl
      rw [hparts, List.foldl_cons, cat_empty] at htokens hwidth hcells
      have hpart : part ∈ readSegments n lo hi 0 segs := by
        rw [hparts]
        exact List.mem_cons_self
      have hn : part.tokens = n := readSegments_tokens segs 0 hpart
      refine ⟨parts.foldl Block.cat part, by simp only [Cache.read, hparts],
        htokens.trans hn, by omega, fun t ht col hcol => ?_⟩
      simp only [Cache.cell?, Storage.segments]
      rw [if_pos ht, ← hcells t col (Nat.zero_le _) (by omega), Nat.sub_zero]

theorem select_ok {cfg : BlockConfig} {p : KVMultiplex.Policy} {c : Cache κ} {mb : MicroBatch}
    {heads n row rows : ℕ} (hcfg : cfg.numAttentionHeads = some heads) (hheads : 0 < heads)
    (hn : 0 < n) (hfit : n ≤ c.seqLen) (hpos : 0 < rows)
    (hrange : c.readRange heads p mb = (row * heads, row * heads + rows * heads))
    (hbh : (row + rows) * heads ≤ c.bh) :
    ∃ pkv, c.select cfg p n mb = .ok (some pkv) ∧ pkv.batch = rows ∧ pkv.heads = heads ∧
      pkv.len = n ∧ pkv.d = c.d ∧ ∀ r < rows, ∀ h < heads, ∀ s < n,
        c.cell? s ((row + r) * heads + h) = some (pkv.cell r h s) := by
  have hspan : 0 < rows * heads := Nat.mul_pos hpos hheads
  rw [Nat.add_mul] at hbh
  obtain ⟨x, hread, htokens, hwidth, hcells⟩ :=
    read_ok (n := n) (Nat.lt_add_of_pos_right hspan) hbh
  rw [Nat.add_sub_cancel_left] at hwidth hcells
  have hwide : ¬x.width < heads := by
    rw [hwidth, Nat.not_lt]
    exact Nat.le_mul_of_pos_left heads hpos
  have hmod : ¬x.width % heads ≠ 0 := by rw [hwidth, Nat.mul_mod_left]; exact not_not.mpr rfl
  refine ⟨⟨rows, heads, n, c.d, fun b h s => x.data s (b * heads + h)⟩, ?_, rfl, rfl, rfl, rfl,
    fun r hr h hh s hs => ?_⟩
  · simp only [Cache.select, hcfg, Option.getD_some, hrange, hread, if_neg hn.ne',
      if_neg (Nat.not_lt.mpr hfit), if_neg hheads.ne', toPkv, if_neg hwide, if_neg hmod, htokens,
      Except.map]
    rw [hwidth, Nat.mul_div_cancel _ hheads]
  · have hcol : r * heads + h < rows * heads := by
      have := Nat.mul_le_mul_right heads (Nat.succ_le_of_lt hr)
      rw [Nat.succ_mul] at this
      omega
    rw [Nat.add_mul, Nat.add_assoc]
    exact hcells s (by omega) _ hcol

/-- A slot that has the micro-batch is read as it is. -/
theorem selectCache_held {cfg : BlockConfig} {p : KVMultiplex.Policy} {st : Staging κ} {c : Cache κ}
    {mb : MicroBatch} {heads n : ℕ} (hcfg : cfg.numAttentionHeads = some heads)
    (hheld : c.Multiplexing heads mb → st.Holds (c.slot heads p mb) (mb.index p)) :
    selectCache cfg p st c n mb = ((st, c), c.select cfg p n mb) := by
  simp only [selectCache, hcfg, Option.getD_some]
  rw [if_neg fun h => h.2.2.2.2.2 (hheld h.2.2.2.2.1)]

/-! ### `_write_kvs` -/

section WriteKvs

variable {α : Type} {cfg : BlockConfig} {p : KVMultiplex.Policy} {c : Cache (Cell α)}
  {mb : MicroBatch} {new : NewKvs α}

theorem unpack_tensors {d : ℕ} (h : new.d = d) : unpack d (tensors new) = .ok new := by
  simp only [unpack, tensors, ne_eq, not_true_eq_false, if_false, h]
  subst h
  rfl

def firstRow (cfg : BlockConfig) (p : KVMultiplex.Policy) (c : Cache (Cell α)) (mb : MicroBatch) :
    ℕ :=
  KVMultiplex.writeBatchStart (c.batch cfg.attentionHeads) mb.batchOffset mb.fullBatchSize
    (c.slot cfg.attentionHeads p mb)

theorem SameShape.firstRow {c' : Cache (Cell α)} (h : SameShape c c') (mb : MicroBatch) :
    firstRow cfg p c' mb = firstRow cfg p c mb := by
  simp only [KVSlab.firstRow, Cache.slot, h.batch]

/-- The assertions hold, and the rows of the source are rows of the slab. -/
structure Accepts (cfg : BlockConfig) (p : KVMultiplex.Policy) (c : Cache (Cell α))
    (mb : MicroBatch) (new : NewKvs α) : Prop where
  attentionHeads : 0 < cfg.attentionHeads
  headDim : new.d = c.d
  divisible : new.bh % mb.sourceHeads cfg new.bh = 0
  rows : firstRow cfg p c mb + new.bh / mb.sourceHeads cfg new.bh ≤ c.batch cfg.attentionHeads

theorem sourceHeads_le (mb : MicroBatch) (bh : ℕ) (h : 0 < cfg.attentionHeads) :
    mb.sourceHeads cfg bh ≤ cfg.attentionHeads := by
  simp only [MicroBatch.sourceHeads, sourceHeadsPerBatch]
  split_ifs <;> omega

theorem Accepts.bh_eq (h : Accepts cfg p c mb new) :
    new.bh = new.bh / mb.sourceHeads cfg new.bh * mb.sourceHeads cfg new.bh :=
  (Nat.div_mul_cancel (Nat.dvd_of_mod_eq_zero h.divisible)).symm

theorem Accepts.columns (h : Accepts cfg p c mb new) :
    (firstRow cfg p c mb + new.bh / mb.sourceHeads cfg new.bh) * cfg.attentionHeads ≤ c.bh :=
  Nat.le_trans (Nat.mul_le_mul_right _ h.rows) (Nat.div_mul_le_self _ _)

theorem writeRange_eq (h : Accepts cfg p c mb new) :
    c.writeRange cfg.attentionHeads p mb (new.bh / mb.sourceHeads cfg new.bh * cfg.attentionHeads) =
      .ok (firstRow cfg p c mb * cfg.attentionHeads,
        firstRow cfg p c mb * cfg.attentionHeads +
          new.bh / mb.sourceHeads cfg new.bh * cfg.attentionHeads) := by
  have hcolumns := h.columns
  rw [Nat.add_mul] at hcolumns
  simp only [firstRow, KVMultiplex.writeBatchStart, Cache.writeRange] at hcolumns ⊢
  rcases Nat.eq_zero_or_pos mb.fullBatchSize with h0 | hfull
  · rw [if_pos h0, Nat.zero_mul, Nat.zero_add] at hcolumns
    rw [if_neg (by omega), if_pos hcolumns, if_pos h0, Nat.zero_mul, Nat.zero_add]
  · rw [if_neg hfull.ne'] at hcolumns ⊢
    rw [if_pos hfull]
    by_cases hmux : c.Multiplexing cfg.attentionHeads mb
    · rw [if_pos hmux, if_pos (show c.batch cfg.attentionHeads < mb.fullBatchSize from hmux)]
    · have hle : ¬c.batch cfg.attentionHeads < mb.fullBatchSize := hmux
      rw [if_neg hle] at hcolumns ⊢
      rw [if_neg hmux, Nat.min_eq_left hcolumns]

theorem writeKvs_eq (h : Accepts cfg p c mb new) (startPosition : ℤ) :
    writeKvs cfg p c startPosition mb (tensors new) =
      let placed := place c.seqLen startPosition (block new)
      let rows := new.bh / mb.sourceHeads cfg new.bh
      let bhStart := firstRow cfg p c mb * cfg.attentionHeads
      if mb.sourceHeads cfg new.bh < cfg.attentionHeads then
        writeRows cfg.attentionHeads (mb.sourceHeads cfg new.bh) bhStart placed.1 placed.2.1 placed.2.2 rows
          0 c
      else writeToCache c placed.1 (placed.1 + placed.2.1) bhStart
        (bhStart + rows * cfg.attentionHeads) placed.2.2 none := by
  have hspan : (if mb.sourceHeads cfg new.bh < cfg.attentionHeads then
      new.bh / mb.sourceHeads cfg new.bh * cfg.attentionHeads else new.bh) =
      new.bh / mb.sourceHeads cfg new.bh * cfg.attentionHeads := by
    split_ifs with hlt
    · rfl
    · have hall : mb.sourceHeads cfg new.bh = cfg.attentionHeads :=
        Nat.le_antisymm (sourceHeads_le mb new.bh h.attentionHeads) (Nat.le_of_not_lt hlt)
      rw [← hall, ← h.bh_eq]
  have hrange := writeRange_eq h
  have hdivisible : ¬new.bh % mb.sourceHeads cfg new.bh ≠ 0 := not_not.mpr h.divisible
  simp only [writeKvs, if_neg h.attentionHeads.ne', unpack_tensors h.headDim, if_neg hdivisible,
    hspan, hrange]

theorem place_width (seqLen : ℕ) (startPosition : ℤ) (src : Block (Cell α)) :
    (place seqLen startPosition src).2.2.width = src.width := by
  simp only [place, Block.last]
  split_ifs <;> rfl

/-- How many tokens of the source a copy takes: a row takes no more than the destination has. -/
def taken (cfg : BlockConfig) (mb : MicroBatch) (new : NewKvs α) (n tokens : ℕ) : ℕ :=
  if mb.sourceHeads cfg new.bh < cfg.attentionHeads then min n tokens else tokens

theorem taken_of_le {n tokens : ℕ} (h : tokens ≤ n) : taken cfg mb new n tokens = tokens := by
  rw [taken, Nat.min_eq_right h, ite_self]

section Placed

variable {startPosition : ℤ} {start n : ℕ} {src : Block (Cell α)}

theorem writeKvs_stores (h : Accepts cfg p c mb new)
    (hplace : place c.seqLen startPosition (block new) = (start, n, src))
    (hfit : start + n ≤ c.seqLen) (ht : Broadcasts (taken cfg mb new n src.tokens) n) :
    ∃ c', writeKvs cfg p c startPosition mb (tensors new) = (c', .ok ()) ∧
      Stores cfg.attentionHeads start n (firstRow cfg p c mb) (new.bh / mb.sourceHeads cfg new.bh)
        (mb.sourceHeads cfg new.bh) (fun r h t =>
          src.data (broadcastIndex (taken cfg mb new n src.tokens) t)
            (r * mb.sourceHeads cfg new.bh + h)) c c' := by
  have hwidth : src.width = new.bh := by
    have := place_width c.seqLen startPosition (block new)
    rwa [hplace] at this
  have hcolumns := h.columns
  rw [writeKvs_eq h, hplace]
  by_cases hlt : mb.sourceHeads cfg new.bh < cfg.attentionHeads
  · simp only [taken, if_pos hlt] at ht ⊢
    obtain ⟨c', hwrite, hstores⟩ := writeRows_ok (Nat.le_of_lt hlt) ht
      (new.bh / mb.sourceHeads cfg new.bh) 0 hfit hcolumns
      (by rw [Nat.zero_add, ← h.bh_eq, hwidth])
    simp only [Nat.zero_add, Nat.add_zero] at hstores
    exact ⟨c', hwrite, hstores⟩
  · have hall : mb.sourceHeads cfg new.bh = cfg.attentionHeads :=
      Nat.le_antisymm (sourceHeads_le mb new.bh h.attentionHeads) (Nat.le_of_not_lt hlt)
    simp only [taken, if_neg hlt] at ht ⊢
    have hsrc := hwidth.trans h.bh_eq
    rw [hall] at hsrc hcolumns ⊢
    exact writeWhole_ok ht hfit hcolumns hsrc

theorem writeKvs_error (h : Accepts cfg p c mb new)
    (hplace : place c.seqLen startPosition (block new) = (start, n, src))
    (hfit : start + n ≤ c.seqLen) (ht : ¬Broadcasts (taken cfg mb new n src.tokens) n)
    (hrows : 0 < new.bh / mb.sourceHeads cfg new.bh) :
    writeKvs cfg p c startPosition mb (tensors new) = (c, .error .runtimeError) := by
  have hwidth : src.width = new.bh := by
    have := place_width c.seqLen startPosition (block new)
    rwa [hplace] at this
  have hcolumns := h.columns
  have hbh := h.bh_eq
  have hheads : 0 < mb.sourceHeads cfg new.bh := Nat.pos_of_ne_zero fun h0 => by
    rw [h0, Nat.div_zero] at hrows
    exact Nat.lt_irrefl 0 hrows
  have hlen : min (start + n) c.seqLen - start = n := by omega
  rw [Nat.add_mul] at hcolumns
  rw [writeKvs_eq h, hplace]
  obtain ⟨rows, hr⟩ := Nat.exists_eq_succ_of_ne_zero hrows.ne'
  rw [hr] at hbh hcolumns ⊢
  rw [Nat.succ_mul] at hbh hcolumns
  have hle := sourceHeads_le mb new.bh h.attentionHeads
  by_cases hlt : mb.sourceHeads cfg new.bh < cfg.attentionHeads
  · simp only [taken, if_pos hlt] at ht ⊢
    simp only [writeRows, Nat.zero_mul, Nat.zero_add, Nat.add_zero]
    rw [writeToCache_error (some ⟨n, 0, mb.sourceHeads cfg new.bh⟩) (Option.getD_some ..)
      (by rwa [hlen]) (by omega) (by omega) (by simp only; omega)]
  · simp only [taken, if_neg hlt] at ht ⊢
    rw [writeToCache_error none (Option.getD_none ..) (by rwa [hlen, Nat.min_self])
      (Nat.lt_add_of_pos_right (Nat.mul_pos (Nat.succ_pos _) h.attentionHeads))
      (by rw [Nat.succ_mul]; omega) (Nat.le_refl _)]

theorem writeKvs_noRows (h : Accepts cfg p c mb new) (startPosition : ℤ)
    (hrows : new.bh / mb.sourceHeads cfg new.bh = 0) :
    (writeKvs cfg p c startPosition mb (tensors new)).2 = .ok () ∨
      writeKvs cfg p c startPosition mb (tensors new) = (c, .error .runtimeError) := by
  rw [writeKvs_eq h, hrows]
  simp only [Nat.zero_mul, Nat.add_zero]
  split_ifs with hlt
  · exact .inl rfl
  · exact writeToCache_empty none (Nat.le_refl _)

theorem writeKvs_refused (startPosition : ℤ)
    (hrows : firstRow cfg p c mb + new.bh / mb.sourceHeads cfg new.bh ≤
      c.batch cfg.attentionHeads) (h : ¬Accepts cfg p c mb new) :
    ∃ e, writeKvs cfg p c startPosition mb (tensors new) = (c, .error e) := by
  by_cases hheads : cfg.attentionHeads = 0
  · exact ⟨_, if_pos hheads⟩
  by_cases hd : new.d = c.d
  · have hmod : new.bh % mb.sourceHeads cfg new.bh ≠ 0 := fun hmod =>
      h ⟨Nat.pos_of_ne_zero hheads, hd, hmod, hrows⟩
    simp only [writeKvs, if_neg hheads, unpack_tensors hd, if_pos hmod]
    exact ⟨_, rfl⟩
  · have hunpack : unpack c.d (tensors new) = .error (.headDim new.d c.d) := by
      simp only [unpack, tensors, ne_eq, not_true_eq_false, if_false, if_pos hd]
    simp only [writeKvs, if_neg hheads, hunpack]
    exact ⟨_, rfl⟩

end Placed

end WriteKvs

end BloomBee.KVSlab

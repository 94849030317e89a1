import BloomBee.Sanity.KVSlab
import BloomBee.Spec.KVBatched

/-! What the loop over the batch rows does to the cells, where `general_copy` puts the columns of a
row where they belong. -/

set_option autoImplicit false

namespace BloomBee.KVSlab

open PagedKV (BlockConfig NewKvs)
open PagedKV.PagedKVTable (Broadcasts broadcastIndex)

variable {α κ : Type}

/-! ### One copy -/

/-- What `cut_indices` makes of the columns from `lo` to `hi` in each segment is the part that is in
it. A segment with columns of theirs is the first, or `lo` is zero and so the source is cut at the same
columns; behind them the cut is empty at `hi`, or in a segment no wider than its distance from
there. -/
def LandsIn (lo hi : ℕ) : ℕ → List ℕ → Prop
  | _, [] => True
  | segStart, width :: widths =>
    (width = 0 ∨
      if segStart < hi then lo = 0 ∨ segStart = 0 ∧ hi ≤ width
      else hi = segStart ∨ width ≤ segStart - hi) ∧
    LandsIn lo hi (segStart + width) widths

def Cache.layout (c : Cache κ) : Option (List ℕ) :=
  match c.storage with
  | .whole _ => none
  | .mixed segments => some (segments.map Segment.width)

/-- `general_copy` puts the columns from `lo` to `hi` where they belong. -/
def Cache.Lands (c : Cache κ) (lo hi : ℕ) : Prop := ∀ widths ∈ c.layout, LandsIn lo hi 0 widths

theorem totalWidth_eq {segs segs' : List (Segment κ)}
    (h : segs'.map Segment.width = segs.map Segment.width) : totalWidth segs' = totalWidth segs := by
  induction segs generalizing segs' with
  | nil => rw [List.map_eq_nil_iff.mp h]
  | cons seg segs ih =>
    obtain ⟨seg', segs', rfl, hw, hrest⟩ := List.map_eq_cons_iff.mp h
    rw [totalWidth, totalWidth, hw, ih hrest]

section Copy

variable (merge : Merge κ) {seqLen d dSrc start stop lo hi : ℕ} {src : Block κ}

theorem copyPart_ok (x : Segment κ) (ht : Broadcasts src.tokens (min stop seqLen - start))
    (hw : src.width = hi - lo) (hd : dSrc = d) :
    ∃ x', x.copyPart merge seqLen d dSrc start stop lo hi src = .ok x' ∧ x'.width = x.width ∧
      ∀ s c, x'.data s c =
        if start ≤ s ∧ s < min stop seqLen ∧ lo ≤ c ∧ c < hi then
          merge dSrc (x.data s c) (src.data (broadcastIndex src.tokens (s - start)) (c - lo))
        else x.data s c := by
  have hnumbers : dSrc = min dSrc d := by rw [hd, Nat.min_self]
  refine ⟨_, if_pos ⟨ht, .inl hw, .inl hnumbers⟩, rfl, fun s c => ?_⟩
  split_ifs with hin
  · have hcol : c - lo < src.width := by omega
    simp only [if_pos hin, broadcastIndex_of_lt hcol]
  · simp only [if_neg hin]

/-- The columns of the cut of a segment, and those of the source that are copied to them. -/
theorem cut_ok {segStart width : ℕ}
    (hlands : if segStart < hi then lo = 0 ∨ segStart = 0 ∧ hi ≤ width
      else hi = segStart ∨ width ≤ segStart - hi) :
    ∃ a b, pySlice width (max lo segStart - segStart)
        ((min hi (segStart + width) : ℕ) - segStart) = (a, b) ∧
      min (hi - lo) (segStart + width) - segStart = b - a ∧
      ∀ col < width, (a ≤ col ∧ col < b ↔ lo ≤ segStart + col ∧ segStart + col < hi) ∧
        (a ≤ col → col < b → segStart + (col - a) = segStart + col - lo) := by
  by_cases hbefore : segStart < hi
  · rw [if_pos hbefore] at hlands
    have hstop : ((min hi (segStart + width) : ℕ) - segStart : ℤ) =
        (min hi (segStart + width) - segStart : ℕ) := by omega
    refine ⟨max lo segStart - segStart, min hi (segStart + width) - segStart, ?_, by omega,
      fun col hcol => ⟨by omega, by omega⟩⟩
    rw [pySlice, hstop, if_neg (by omega), Int.toNat_natCast, Nat.min_eq_left (by omega)]
  · rw [if_neg hbefore] at hlands
    -- the segment is behind the columns, and its slice is empty
    have hcut : min hi (segStart + width) = hi := Nat.min_eq_left (by omega)
    refine ⟨max lo segStart - segStart, 0, ?_, by omega, fun col hcol => ⟨by omega, by omega⟩⟩
    rw [pySlice, hcut]
    refine Prod.ext rfl ?_
    rcases (Nat.le_of_not_lt hbefore).lt_or_eq with hlt | heq
    · have hout : width ≤ segStart - hi := hlands.resolve_left hlt.ne
      simp only [if_pos (show (hi : ℤ) - segStart < 0 by omega)]
      omega
    · simp [heq]

theorem copySegments_ok (ht : Broadcasts src.tokens (min stop seqLen - start)) (hd : dSrc = d)
    (hw : src.width = hi - lo) (segs : List (Segment κ)) (segStart : ℕ)
    (hlands : LandsIn lo hi segStart (segs.map Segment.width)) :
    ∃ segs', copySegments merge seqLen d dSrc start stop lo hi src segStart segs =
        (segs', .ok ()) ∧ segs'.map Segment.width = segs.map Segment.width ∧
      ∀ s col, cellOf segs' s col = (cellOf segs s col).map fun old =>
        if start ≤ s ∧ s < min stop seqLen ∧ lo ≤ segStart + col ∧ segStart + col < hi then
          merge dSrc old (src.data (broadcastIndex src.tokens (s - start)) (segStart + col - lo))
        else old := by
  induction segs generalizing segStart with
  | nil => exact ⟨[], rfl, rfl, fun _ _ => rfl⟩
  | cons seg segs ih =>
    rw [List.map_cons, LandsIn] at hlands
    obtain ⟨hseg, hrest⟩ := hlands
    obtain ⟨segs', hcopy, hwidths, hcells⟩ := ih (segStart + seg.width) hrest
    rw [copySegments]
    by_cases h0 : seg.width = 0
    · rw [if_pos h0, hcopy]
      refine ⟨_, rfl, by rw [List.map_cons, List.map_cons, hwidths], fun s col => ?_⟩
      rw [cellOf, cellOf, h0, if_neg (Nat.not_lt_zero col), if_neg (Nat.not_lt_zero col),
        Nat.sub_zero, hcells, h0, Nat.add_zero]
    · obtain ⟨a, b, hcols, hcut, hin⟩ := cut_ok (hseg.resolve_left h0)
      have hslice : (src.slice src.tokens segStart (min src.width (segStart + seg.width))).width =
          b - a := by
        rw [← hcut, ← hw]
        simp only [Block.slice]
        omega
      obtain ⟨seg', hpart, hw', hdata⟩ := copyPart_ok merge seg
        (by rw [slice_tokens]; exact ht) hslice hd
      rw [if_neg h0]
      simp only [hcols, hpart, hcopy]
      refine ⟨_, rfl, by rw [List.map_cons, List.map_cons, hw', hwidths], fun s col => ?_⟩
      rw [cellOf, cellOf, hw']
      by_cases hc : col < seg.width
      · obtain ⟨hiff, hsource⟩ := hin col hc
        rw [if_pos hc, if_pos hc, Option.map_some, hdata]
        refine congrArg some (if_ctx_congr (by rw [hiff]) (fun hlands => ?_) fun _ => rfl)
        have hcol := hiff.mpr hlands.2.2
        simp only [Block.slice, Nat.min_self, hsource hcol.1 hcol.2]
      · have hcol : segStart + seg.width + (col - seg.width) = segStart + col := by omega
        rw [if_neg hc, if_neg hc, hcells, hcol]

end Copy

theorem generalCopy_ok (merge : Merge κ) {c : Cache κ} {start stop lo hi : ℕ} {src : Block κ}
    (hlands : c.Lands lo hi) (ht : src.tokens = stop - start) (hstop : stop ≤ c.seqLen)
    (hw : src.width = hi - lo) (hbh : hi ≤ c.bh) :
    ∃ c', generalCopy merge c.d c start stop lo hi src = (c', .ok ()) ∧ SameShape c c' ∧
      c'.layout = c.layout ∧ ∀ s col, c'.cell? s col = (c.cell? s col).map fun old =>
        if start ≤ s ∧ s < stop ∧ lo ≤ col ∧ col < hi then
          merge c.d old (src.data (s - start) (col - lo))
        else old := by
  obtain ⟨seqLen, d, storage⟩ := c
  have hmin : min stop seqLen = stop := Nat.min_eq_left hstop
  have htokens : Broadcasts src.tokens (min stop seqLen - start) := .inl (by rw [ht, hmin])
  have hindex : ∀ s, start ≤ s → s < stop → broadcastIndex src.tokens (s - start) = s - start :=
    fun s hs hs' => broadcastIndex_of_lt (by omega)
  cases storage with
  | whole seg =>
    have hcols : pySlice seg.width lo (hi : ℤ) = (lo, hi) := by
      have hle : hi ≤ seg.width := hbh
      rw [pySlice, if_neg (by omega), Int.toNat_natCast, Nat.min_eq_left hle]
    obtain ⟨seg', hpart, hw', hdata⟩ := copyPart_ok merge seg htokens hw
      (rfl : d = d)
    simp only [generalCopy, hcols, hpart]
    refine ⟨_, rfl, ⟨rfl, rfl, congrArg (· + 0) hw'⟩, rfl, fun s col => ?_⟩
    simp only [Cache.cell?, Storage.segments, cellOf, hw']
    by_cases hs : s < seqLen
    · rw [if_pos hs, if_pos hs]
      by_cases hcol : col < seg.width
      · rw [if_pos hcol, if_pos hcol, Option.map_some, hdata, hmin]
        refine congrArg some (ite_congr rfl (fun hin => ?_) fun _ => rfl)
        rw [hindex s hin.1 hin.2.1]
      · rw [if_neg hcol, if_neg hcol, Option.map_none]
    · rw [if_neg hs, if_neg hs, Option.map_none]
  | mixed segs =>
    obtain ⟨segs', hcopy, hwidths, hcells⟩ := copySegments_ok merge htokens
      (rfl : d = d) hw segs 0 (hlands _ rfl)
    simp only [Nat.zero_add] at hcells
    simp only [generalCopy, hcopy]
    refine ⟨_, rfl, ⟨rfl, rfl, totalWidth_eq hwidths⟩, congrArg some hwidths, fun s col => ?_⟩
    simp only [Cache.cell?, Storage.segments]
    by_cases hs : s < seqLen
    · rw [if_pos hs, if_pos hs, hcells, hmin]
      refine congrArg (Option.map · _) (funext fun old => ite_congr rfl (fun hin => ?_) fun _ => rfl)
      rw [hindex s hin.1 hin.2.1]
    · rw [if_neg hs, if_neg hs, Option.map_none]

/-! ### The loop -/

/-- The numbers of a cell, of the key and of the value. -/
def Cache.number? (c : Cache (Cell α)) (s col e : ℕ) : Option (α × α) :=
  (c.cell? s col).map fun x => (x.key e, x.value e)

/-- The numbers that token `t` has for a column. -/
def newNumber (new : NewKvs α) (col t e : ℕ) : α × α := (new.key col e t, new.value col t e)

/-- The token that the loop puts at a position of a row. -/
def loopToken (seqLen sNew start s : ℕ) : Option ℕ :=
  if start ≤ s ∧ s < min (start + sNew) seqLen then some (s - start) else none

section Loop

variable {c : Cache (Cell α)} {new : NewKvs α} {heads i start : ℕ}

theorem copyRow_ok (hd : new.d = c.d)
    (hlt : start < min (start + new.sNew) c.seqLen) (hbh : (i + 1) * heads ≤ c.bh)
    (hnew : (i + 1) * heads ≤ new.bh) (hlands : c.Lands (i * heads) ((i + 1) * heads)) :
    let stop := min (start + new.sNew) c.seqLen
    let batch := (block new).slice (stop - start) (i * heads) ((i + 1) * heads)
    ∃ c₁ c₂, generalCopy Cell.setKey new.d c start stop (i * heads) ((i + 1) * heads) batch =
        (c₁, .ok ()) ∧
      generalCopy Cell.setValue new.d c₁ start stop (i * heads) ((i + 1) * heads) batch =
        (c₂, .ok ()) ∧
      SameShape c c₂ ∧ c₂.layout = c.layout ∧
      ∀ s j h e, h < heads → e < c.d → c₂.number? s (j * heads + h) e =
        if j = i then (loopToken c.seqLen new.sNew start s).elim (c.number? s (j * heads + h) e)
          fun t => some (newNumber new (j * heads + h) t e)
        else c.number? s (j * heads + h) e := by
  intro stop batch
  have htokens : batch.tokens = stop - start := by
    simp only [batch, Block.slice, block]
    omega
  have hwidth : batch.width = (i + 1) * heads - i * heads := by
    simp only [batch, Block.slice, block, Nat.min_eq_left hnew]
  have hdata : ∀ t col, i * heads ≤ col →
      batch.data t (col - i * heads) = (block new).data t col := by
    intro t col hcol
    simp only [batch, Block.slice, Nat.add_sub_cancel' hcol]
  have hstop : stop ≤ c.seqLen := Nat.min_le_right _ _
  obtain ⟨c₁, hkey, hshape, hlayout, hcells⟩ := generalCopy_ok Cell.setKey hlands htokens
    hstop hwidth hbh
  have hlands₁ : c₁.Lands (i * heads) ((i + 1) * heads) := fun widths hwidths => hlands widths (hlayout ▸ hwidths)
  obtain ⟨c₂, hvalue, hshape', hlayout', hcells'⟩ := generalCopy_ok Cell.setValue hlands₁
    htokens (hshape.seqLen ▸ hstop) hwidth (hshape.bh ▸ hbh)
  rw [hshape.d] at hvalue hcells'
  refine ⟨c₁, c₂, hd ▸ hkey, hd ▸ hvalue, hshape.trans hshape', hlayout'.trans hlayout, ?_⟩
  intro s j h e hh he
  -- the columns of row `i`, among those of all rows
  have hrow : (i * heads ≤ j * heads + h ∧ j * heads + h < (i + 1) * heads) ↔ j = i := by
    constructor
    · intro hin
      have hcol : j * heads + h = i * heads + (j * heads + h - i * heads) := by omega
      rw [Nat.add_mul, Nat.one_mul] at hin
      exact (col_inj hh (by omega) hcol).1
    · rintro rfl
      rw [Nat.add_mul, Nat.one_mul]
      omega
  have hin : (start ≤ s ∧ s < stop ∧ i * heads ≤ j * heads + h ∧
      j * heads + h < (i + 1) * heads) ↔ j = i ∧ start ≤ s ∧ s < stop := by
    rw [hrow]
    tauto
  rw [Cache.number?, hcells', hcells, Option.map_map, Option.map_map]
  by_cases hcell : j = i ∧ start ≤ s ∧ s < stop
  · obtain ⟨rfl, hs⟩ := hcell
    obtain ⟨x, hx⟩ : ∃ x, c.cell? s (j * heads + h) = some x :=
      cell?_isSome (hs.2.trans_le hstop) ((hrow.mpr rfl).2.trans_le hbh)
    have htoken : loopToken c.seqLen new.sNew start s = some (s - start) := if_pos hs
    rw [if_pos rfl, htoken, Option.elim_some, hx, Option.map_some]
    simp only [Function.comp_apply, if_pos (hin.mpr ⟨rfl, hs⟩), Cell.setKey, Cell.setValue,
      if_pos he, hdata _ _ (hrow.mpr rfl).1]
    rfl
  · have hsame : (if j = i then (loopToken c.seqLen new.sNew start s).elim
        (c.number? s (j * heads + h) e) fun t => some (newNumber new (j * heads + h) t e)
        else c.number? s (j * heads + h) e) = c.number? s (j * heads + h) e := by
      split_ifs with hj
      · have htoken : loopToken c.seqLen new.sNew start s = none :=
          if_neg fun hs => hcell ⟨hj, hs⟩
        rw [htoken, Option.elim_none]
      · rfl
    rw [hsame, Cache.number?]
    simp only [Function.comp_def, if_neg (mt hin.mp hcell)]

/-- Each row takes the tokens that it has room for, up to where the lengths end. -/
theorem updateRows_spec (kvValidLengths : List ℕ) (n : ℕ)
    (hd : new.d = c.d) (hbh : (i + n) * heads ≤ c.bh) (hnew : (i + n) * heads ≤ new.bh)
    (hlands : ∀ j start, i ≤ j → j < i + n → kvValidLengths[j]? = some start →
      start < min (start + new.sNew) c.seqLen → c.Lands (j * heads) ((j + 1) * heads)) :
    ∀ j start, kvValidLengths[j]? = some start → ∀ s h e, h < heads → e < c.d →
      (updateRows heads kvValidLengths new n i c).1.number? s (j * heads + h) e =
        if i ≤ j ∧ j < i + n then
          (loopToken c.seqLen new.sNew start s).elim (c.number? s (j * heads + h) e)
            fun t => some (newNumber new (j * heads + h) t e)
        else c.number? s (j * heads + h) e := by
  induction n generalizing i c with
  | zero =>
    intro j start hj s h e hh he
    rw [updateRows, if_neg (by omega)]
  | succ n ih =>
    intro j start hj s h e hh he
    have hsucc : i + 1 + n = i + (n + 1) := by omega
    rcases hi : kvValidLengths[i]? with - | startPos
    · -- the lengths end before this row, and so before all that follow
      have hlt : j < i := by
        have hlen := List.getElem?_eq_none_iff.mp hi
        have hj := (List.getElem?_eq_some_iff.mp hj).1
        omega
      rw [updateRows, hi, if_neg (by omega)]
    · by_cases hroom : min (startPos + new.sNew) c.seqLen ≤ startPos
      · rw [updateRows, hi]
        simp only [if_pos hroom]
        rw [ih hd (hsucc ▸ hbh) (hsucc ▸ hnew) (fun j start hij hjn => hlands j start (by omega)
          (by omega)) j start hj s h e hh he]
        rcases Nat.lt_trichotomy j i with hlt | rfl | hlt
        · rw [if_neg (by omega), if_neg (by omega)]
        · obtain rfl := Option.some.inj (hi.symm.trans hj)
          have htoken : loopToken c.seqLen new.sNew startPos s = none := if_neg (by omega)
          rw [if_neg (by omega), if_pos (by omega), htoken, Option.elim_none]
        · exact if_congr (by omega) rfl rfl
      · have hlt : startPos < min (startPos + new.sNew) c.seqLen := Nat.lt_of_not_le hroom
        have hle : (i + 1) * heads ≤ (i + (n + 1)) * heads := Nat.mul_le_mul_right _ (by omega)
        obtain ⟨c₁, c₂, hkey, hvalue, hshape, hlayout, hnumbers⟩ := copyRow_ok hd hlt
          (hle.trans hbh) (hle.trans hnew) (hlands i startPos le_rfl (by omega) hi hlt)
        rw [updateRows, hi]
        simp only [if_neg hroom, hkey, hvalue]
        have hlands' : ∀ j start, i + 1 ≤ j → j < i + 1 + n → kvValidLengths[j]? = some start →
            start < min (start + new.sNew) c₂.seqLen → c₂.Lands (j * heads) ((j + 1) * heads) := by
          intro j start hij hjn hj hstart widths hwidths
          rw [hshape.seqLen] at hstart
          exact hlands j start (by omega) (by omega) hj hstart widths (hlayout ▸ hwidths)
        rw [ih (hd.trans hshape.d.symm) (by rw [hsucc, hshape.bh]; exact hbh) (hsucc ▸ hnew) hlands'
          j start hj s h e hh (hshape.d ▸ he), hshape.seqLen, hnumbers s j h e hh he]
        rcases Nat.lt_trichotomy j i with hji | rfl | hij
        · rw [if_neg (by omega), if_neg (by omega), if_neg (by omega)]
        · obtain rfl := Option.some.inj (hi.symm.trans hj)
          rw [if_neg (by omega), if_pos rfl, if_pos (by omega)]
        · rw [if_neg (by omega : ¬j = i)]
          exact if_congr (by omega) rfl rfl

end Loop

end BloomBee.KVSlab

import BloomBee.Sanity.KVSlab

/-! Writes of new keys and values to the slab: in range they hit the cells that are addressed and no
others, and a read returns them; out of range the copy may stretch one token over a whole row. -/

set_option autoImplicit false

namespace BloomBee.KVSlab

open PagedKV (BlockConfig NewKvs Tensor sourceHeadsPerBatch)
open PagedKV.PagedKVTable (Broadcasts broadcastIndex)

variable {α : Type} {cfg : BlockConfig} {p : KVMultiplex.Policy}

/-! ### In range -/

/-- The cell that row `r`, head `h` and token `t` of new keys and values have. -/
def newCell (new : NewKvs α) (heads r h t : ℕ) : Cell α :=
  ⟨fun e => new.key (r * heads + h) e t, fun e => new.value (r * heads + h) t e⟩

/-- With the number of rows given, the number of heads is found by division. -/
theorem sourceHeads_eq {mb : MicroBatch} {rows kvHeads : ℕ} (hfull : 0 < mb.fullBatchSize)
    (hmicro : mb.microBatchSize = rows) (hpos : 0 < rows) (hkv : 0 < kvHeads)
    (hle : kvHeads ≤ cfg.attentionHeads) : mb.sourceHeads cfg (rows * kvHeads) = kvHeads := by
  have hdiv : rows * kvHeads / mb.microBatchSize = kvHeads := by
    rw [hmicro, Nat.mul_div_cancel_left _ hpos]
  have hmod : rows * kvHeads % mb.microBatchSize = 0 := by rw [hmicro, Nat.mul_mod_right]
  simp only [MicroBatch.sourceHeads, sourceHeadsPerBatch, hdiv, hmod]
  rw [if_pos ⟨hfull, hmicro ▸ hpos, trivial, hkv, by omega⟩]

theorem place_inRange {κ : Type} {seqLen start : ℕ} {src : Block κ} (hlt : start < seqLen)
    (hfit : start + src.tokens ≤ seqLen) : place seqLen start src = (start, src.tokens, src) := by
  rw [place, if_pos ⟨Int.natCast_nonneg _, by exact_mod_cast hlt, by exact_mod_cast hfit⟩,
    Int.toNat_natCast]

theorem place_outOfRange {κ : Type} {seqLen : ℕ} {startPosition : ℤ} {src : Block κ}
    (h : ¬(0 ≤ startPosition ∧ startPosition < seqLen ∧ startPosition + src.tokens ≤ seqLen)) :
    place seqLen startPosition src = (0, seqLen, src.last seqLen) := if_neg h

theorem Stores.of_unchanged {κ : Type} {c c' : Cache κ} {stride start firstRow rows heads : ℕ}
    {value : ℕ → ℕ → ℕ → κ} (hshape : SameShape c c')
    (hkept : ∀ s col, c'.cell? s col = c.cell? s col) :
    Stores stride start 0 firstRow rows heads value c c' where
  shape := hshape
  stored _ _ _ _ t ht := absurd ht (Nat.not_lt_zero t)
  kept s col _ := hkept s col

/-- An empty write behind the last position is out of range. It raises, unless the slab is empty. -/
theorem writeKvs_empty {c : Cache (Cell α)} {mb : MicroBatch} {new : NewKvs α}
    (h : Accepts cfg p c mb new) (hnew : new.sNew = 0)
    (hrows : 0 < new.bh / mb.sourceHeads cfg new.bh) :
    let r := writeKvs cfg p c c.seqLen mb (tensors new)
    SameShape c r.1 ∧ ∀ s col, r.1.cell? s col = c.cell? s col := by
  intro r
  have hplace : place c.seqLen (c.seqLen : ℤ) (block new) =
      (0, c.seqLen, (block new).last c.seqLen) := place_outOfRange (by omega)
  have htokens : ((block new).last c.seqLen).tokens = 0 := by
    simp only [Block.last, block, hnew]
    split_ifs <;> simp
  have htaken : taken cfg mb new c.seqLen ((block new).last c.seqLen).tokens = 0 := by
    rw [htokens, taken_of_le (Nat.zero_le _)]
  rcases Nat.eq_zero_or_pos c.seqLen with h0 | hpos
  · obtain ⟨c', hwrite, hstores⟩ := writeKvs_stores h hplace (by omega)
      (by rw [htaken, h0]; exact .inl rfl)
    have hr : r.1 = c' := congrArg Prod.fst hwrite
    rw [hr]
    exact ⟨hstores.shape, fun s col => hstores.kept s col fun _ _ _ _ t ht => by omega⟩
  · have hr : r.1 = c := congrArg Prod.fst (writeKvs_error h hplace (by omega)
      (by rw [htaken]; rintro (h1 | h1) <;> omega) hrows)
    rw [hr]
    exact ⟨.refl c, fun _ _ => rfl⟩

/-- `select_cache` reads the rows that a write began with. -/
theorem readRange_eq {κ : Type} {c : Cache κ} {heads : ℕ} {mb : MicroBatch} {rows : ℕ}
    (hfull : 0 < mb.fullBatchSize) (hmicro : mb.microBatchSize = rows) (hpos : 0 < rows)
    (hrows : KVMultiplex.writeBatchStart (c.batch heads) mb.batchOffset mb.fullBatchSize
      (c.slot heads p mb) + rows ≤ c.batch heads) :
    let row := KVMultiplex.writeBatchStart (c.batch heads) mb.batchOffset mb.fullBatchSize
      (c.slot heads p mb)
    let held := if c.Multiplexing heads mb then (c.slot heads p mb).activeBatchSize else rows
    0 < held ∧ held ≤ rows ∧
      c.readRange heads p mb = (row * heads, row * heads + held * heads) := by
  intro row held
  have hcolumns {n : ℕ} (hn : n ≤ rows) : row * heads + n * heads ≤ c.bh := by
    rw [← Nat.add_mul]
    exact Nat.le_trans (Nat.mul_le_mul_right _ (Nat.le_trans (Nat.add_le_add_left hn _) hrows))
      (Nat.div_mul_le_self _ _)
  have hfull' : ¬mb.fullBatchSize = 0 := hfull.ne'
  by_cases hmux : c.Multiplexing heads mb
  · have hrow : row = (c.slot heads p mb).batchStart := by
      simp only [row, KVMultiplex.writeBatchStart, if_neg hfull']
      exact if_pos hmux
    have hheld : held = (c.slot heads p mb).activeBatchSize := if_pos hmux
    have hactive : (c.slot heads p mb).activeBatchSize ≤ rows ∧
        0 < (c.slot heads p mb).activeBatchSize := by
      have hstart : row + rows ≤ c.batch heads := hrows
      rw [hrow] at hstart
      simp only [Cache.slot, KVMultiplex.Policy.resolveWorkingSlot,
        KVMultiplex.Policy.workingSlotBatchSize, hmicro, if_neg hpos.ne'] at hstart ⊢
      omega
    refine ⟨hheld ▸ hactive.2, hheld ▸ hactive.1, ?_⟩
    simp only [Cache.readRange]
    rw [if_pos ⟨hfull, hmicro ▸ hpos⟩, if_pos hmux, if_pos hactive.2, ← hrow, ← hheld,
      Nat.min_eq_left (hcolumns (hheld ▸ hactive.1))]
  · have hrow : row = mb.batchOffset := by
      simp only [row, KVMultiplex.writeBatchStart, if_neg hfull']
      exact if_neg hmux
    have hheld : held = rows := if_neg hmux
    refine ⟨hheld ▸ hpos, hheld.le, ?_⟩
    simp only [Cache.readRange]
    rw [if_pos ⟨hfull, hmicro ▸ hpos⟩, if_neg hmux, ← hrow, hmicro, hheld,
      Nat.min_eq_left (hcolumns (Nat.le_refl _))]

def RowsOf {κ : Type} (c : Cache κ) (heads first : ℕ) (pkv : Pkv κ) : Prop :=
  ∀ r < pkv.batch, ∀ h < pkv.heads, ∀ s < pkv.len,
    c.cell? s ((first + r) * heads + h) = some (pkv.cell r h s)

section Rows

variable {heads : ℕ} {c : Cache (Cell α)} {mb : MicroBatch} {new : NewKvs α} {rows kvHeads : ℕ}

theorem attentionHeads_eq (hcfg : cfg.numAttentionHeads = some heads) :
    cfg.attentionHeads = heads := by
  rw [BlockConfig.attentionHeads, hcfg]
  rfl

/-- The rows of a micro-batch and its key-value heads are found from its size. -/
theorem sourceRows_eq (hcfg : cfg.numAttentionHeads = some heads) (hheads : 0 < heads)
    (hkv : kvHeads ∣ heads) (hbh : new.bh = rows * kvHeads) (hfull : 0 < mb.fullBatchSize)
    (hmicro : mb.microBatchSize = rows) (hpos : 0 < rows) :
    mb.sourceHeads cfg new.bh = kvHeads ∧ new.bh / mb.sourceHeads cfg new.bh = rows := by
  have hkvpos : 0 < kvHeads := Nat.pos_of_dvd_of_pos hkv hheads
  have hsource : mb.sourceHeads cfg new.bh = kvHeads := by
    rw [hbh]
    exact sourceHeads_eq hfull hmicro hpos hkvpos
      ((attentionHeads_eq hcfg).symm ▸ Nat.le_of_dvd hheads hkv)
  refine ⟨hsource, ?_⟩
  rw [hsource, hbh, Nat.mul_div_cancel _ hkvpos]

theorem accepts_rows (hcfg : cfg.numAttentionHeads = some heads) (hheads : 0 < heads)
    (hkv : kvHeads ∣ heads) (hbh : new.bh = rows * kvHeads) (hd : new.d = c.d)
    (hfull : 0 < mb.fullBatchSize) (hmicro : mb.microBatchSize = rows) (hpos : 0 < rows)
    (hrows : firstRow cfg p c mb + rows ≤ c.batch heads) : Accepts cfg p c mb new := by
  have hattention := attentionHeads_eq hcfg
  obtain ⟨hsource, hbatch⟩ := sourceRows_eq hcfg hheads hkv hbh hfull hmicro hpos
  refine ⟨hattention.symm ▸ hheads, hd, ?_, ?_⟩
  · rw [hsource, hbh, Nat.mul_mod_left]
  · rw [hbatch, hattention]
    exact hrows

theorem writeKvs_rows (hcfg : cfg.numAttentionHeads = some heads) (hheads : 0 < heads)
    (hkv : kvHeads ∣ heads) (hbh : new.bh = rows * kvHeads) (hd : new.d = c.d)
    (hfull : 0 < mb.fullBatchSize) (hmicro : mb.microBatchSize = rows) (hpos : 0 < rows)
    (hrows : firstRow cfg p c mb + rows ≤ c.batch heads) {start : ℕ} (hlt : start < c.seqLen)
    (hfit : start + new.sNew ≤ c.seqLen) :
    ∃ c', writeKvs cfg p c start mb (tensors new) = (c', .ok ()) ∧
      Stores heads start new.sNew (firstRow cfg p c mb) rows kvHeads (newCell new kvHeads) c
        c' := by
  obtain ⟨hsource, hbatch⟩ := sourceRows_eq hcfg hheads hkv hbh hfull hmicro hpos
  have haccepts : Accepts cfg p c mb new :=
    accepts_rows hcfg hheads hkv hbh hd hfull hmicro hpos hrows
  obtain ⟨c', hwrite, hstores⟩ := writeKvs_stores haccepts (place_inRange hlt hfit) hfit
    (.inl (taken_of_le (Nat.le_refl _)))
  rw [attentionHeads_eq hcfg, hbatch, hsource, taken_of_le (Nat.le_refl _)] at hstores
  refine ⟨c', hwrite, hstores.shape, fun row hrow h hh t ht => ?_, hstores.kept⟩
  have htoken : broadcastIndex (block new).tokens t = t := broadcastIndex_of_lt ht
  rw [hstores.stored row hrow h hh t ht, htoken]
  rfl

/-- A read with the arguments of a write returns the rows that the write began with, as far as the
working slot goes. -/
theorem select_rows (hcfg : cfg.numAttentionHeads = some heads) (hheads : 0 < heads)
    (hfull : 0 < mb.fullBatchSize) (hmicro : mb.microBatchSize = rows) (hpos : 0 < rows)
    (hrows : firstRow cfg p c mb + rows ≤ c.batch heads) {c' : Cache (Cell α)}
    (hshape : SameShape c c') {n : ℕ} (hn : 0 < n) (hle : n ≤ c.seqLen) :
    let held := if c.Multiplexing heads mb then (c.slot heads p mb).activeBatchSize else rows
    held ≤ rows ∧ ∃ pkv, c'.select cfg p n mb = .ok (some pkv) ∧ pkv.batch = held ∧
      pkv.heads = heads ∧ pkv.len = n ∧ pkv.d = c.d ∧
      RowsOf c' heads (firstRow cfg p c mb) pkv := by
  intro held
  have hcapacity : c'.batch heads = c.batch heads := congrArg (· / heads) hshape.bh
  have hslot : c'.slot heads p mb = c.slot heads p mb := by rw [Cache.slot, hcapacity]; rfl
  have hmux : c'.Multiplexing heads mb ↔ c.Multiplexing heads mb := by
    rw [Cache.Multiplexing, hcapacity]; rfl
  simp only [firstRow, attentionHeads_eq hcfg] at hrows ⊢
  have hrange := readRange_eq (p := p) (c := c') hfull hmicro hpos (by rwa [hslot, hcapacity])
  rw [hslot, hcapacity, if_congr hmux rfl rfl] at hrange
  obtain ⟨hheld, hheldLe, hrange⟩ := hrange
  obtain ⟨pkv, hselect, hbatch, hpkvHeads, hlen, hd, hcells⟩ := select_ok hcfg hheads hn
    (by rwa [hshape.seqLen]) hheld hrange (by
      rw [hshape.bh]
      exact Nat.le_trans (Nat.mul_le_mul_right _
        (Nat.le_trans (Nat.add_le_add_left hheldLe _) hrows)) (Nat.div_mul_le_self _ _))
  refine ⟨hheldLe, pkv, hselect, hbatch, hpkvHeads, hlen, hd.trans hshape.d, ?_⟩
  intro r hr h hh s hs
  exact hcells r (hbatch ▸ hr) h (hpkvHeads ▸ hh) s (hlen ▸ hs)

end Rows

def twoSegments (seqLen width width' : ℕ) : Cache (Cell ℕ) where
  seqLen := seqLen
  d := 1
  storage := .mixed [⟨width, fun _ _ => ⟨fun _ => 0, fun _ => 0⟩⟩,
    ⟨width', fun _ _ => ⟨fun _ => 0, fun _ => 0⟩⟩]

/-- `bh` rows of one number, the key 5 and the value 6. -/
def constantKvs (bh sNew : ℕ) : NewKvs ℕ where
  bh := bh
  d := 1
  sNew := sNew
  key := fun _ _ _ => 5
  value := fun _ _ _ => 6

def Cache.column {κ : Type} (c : Cache κ) (col : ℕ) : List κ :=
  (List.range c.seqLen).filterMap fun s => c.cell? s col

/-- `xs[-n:]` -/
def lastOf {β : Type} (n : ℕ) (xs : List β) : List β := xs.drop (xs.length - n)

/-- The tokens of a row and a head that are cached before the start position, followed by the new
ones. -/
def logicalSequence (cfg : BlockConfig) (p : KVMultiplex.Policy) (c : Cache (Cell α))
    (startPosition : ℤ) (mb : MicroBatch) (new : NewKvs α) (r h : ℕ) : List (Cell α) :=
  (c.column ((firstRow cfg p c mb + r) * cfg.attentionHeads + h)).take startPosition.toNat ++
    (List.range new.sNew).map (newCell new (mb.sourceHeads cfg new.bh) r h)

/-- The call raises and leaves the slab as it was, or every row that is written holds the last
tokens of its logical sequence. -/
def TailKept (cfg : BlockConfig) (p : KVMultiplex.Policy) (c : Cache (Cell α))
    (startPosition : ℤ) (mb : MicroBatch) (new : NewKvs α) : Prop :=
  let r := writeKvs cfg p c startPosition mb (tensors new)
  (∃ e, r = (c, .error e)) ∨ r.2 = .ok () ∧
    ∀ row < new.bh / mb.sourceHeads cfg new.bh, ∀ h < mb.sourceHeads cfg new.bh,
      r.1.column ((firstRow cfg p c mb + row) * cfg.attentionHeads + h) =
        lastOf c.seqLen (logicalSequence cfg p c startPosition mb new row h)

section Tail

variable {c : Cache (Cell α)} {mb : MicroBatch} {new : NewKvs α} {startPosition : ℤ}

theorem lastOf_append {β : Type} {n : ℕ} {xs ys : List β} (h : n ≤ ys.length) :
    lastOf n (xs ++ ys) = ys.drop (ys.length - n) := by
  rw [lastOf, List.length_append, List.drop_append,
    List.drop_eq_nil_of_le (by omega : xs.length ≤ xs.length + ys.length - n), List.nil_append]
  congr 1
  omega

theorem column_length {κ : Type} {c : Cache κ} {col : ℕ} (h : col < c.bh) :
    (c.column col).length = c.seqLen := by
  rw [Cache.column, List.length_filterMap_eq_countP, List.countP_eq_length.mpr, List.length_range]
  intro s hs
  obtain ⟨x, hx⟩ := cell?_isSome (List.mem_range.mp hs) h
  rw [hx]
  rfl

/-- A write over the whole length sets the columns of the rows. -/
theorem column_of_stores {κ : Type} {c c' : Cache κ} {stride row rows heads : ℕ}
    {value : ℕ → ℕ → ℕ → κ} (hs : Stores stride 0 c.seqLen row rows heads value c c') {r h : ℕ}
    (hr : r < rows) (hh : h < heads) :
    c'.column ((row + r) * stride + h) = (List.range c.seqLen).map (value r h) := by
  rw [Cache.column, hs.shape.seqLen, ← List.filterMap_eq_map]
  refine List.filterMap_congr fun t ht => ?_
  have := hs.stored r hr h hh t (List.mem_range.mp ht)
  rw [Nat.zero_add] at this
  rw [this, Function.comp_apply]

theorem place_tail (hout : (c.seqLen : ℤ) < startPosition + new.sNew) :
    place c.seqLen startPosition (block new) = (0, c.seqLen, (block new).last c.seqLen) :=
  place_outOfRange fun h => by
    have : startPosition + new.sNew ≤ c.seqLen := h.2.2
    omega

theorem last_tokens {κ : Type} {x : Block κ} {n : ℕ} (h : 0 < n) :
    (x.last n).tokens = min n x.tokens := by
  rw [Block.last, if_neg h.ne']

/-- Enough new tokens fill the whole length: the last of them are kept. -/
theorem tailKept_of_le (haccepts : Accepts cfg p c mb new)
    (hout : (c.seqLen : ℤ) < startPosition + new.sNew) (hpos : 0 < c.seqLen)
    (hle : c.seqLen ≤ new.sNew) : TailKept cfg p c startPosition mb new := by
  have htokens : ((block new).last c.seqLen).tokens = c.seqLen :=
    (last_tokens hpos).trans (Nat.min_eq_left hle)
  have htaken : taken cfg mb new c.seqLen ((block new).last c.seqLen).tokens = c.seqLen := by
    rw [taken_of_le htokens.le, htokens]
  obtain ⟨c', hwrite, hstores⟩ := writeKvs_stores haccepts (place_tail hout) (by omega)
    (.inl htaken)
  refine .inr ⟨by rw [hwrite], fun row hrow h hh => ?_⟩
  rw [hwrite, column_of_stores hstores hrow hh, logicalSequence,
    lastOf_append (by rwa [List.length_map, List.length_range]), List.length_map,
    List.length_range]
  refine List.ext_getElem (by simp; omega) fun t ht _ => ?_
  have ht : t < c.seqLen := by simpa using ht
  rw [List.getElem_map, List.getElem_range, List.getElem_drop, List.getElem_map,
    List.getElem_range, htaken, broadcastIndex_of_lt ht, Block.last, if_neg hpos.ne']
  rfl

theorem tailKept_one (haccepts : Accepts cfg p c mb new)
    (hout : (c.seqLen : ℤ) < startPosition + new.sNew) (hpos : 0 < c.seqLen)
    (hone : new.sNew = 1) :
    TailKept cfg p c startPosition mb new ↔
      ∀ row < new.bh / mb.sourceHeads cfg new.bh, ∀ h < mb.sourceHeads cfg new.bh,
        ∀ x ∈ lastOf c.seqLen (logicalSequence cfg p c startPosition mb new row h),
          x = newCell new (mb.sourceHeads cfg new.bh) row h 0 := by
  have htokens : ((block new).last c.seqLen).tokens = 1 := by
    rw [last_tokens hpos, block, hone]
    exact Nat.min_eq_right hpos
  have htaken : taken cfg mb new c.seqLen ((block new).last c.seqLen).tokens = 1 := by
    rw [taken_of_le (by rw [htokens]; exact hpos), htokens]
  obtain ⟨c', hwrite, hstores⟩ := writeKvs_stores haccepts (place_tail hout) (by omega)
    (.inr htaken)
  have hcolumn : ∀ row < new.bh / mb.sourceHeads cfg new.bh, ∀ h < mb.sourceHeads cfg new.bh,
      c'.column ((firstRow cfg p c mb + row) * cfg.attentionHeads + h) =
        List.replicate c.seqLen (newCell new (mb.sourceHeads cfg new.bh) row h 0) := by
    intro row hrow h hh
    rw [column_of_stores hstores hrow hh, htaken, List.eq_replicate_iff]
    refine ⟨by rw [List.length_map, List.length_range], fun x hx => ?_⟩
    obtain ⟨t, -, rfl⟩ := List.mem_map.mp hx
    have hfirst : new.sNew - c.seqLen + broadcastIndex 1 t = 0 := by
      have : broadcastIndex 1 t = 0 := rfl
      omega
    rw [Block.last, if_neg hpos.ne']
    simp only [block, newCell, hfirst]
  have hlength : ∀ row < new.bh / mb.sourceHeads cfg new.bh, ∀ h < mb.sourceHeads cfg new.bh,
      (lastOf c.seqLen (logicalSequence cfg p c startPosition mb new row h)).length = c.seqLen := by
    intro row hrow h hh
    have hcol : (firstRow cfg p c mb + row) * cfg.attentionHeads + h < c.bh := by
      have hle := Nat.mul_le_mul_right cfg.attentionHeads (show firstRow cfg p c mb + row + 1 ≤
        firstRow cfg p c mb + new.bh / mb.sourceHeads cfg new.bh by omega)
      rw [Nat.succ_mul] at hle
      have := haccepts.columns
      have := sourceHeads_le mb new.bh haccepts.attentionHeads
      omega
    rw [lastOf, List.length_drop, logicalSequence, List.length_append, List.length_take,
      column_length hcol, List.length_map, List.length_range]
    omega
  simp only [TailKept, hwrite]
  constructor
  · rintro (⟨e, he⟩ | ⟨-, hkept⟩) row hrow h hh x hx
    · exact absurd (congrArg Prod.snd he) (by simp)
    · rw [← hkept row hrow h hh, hcolumn row hrow h hh] at hx
      exact List.eq_of_mem_replicate hx
  · intro hsame
    refine .inr ⟨trivial, fun row hrow h hh => ?_⟩
    rw [hcolumn row hrow h hh]
    exact (List.eq_replicate_iff.mpr ⟨hlength row hrow h hh, hsame row hrow h hh⟩).symm

theorem tailKept_of_refusedCopy (haccepts : Accepts cfg p c mb new)
    (hout : (c.seqLen : ℤ) < startPosition + new.sNew)
    (ht : ¬Broadcasts (taken cfg mb new c.seqLen ((block new).last c.seqLen).tokens) c.seqLen) :
    TailKept cfg p c startPosition mb new := by
  rcases Nat.eq_zero_or_pos (new.bh / mb.sourceHeads cfg new.bh) with h0 | hrows
  · rcases writeKvs_noRows haccepts startPosition h0 with hok | herr
    · exact .inr ⟨hok, fun row hrow => by omega⟩
    · exact .inl ⟨_, herr⟩
  · exact .inl ⟨_, writeKvs_error haccepts (place_tail hout) (by omega) ht hrows⟩

theorem tailKept_of_noSlab (haccepts : Accepts cfg p c mb new)
    (hout : (c.seqLen : ℤ) < startPosition + new.sNew) (h0 : c.seqLen = 0) :
    TailKept cfg p c startPosition mb new := by
  by_cases ht : Broadcasts (taken cfg mb new c.seqLen ((block new).last c.seqLen).tokens) c.seqLen
  · obtain ⟨c', hwrite, hstores⟩ := writeKvs_stores haccepts (place_tail hout) (by omega) ht
    refine .inr ⟨by rw [hwrite], fun row hrow h hh => ?_⟩
    rw [hwrite, column_of_stores hstores hrow hh, h0, lastOf, Nat.sub_zero, List.drop_length]
    rfl
  · exact tailKept_of_refusedCopy haccepts hout ht

end Tail

/-- The cached tokens 1, 2 and 3 of one row, and a fourth one behind them. -/
def fullRow : Cache (Cell ℕ) where
  seqLen := 3
  d := 1
  storage := .whole ⟨1, fun s _ => ⟨fun _ => s + 1, fun _ => s + 1⟩⟩

end BloomBee.KVSlab

import BloomBee.Proofs.KVSlab
import BloomBee.Sanity.KVBatched

/-! Where the loop over the batch rows writes what one `_write_kvs` would: all rows have as many
heads as the slab, and each fits behind its start; out of range the two paths part, and with fewer
heads the loop takes the columns of other rows. -/

set_option autoImplicit false

namespace BloomBee.KVSlab

open PagedKV (BlockConfig NewKvs)
open PagedKV.PagedKVTable (Broadcasts broadcastIndex)

variable {α : Type} {cfg : BlockConfig} {p : KVMultiplex.Policy} {c : Cache (Cell α)}
  {new new' : NewKvs α} {bh sNew : ℕ} {kvValidLengths : List ℕ}

/-- `source_heads`, without a micro-batch. -/
abbrev rowHeads (cfg : BlockConfig) (bh : ℕ) : ℕ := MicroBatch.sourceHeads {} cfg bh

structure HasShape (new : NewKvs α) (bh d sNew : ℕ) : Prop where
  bh : new.bh = bh
  d : new.d = d
  sNew : new.sNew = sNew

/-- `_write_kvs` accepts new keys and values of the shape. -/
structure AcceptsShape (cfg : BlockConfig) (c : Cache (Cell α)) (bh : ℕ) : Prop where
  attentionHeads : 0 < cfg.attentionHeads
  divisible : bh % rowHeads cfg bh = 0
  rows : bh / rowHeads cfg bh ≤ c.batch cfg.attentionHeads

def SameRow (heads i : ℕ) (new new' : NewKvs α) : Prop :=
  ∀ h < heads, ∀ t e, newNumber new (i * heads + h) t e = newNumber new' (i * heads + h) t e

/-- What a row has in the slab after `update_cache_batched` depends on its own data and start
position only: it is what one `_write_kvs` at this position leaves there. -/
def RowsAgree (cfg : BlockConfig) (p : KVMultiplex.Policy) (c : Cache (Cell α)) (bh sNew : ℕ)
    (kvValidLengths : List ℕ) : Prop :=
  ∀ new new' : NewKvs α, HasShape new bh c.d sNew → HasShape new' bh c.d sNew →
    ∀ i (start : ℕ), kvValidLengths[i]? = some start → i < bh / rowHeads cfg bh →
      SameRow (rowHeads cfg bh) i new new' →
      ∀ s h e, s < c.seqLen → h < cfg.attentionHeads → e < c.d →
        (updateCacheBatched cfg p c new kvValidLengths).1.number? s
            (i * cfg.attentionHeads + h) e =
          (writeKvs cfg p c start {} (tensors new')).1.number? s (i * cfg.attentionHeads + h) e

/-- `_write_kvs` raises: out of range, with tokens that neither fill the positions nor are one that is
stretched. -/
def Refused (seqLen sNew start : ℕ) : Prop := seqLen < start + sNew ∧ 1 < sNew ∧ sNew < seqLen

/-- The row has all its heads and its tokens fit, or neither path writes it. -/
def RowMeets (cfg : BlockConfig) (c : Cache (Cell α)) (bh sNew i start : ℕ) : Prop :=
  cfg.numAttentionHeads ≠ none ∧ rowHeads cfg bh = cfg.attentionHeads ∧
      start + sNew ≤ c.seqLen ∨
    Refused c.seqLen sNew start ∧
      (cfg.numAttentionHeads ≠ none → i < bh / cfg.attentionHeads → c.seqLen ≤ start)

/-- One start position for all, or nothing to write, or all rows are met and found. -/
def Meets (cfg : BlockConfig) (c : Cache (Cell α)) (bh sNew : ℕ) (kvValidLengths : List ℕ) : Prop :=
  (∀ a ∈ kvValidLengths, ∀ b ∈ kvValidLengths, a = b) ∨ c.seqLen = 0 ∨ sNew = 0 ∨ c.d = 0 ∨
    ∀ i start, kvValidLengths[i]? = some start → i < bh / rowHeads cfg bh →
      RowMeets cfg c bh sNew i start ∧
      (i < bh / cfg.attentionHeads → start < c.seqLen → c.Lands (i * cfg.attentionHeads) ((i + 1) * cfg.attentionHeads))

/-! ### One write -/

theorem rowHeads_pos (h : 0 < cfg.attentionHeads) : 0 < rowHeads cfg bh := by
  simp only [rowHeads, MicroBatch.sourceHeads, PagedKV.sourceHeadsPerBatch]
  split_ifs <;> omega

theorem rowHeads_le (h : 0 < cfg.attentionHeads) : rowHeads cfg bh ≤ cfg.attentionHeads :=
  sourceHeads_le {} bh h

theorem AcceptsShape.accepts (h : AcceptsShape cfg c bh) (hnew : HasShape new bh c.d sNew) :
    Accepts cfg p c {} new where
  attentionHeads := h.attentionHeads
  headDim := hnew.d
  divisible := by rw [hnew.bh]; exact h.divisible
  rows := by
    rw [hnew.bh]
    exact (Nat.zero_add _).trans_le h.rows

/-- The token that `_write_kvs` puts at a position of a row. -/
def writtenToken (seqLen sNew start s : ℕ) : Option ℕ :=
  if start < seqLen ∧ start + sNew ≤ seqLen then
    if start ≤ s ∧ s < start + sNew then some (s - start) else none
  else if sNew = 1 then some 0
  else if seqLen ≤ sNew then some (sNew - seqLen + s)
  else none

/-- The cell of a row after a write that stores tokens from a position on. -/
theorem Stores.cell? {κ : Type} {stride first n firstRow rows heads b h s : ℕ} {c c' : Cache κ}
    {value : ℕ → ℕ → ℕ → κ} (hstores : Stores stride first n firstRow rows heads value c c')
    (hle : heads ≤ stride) (hh : h < stride) :
    c'.cell? s (b * stride + h) =
      if (firstRow ≤ b ∧ b < firstRow + rows ∧ h < heads) ∧ first ≤ s ∧ s < first + n then
        some (value (b - firstRow) h (s - first))
      else c.cell? s (b * stride + h) := by
  split_ifs with hin
  · obtain ⟨⟨hb, hb', hheads⟩, hs, hs'⟩ := hin
    have hcell := hstores.stored (b - firstRow) (by omega) h hheads (s - first) (by omega)
    rwa [Nat.add_sub_cancel' hb, Nat.add_sub_cancel' hs] at hcell
  · refine hstores.kept s (b * stride + h) fun r hr h' hh' t ht heq => ?_
    obtain ⟨rfl, hcol⟩ := heq
    obtain ⟨rfl, rfl⟩ := col_inj hh (hh'.trans_le hle) hcol
    exact hin ⟨⟨by omega, by omega, hh'⟩, by omega, by omega⟩

/-- `_write_kvs` raises: the tokens do not fit behind the start, and out of range they neither are one
that is stretched nor fill the positions. -/
def Raises (seqLen sNew start : ℕ) : Prop :=
  ¬(start < seqLen ∧ start + sNew ≤ seqLen) ∧ sNew ≠ 1 ∧ sNew < seqLen

instance (seqLen sNew start : ℕ) : Decidable (Raises seqLen sNew start) :=
  inferInstanceAs (Decidable (_ ∧ _))

theorem writtenToken_of_raises {seqLen start : ℕ} (h : Raises seqLen sNew start) (s : ℕ) :
    writtenToken seqLen sNew start s = none := by
  rw [writtenToken, if_neg h.1, if_neg h.2.1, if_neg (Nat.not_le.mpr h.2.2)]

section OneWrite

variable {mb : MicroBatch} {start : ℕ}

theorem place_behind (hout : ¬(start < c.seqLen ∧ start + new.sNew ≤ c.seqLen)) :
    place c.seqLen (start : ℤ) (block new) = (0, c.seqLen, (block new).last c.seqLen) :=
  place_outOfRange fun hin => hout (by
    have hfit : (start : ℤ) + new.sNew ≤ c.seqLen := hin.2.2
    omega)

theorem taken_last (hpos : 0 < c.seqLen) :
    taken cfg mb new c.seqLen ((block new).last c.seqLen).tokens = min c.seqLen new.sNew := by
  rw [last_tokens hpos, taken_of_le (Nat.min_le_left _ _)]
  rfl

theorem writeKvs_raises (h : Accepts cfg p c mb new)
    (hrows : 0 < new.bh / mb.sourceHeads cfg new.bh) (hraises : Raises c.seqLen new.sNew start) :
    writeKvs cfg p c start mb (tensors new) = (c, .error .runtimeError) := by
  obtain ⟨hout, hone, hfew⟩ := hraises
  refine writeKvs_error h (place_behind hout) (Nat.zero_add _).le ?_ hrows
  rw [taken_last (Nat.zero_lt_of_lt hfew)]
  rintro (heq | heq) <;> omega

/-- The cells of the rows that a write has heads for take its tokens. -/
theorem writeKvs_cells (h : Accepts cfg p c mb new) (hpos : 0 < c.seqLen)
    (hok : ¬Raises c.seqLen new.sNew start) :
    ∃ c', writeKvs cfg p c start mb (tensors new) = (c', .ok ()) ∧ SameShape c c' ∧
      ∀ b, ∀ hd < cfg.attentionHeads, ∀ s < c.seqLen,
        c'.cell? s (b * cfg.attentionHeads + hd) =
          if firstRow cfg p c mb ≤ b ∧
              b < firstRow cfg p c mb + new.bh / mb.sourceHeads cfg new.bh ∧
              hd < mb.sourceHeads cfg new.bh then
            (writtenToken c.seqLen new.sNew start s).elim
              (c.cell? s (b * cfg.attentionHeads + hd)) fun t =>
                some ((block new).data t
                  ((b - firstRow cfg p c mb) * mb.sourceHeads cfg new.bh + hd))
          else c.cell? s (b * cfg.attentionHeads + hd) := by
  have hle : mb.sourceHeads cfg new.bh ≤ cfg.attentionHeads :=
    sourceHeads_le mb new.bh h.attentionHeads
  have htokens : (block new).tokens = new.sNew := rfl
  by_cases hin : start < c.seqLen ∧ start + new.sNew ≤ c.seqLen
  · obtain ⟨c', hwrite, hstores⟩ := writeKvs_stores h (place_inRange hin.1 hin.2) hin.2
      (.inl (taken_of_le le_rfl))
    refine ⟨c', hwrite, hstores.shape, fun b hd hhd s _ => ?_⟩
    rw [hstores.cell? hle hhd, ite_and, writtenToken, if_pos hin, htokens, taken_of_le le_rfl]
    refine ite_congr rfl (fun _ => ?_) fun _ => rfl
    by_cases hrange : start ≤ s ∧ s < start + new.sNew
    · rw [if_pos hrange, if_pos hrange, Option.elim_some, broadcastIndex_of_lt (by omega)]
    · rw [if_neg hrange, if_neg hrange, Option.elim_none]
  · have hb : Broadcasts (min c.seqLen new.sNew) c.seqLen := by
      by_contra hb
      refine hok ⟨hin, fun hone => hb (.inr (by omega)), Nat.lt_of_not_le fun hle => hb (.inl ?_)⟩
      exact Nat.min_eq_left hle
    obtain ⟨c', hwrite, hstores⟩ := writeKvs_stores h (place_behind hin) (Nat.zero_add _).le
      (by rwa [taken_last hpos])
    refine ⟨c', hwrite, hstores.shape, fun b hd hhd s hs => ?_⟩
    rw [hstores.cell? hle hhd, ite_and, writtenToken, if_neg hin, taken_last hpos]
    refine ite_congr rfl (fun _ => ?_) fun _ => rfl
    rw [if_pos (show 0 ≤ s ∧ s < 0 + c.seqLen by omega), Nat.sub_zero, Block.last,
      if_neg hpos.ne', htokens]
    by_cases hone : new.sNew = 1
    · have hindex : broadcastIndex (min c.seqLen 1) s = 0 := by
        rw [Nat.min_eq_right hpos]
        rfl
      rw [if_pos hone, Option.elim_some, hone, hindex, Nat.sub_eq_zero_of_le hpos]
    · have hfill : c.seqLen ≤ new.sNew := by
        rcases hb with hb | hb <;> omega
      rw [if_neg hone, if_pos hfill, Option.elim_some, Nat.min_eq_left hfill,
        broadcastIndex_of_lt hs]

end OneWrite

theorem writeKvs_number? (h : AcceptsShape cfg c bh) (hnew : HasShape new bh c.d sNew)
    {i start s hd e : ℕ} (hi : i < bh / rowHeads cfg bh) (hs : s < c.seqLen)
    (hhd : hd < cfg.attentionHeads) :
    (writeKvs cfg p c start {} (tensors new)).1.number? s (i * cfg.attentionHeads + hd) e =
      if hd < rowHeads cfg bh then
        (writtenToken c.seqLen sNew start s).elim (c.number? s (i * cfg.attentionHeads + hd) e)
          fun t => some (newNumber new (i * rowHeads cfg bh + hd) t e)
      else c.number? s (i * cfg.attentionHeads + hd) e := by
  obtain ⟨rfl, hd', rfl⟩ := hnew
  have haccepts : Accepts cfg p c {} new := h.accepts ⟨rfl, hd', rfl⟩
  by_cases hraises : Raises c.seqLen new.sNew start
  · rw [writeKvs_raises haccepts (Nat.zero_lt_of_lt hi) hraises, writtenToken_of_raises hraises,
      Option.elim_none, ite_self]
  · obtain ⟨c', hwrite, -, hcells⟩ := writeKvs_cells haccepts (Nat.zero_lt_of_lt hs) hraises
    have hcell := hcells i hd hhd s hs
    -- without a micro-batch the rows begin with the first one of the slab
    simp only [show firstRow cfg p c {} = 0 from rfl, Nat.zero_add, Nat.sub_zero, Nat.zero_le, hi,
      true_and] at hcell
    rw [hwrite, Cache.number?, hcell, Cache.number?]
    split_ifs
    · rcases writtenToken c.seqLen new.sNew start s with - | t <;> rfl
    · rfl

/-! ### The two paths -/

theorem div_attentionHeads_le (h : AcceptsShape cfg c bh) :
    bh / cfg.attentionHeads ≤ bh / rowHeads cfg bh :=
  Nat.div_le_div_left (rowHeads_le h.attentionHeads) (rowHeads_pos h.attentionHeads)

/-- Lengths that differ: each row takes what fits, with as many heads as the slab has. -/
theorem updateCacheBatched_number? (h : AcceptsShape cfg c bh) (hnew : HasShape new bh c.d sNew)
    (hdiffer : ¬∀ a ∈ kvValidLengths, ∀ b ∈ kvValidLengths, a = b)
    (hlands : ∀ i start, kvValidLengths[i]? = some start → i < bh / cfg.attentionHeads →
      start < min (start + sNew) c.seqLen → c.Lands (i * cfg.attentionHeads) ((i + 1) * cfg.attentionHeads))
    {i start s hd e : ℕ} (hi : kvValidLengths[i]? = some start) (hhd : hd < cfg.attentionHeads)
    (he : e < c.d) :
    (updateCacheBatched cfg p c new kvValidLengths).1.number? s
        (i * cfg.attentionHeads + hd) e =
      if cfg.numAttentionHeads ≠ none ∧ i < bh / cfg.attentionHeads then
        (loopToken c.seqLen sNew start s).elim (c.number? s (i * cfg.attentionHeads + hd) e)
          fun t => some (newNumber new (i * cfg.attentionHeads + hd) t e)
      else c.number? s (i * cfg.attentionHeads + hd) e := by
  obtain ⟨rfl, hd', rfl⟩ := hnew
  obtain - | ⟨first, rest⟩ := kvValidLengths
  · cases hi
  have hloop : ¬∀ length ∈ first :: rest, length = first := fun hall =>
    hdiffer fun a ha b hb => (hall a ha).trans (hall b hb).symm
  rw [updateCacheBatched, if_neg hloop]
  rcases hheads : cfg.numAttentionHeads with - | heads
  · rw [if_neg fun hin => hin.1 rfl]
  · have hattention : cfg.attentionHeads = heads := attentionHeads_eq hheads
    have hpos : 0 < cfg.attentionHeads := h.attentionHeads
    have hrows : new.bh / cfg.attentionHeads * cfg.attentionHeads ≤ c.bh :=
      (Nat.mul_le_mul_right _ ((div_attentionHeads_le h).trans h.rows)).trans
        (Nat.div_mul_le_self _ _)
    subst hattention
    simp only [if_neg hpos.ne']
    rw [updateRows_spec (first :: rest) (new.bh / cfg.attentionHeads) hd'
      (by rwa [Nat.zero_add]) (by rw [Nat.zero_add]; exact Nat.div_mul_le_self _ _)
      (fun j first _ hj hfirst => hlands j first hfirst (by omega)) i start hi s hd e hhd he]
    exact if_congr ⟨fun hin => ⟨Option.some_ne_none _, by omega⟩, fun hin => by omega⟩ rfl rfl

/-! ### Where the tokens are the same -/

section Tokens

variable {seqLen start : ℕ}

theorem loopToken_empty (s : ℕ) : loopToken seqLen 0 start s = none := if_neg (by omega)

theorem writtenToken_empty {s : ℕ} (hpos : 0 < seqLen) : writtenToken seqLen 0 start s = none := by
  rw [writtenToken]
  split_ifs <;> first | rfl | omega

theorem loopToken_none_iff (hnew : 0 < sNew) :
    (∀ s < seqLen, loopToken seqLen sNew start s = none) ↔ seqLen ≤ start := by
  constructor
  · intro h
    by_contra hlt
    have hstart := h start (by omega)
    rw [loopToken, if_pos (by omega)] at hstart
    exact Option.some_ne_none _ hstart
  · intro hle s hs
    exact if_neg (by omega)

/-- A write that goes through puts a token somewhere: at the start, or at the first position. -/
theorem exists_writtenToken (hpos : 0 < seqLen) (hnew : 0 < sNew)
    (hok : ¬Raises seqLen sNew start) :
    ∃ s < seqLen, ∃ t, writtenToken seqLen sNew start s = some t := by
  by_cases hin : start < seqLen ∧ start + sNew ≤ seqLen
  · exact ⟨start, hin.1, 0, by rw [writtenToken, if_pos hin, if_pos (by omega), Nat.sub_self]⟩
  · by_cases hone : sNew = 1
    · exact ⟨0, hpos, 0, by rw [writtenToken, if_neg hin, if_pos hone]⟩
    · have hfill : seqLen ≤ sNew := Nat.le_of_not_lt fun hfew => hok ⟨hin, hone, hfew⟩
      exact ⟨0, hpos, _, by rw [writtenToken, if_neg hin, if_neg hone, if_pos hfill]⟩

theorem writtenToken_none_iff (hpos : 0 < seqLen) (hnew : 0 < sNew) :
    (∀ s < seqLen, writtenToken seqLen sNew start s = none) ↔ Refused seqLen sNew start := by
  constructor
  · intro h
    by_contra hrefused
    have hok : ¬Raises seqLen sNew start := by
      rintro ⟨hout, hone, hfew⟩
      exact hrefused ⟨by omega, by omega, hfew⟩
    obtain ⟨s, hs, t, ht⟩ := exists_writtenToken hpos hnew hok
    rw [h s hs] at ht
    cases ht
  · rintro ⟨hout, hone, hfew⟩ s -
    exact writtenToken_of_raises ⟨by omega, by omega, hfew⟩ s

theorem loopToken_eq_of_le (hle : start + sNew ≤ seqLen) (hnew : 0 < sNew) (s : ℕ) :
    loopToken seqLen sNew start s = writtenToken seqLen sNew start s := by
  rw [loopToken, writtenToken, if_pos (show start < seqLen ∧ start + sNew ≤ seqLen by omega),
    Nat.min_eq_left hle]

theorem loopToken_eq_iff (hpos : 0 < seqLen) (hnew : 0 < sNew) :
    (∀ s < seqLen, loopToken seqLen sNew start s = writtenToken seqLen sNew start s) ↔
      start + sNew ≤ seqLen ∨ Refused seqLen sNew start ∧ seqLen ≤ start := by
  constructor
  · intro h
    by_contra hneither
    obtain ⟨hout, hnone⟩ := not_or.mp hneither
    have h0 := h 0 hpos
    rw [writtenToken, if_neg (by omega)] at h0
    -- out of range `_write_kvs` fills every position or none, and the loop those from the start on
    by_cases hone : sNew = 1
    · rw [if_pos hone, loopToken, if_neg (by omega)] at h0
      cases h0
    · rw [if_neg hone] at h0
      by_cases hfill : seqLen ≤ sNew
      · rw [if_pos hfill, loopToken] at h0
        split_ifs at h0 with hin
        have := Option.some.inj h0
        omega
      · have hrefused : Refused seqLen sNew start := ⟨by omega, by omega, by omega⟩
        refine hnone ⟨hrefused, (loopToken_none_iff hnew).mp fun s hs => ?_⟩
        rw [h s hs]
        exact (writtenToken_none_iff hpos hnew).mpr hrefused s hs
  · rintro (hle | ⟨hrefused, hout⟩) s hs
    · exact loopToken_eq_of_le hle hnew s
    · rw [(loopToken_none_iff hnew).mpr hout s hs,
        (writtenToken_none_iff hpos hnew).mpr hrefused s hs]

end Tokens

/-! ### When the paths agree -/

theorem rowsAgree_of_meets (h : AcceptsShape cfg c bh) (hmeets : Meets cfg c bh sNew kvValidLengths) :
    RowsAgree cfg p c bh sNew kvValidLengths := by
  intro new new' hnew hnew' i start hi hrow hdata s hd e hs hhd he
  have hpos : 0 < c.seqLen := Nat.zero_lt_of_lt hs
  rw [writeKvs_number? h hnew' hrow hs hhd]
  by_cases hsame : ∀ a ∈ kvValidLengths, ∀ b ∈ kvValidLengths, a = b
  · obtain - | ⟨first, rest⟩ := kvValidLengths
    · cases hi
    have hfirst : ∀ length ∈ first :: rest, length = first := fun length hlength =>
      hsame length hlength first List.mem_cons_self
    obtain rfl : start = first := hfirst start (List.mem_of_getElem? hi)
    rw [updateCacheBatched, if_pos hfirst, writeKvs_number? h hnew hrow hs hhd]
    refine if_ctx_congr Iff.rfl (fun hheads => ?_) fun _ => rfl
    simp only [hdata hd hheads]
  · rcases Nat.eq_zero_or_pos sNew with rfl | hsNew
    · rw [updateCacheBatched_number? h hnew hsame (fun _ _ _ _ hroom => by omega) hi hhd he,
        loopToken_empty, writtenToken_empty hpos]
      simp only [Option.elim_none, ite_self]
    · obtain hrows : ∀ i start, kvValidLengths[i]? = some start → i < bh / rowHeads cfg bh →
          RowMeets cfg c bh sNew i start ∧ (i < bh / cfg.attentionHeads → start < c.seqLen →
            c.Lands (i * cfg.attentionHeads) ((i + 1) * cfg.attentionHeads)) := by
        rcases hmeets with h | h | h | h | h
        · exact absurd h hsame
        · omega
        · omega
        · omega
        · exact h
      rw [updateCacheBatched_number? h hnew hsame (fun j first hj hjn hroom =>
        (hrows j first hj (hjn.trans_le (div_attentionHeads_le h))).2 hjn (by omega)) hi hhd he]
      rcases (hrows i start hi hrow).1 with ⟨hsome, hall, hfit⟩ | ⟨hrefused, hout⟩
      · -- the row has all heads, and its tokens fit
        rw [hall] at hdata hrow ⊢
        rw [if_pos ⟨hsome, hrow⟩, if_pos hhd, loopToken_eq_of_le hfit hsNew]
        simp only [hdata hd hhd]
      · -- neither path writes the row
        rw [(writtenToken_none_iff hpos hsNew).mpr hrefused s hs, Option.elim_none, ite_self]
        refine (ite_eq_right_iff).mpr fun hloop => ?_
        rw [(loopToken_none_iff hsNew).mpr (hout hloop.1 hloop.2) s hs, Option.elim_none]

theorem lands_whole {segment : Segment (Cell α)} (hwhole : c.storage = .whole segment) (lo hi : ℕ) :
    c.Lands lo hi := by
  intro widths hwidths
  rw [Cache.layout, hwhole] at hwidths
  cases hwidths

def tokenKvs (bh d sNew : ℕ) (f : ℕ → α) : NewKvs α where
  bh := bh
  d := d
  sNew := sNew
  key := fun _ _ t => f t
  value := fun _ t _ => f t

theorem token_eq [Nontrivial α] (old : Option (α × α)) {x y : Option ℕ}
    (h : ∀ f : ℕ → α, (x.elim old fun t => some (f t, f t)) = y.elim old fun t => some (f t, f t)) :
    x = y := by
  obtain ⟨a, b, hab⟩ := exists_pair_ne α
  rcases x with - | t <;> rcases y with - | t'
  · rfl
  · have ha := h fun _ => a
    have hb := h fun _ => b
    rw [Option.elim_none, Option.elim_some] at ha hb
    exact absurd (congrArg Prod.fst (Option.some.inj (ha.symm.trans hb))) hab
  · have ha := h fun _ => a
    have hb := h fun _ => b
    rw [Option.elim_none, Option.elim_some] at ha hb
    exact absurd (congrArg Prod.fst (Option.some.inj (ha.trans hb.symm))) hab
  · by_contra hne
    have htt : t' ≠ t := fun heq => hne (by rw [heq])
    have ht := h fun u => if u = t then a else b
    simp only [Option.elim_some, if_neg htt] at ht
    exact hab (congrArg Prod.fst (Option.some.inj ht))

theorem elim_ite {β γ : Type} {P : Prop} [Decidable P] {x : Option β} {old : γ} {f : β → γ} :
    (if P then x.elim old f else old) = (if P then x else none).elim old f := by
  split_ifs <;> rfl

/-- On one device, rows that agree for all data take the same tokens on both paths. -/
theorem tokens_eq [Nontrivial α] {segment : Segment (Cell α)} (hwhole : c.storage = .whole segment)
    (h : AcceptsShape cfg c bh) (hdiffer : ¬∀ a ∈ kvValidLengths, ∀ b ∈ kvValidLengths, a = b)
    (hdim : 0 < c.d) (hagree : RowsAgree cfg p c bh sNew kvValidLengths) {i start : ℕ}
    (hi : kvValidLengths[i]? = some start) (hrow : i < bh / rowHeads cfg bh) {s hd : ℕ}
    (hs : s < c.seqLen) (hhd : hd < cfg.attentionHeads) :
    (if cfg.numAttentionHeads ≠ none ∧ i < bh / cfg.attentionHeads then
        loopToken c.seqLen sNew start s else none) =
      if hd < rowHeads cfg bh then writtenToken c.seqLen sNew start s else none := by
  refine token_eq (c.number? s (i * cfg.attentionHeads + hd) 0) fun f : ℕ → α => ?_
  have hshape : HasShape (tokenKvs bh c.d sNew f) bh c.d sNew := ⟨rfl, rfl, rfl⟩
  have hnumbers := hagree _ _ hshape hshape i start hi hrow (fun _ _ _ _ => rfl) s hd 0 hs
    hhd hdim
  rw [updateCacheBatched_number? h hshape hdiffer (fun _ _ _ _ _ => lands_whole hwhole _ _) hi hhd
    hdim, writeKvs_number? h hshape hrow hs hhd, elim_ite, elim_ite] at hnumbers
  exact hnumbers

theorem meets_of_rowsAgree [Nontrivial α] {segment : Segment (Cell α)}
    (hwhole : c.storage = .whole segment) (h : AcceptsShape cfg c bh)
    (hagree : RowsAgree cfg p c bh sNew kvValidLengths) : Meets cfg c bh sNew kvValidLengths := by
  by_cases hsame : ∀ a ∈ kvValidLengths, ∀ b ∈ kvValidLengths, a = b
  · exact .inl hsame
  rcases Nat.eq_zero_or_pos c.seqLen with h0 | hpos
  · exact .inr (.inl h0)
  rcases Nat.eq_zero_or_pos sNew with h0 | hsNew
  · exact .inr (.inr (.inl h0))
  rcases Nat.eq_zero_or_pos c.d with h0 | hd
  · exact .inr (.inr (.inr (.inl h0)))
  refine .inr (.inr (.inr (.inr fun i start hi hrow => ⟨?_, fun _ _ => lands_whole hwhole _ _⟩)))
  have htokens := fun {s hd' : ℕ} (hs : s < c.seqLen) (hhd : hd' < cfg.attentionHeads) =>
    tokens_eq hwhole h hsame hd hagree hi hrow hs hhd
  have hheads : 0 < rowHeads cfg bh := rowHeads_pos h.attentionHeads
  by_cases hloop : cfg.numAttentionHeads ≠ none ∧ i < bh / cfg.attentionHeads
  · rcases (rowHeads_le h.attentionHeads : rowHeads cfg bh ≤ _).lt_or_eq with hlt | hall
    · -- the loop writes the columns behind the heads of the row, `_write_kvs` does not
      have hout : c.seqLen ≤ start := (loopToken_none_iff hsNew).mp fun s hs => by
        have := htokens hs hlt
        rwa [if_pos hloop, if_neg (Nat.lt_irrefl _)] at this
      refine .inr ⟨(writtenToken_none_iff hpos hsNew).mp fun s hs => ?_, fun _ _ => hout⟩
      have := htokens hs h.attentionHeads
      rw [if_pos hloop, if_pos hheads, (loopToken_none_iff hsNew).mpr hout s hs] at this
      exact this.symm
    · have heq : ∀ s < c.seqLen, loopToken c.seqLen sNew start s =
          writtenToken c.seqLen sNew start s := fun s hs => by
        have := htokens hs h.attentionHeads
        rwa [if_pos hloop, if_pos hheads] at this
      rcases (loopToken_eq_iff hpos hsNew).mp heq with hfit | ⟨hrefused, hout⟩
      · exact .inl ⟨hloop.1, hall, hfit⟩
      · exact .inr ⟨hrefused, fun _ _ => hout⟩
  · -- the loop does not come to the row
    refine .inr ⟨(writtenToken_none_iff hpos hsNew).mp fun s hs => ?_,
      fun hsome hlt => absurd ⟨hsome, hlt⟩ hloop⟩
    have := htokens hs h.attentionHeads
    rw [if_neg hloop, if_pos hheads] at this
    exact this.symm

/-- `update_cache_batched` writes each row as one `_write_kvs` at its position would where `Meets`
holds, and on one device nowhere else. -/
theorem updateCacheBatched_rowsAgree [Nontrivial α] (h : AcceptsShape cfg c bh) :
    (Meets cfg c bh sNew kvValidLengths → RowsAgree cfg p c bh sNew kvValidLengths) ∧
      ∀ segment, c.storage = .whole segment →
        RowsAgree cfg p c bh sNew kvValidLengths → Meets cfg c bh sNew kvValidLengths :=
  ⟨rowsAgree_of_meets h, fun _ hwhole => meets_of_rowsAgree hwhole h⟩

def oneSegment (width : ℕ) : Cache (Cell ℕ) where
  seqLen := 3
  d := 1
  storage := .whole ⟨width, fun _ _ => ⟨fun _ => 0, fun _ => 0⟩⟩

/-- Two rows of one head agree as long as their two tokens fit. -/
theorem updateCacheBatched_rowsAgree_twoRows :
    RowsAgree { numAttentionHeads := some 1 } ⟨1, 1⟩ (oneSegment 2) 2 2 [0, 1] ∧
      ¬RowsAgree { numAttentionHeads := some 1 } ⟨1, 1⟩ (oneSegment 2) 2 2 [0, 2] := by
  have haccepts : AcceptsShape { numAttentionHeads := some 1 } (oneSegment 2) 2 :=
    ⟨by decide, by decide, by decide⟩
  constructor
  · refine (updateCacheBatched_rowsAgree haccepts).1
      (.inr (.inr (.inr (.inr fun i start hi hrow => ⟨.inl ⟨nofun, by decide, ?_⟩, fun _ _ => ?_⟩))))
    · rcases i with - | - | i <;> cases hi <;> decide
    · nofun
  · intro hagree
    obtain h | h | h | h | h := (updateCacheBatched_rowsAgree haccepts).2 _ rfl hagree
    · exact absurd h (by decide)
    · cases h
    · cases h
    · cases h
    · obtain ⟨⟨-, -, hfit⟩ | ⟨-, hout⟩, -⟩ := h 1 2 rfl (by decide)
      · exact absurd hfit (by decide)
      · exact absurd (hout nofun (by decide)) (by decide)

/-- Out of range the loop skips a row whose positions `_write_kvs` overwrites with its token, and of
one key-value head for two heads it takes that of the next row for the second. -/
theorem updateCacheBatched_rowsDiffer :
    ¬RowsAgree { numAttentionHeads := some 1 } ⟨1, 1⟩ (oneSegment 2) 2 1 [0, 3] ∧
      ¬RowsAgree { numAttentionHeads := some 2, numKeyValueHeads := some 1 } ⟨1, 1⟩ (oneSegment 4)
        2 1 [0, 1] := by
  constructor <;> intro hagree
  · have hnumber := hagree (constantKvs 2 1) (constantKvs 2 1) ⟨rfl, rfl, rfl⟩ ⟨rfl, rfl, rfl⟩ 1 3
      rfl (by decide) (fun _ _ _ _ => rfl) 0 0 0 (by decide) (by decide) (by decide)
    revert hnumber
    decide
  · have hnumber := hagree (constantKvs 2 1) (constantKvs 2 1) ⟨rfl, rfl, rfl⟩ ⟨rfl, rfl, rfl⟩ 0 0
      rfl (by decide) (fun _ _ _ _ => rfl) 0 1 0 (by decide) (by decide) (by decide)
    revert hnumber
    decide

end BloomBee.KVSlab

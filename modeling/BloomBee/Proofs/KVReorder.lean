import BloomBee.Proofs.KVSlab
import BloomBee.Spec.KVReorder
import BloomBee.Sanity.SpeDecTree
import Mathlib.Algebra.Ring.Nat
import Mathlib.Data.List.GetD

/-! The masked gathers of `reorder_and_write_cache` pack every row as its position ids say, and the
write-back stores the rows in the slab. -/

set_option autoImplicit false

namespace BloomBee.KVSlab

open Masked (argmax cumsum ints scatter)
open PagedKV (BlockConfig NewKvs Tensor)
open PagedKV.PagedKVTable (Broadcasts broadcastIndex)
open Speculative (compactRow maxNewLength validLength)

variable {κ : Type}

/-! ### One row -/

theorem find?_isValid (row : List ℤ) :
    row.find? isValid = (row.filter fun p => 0 ≤ p).head? := (List.head?_filter ..).symm

theorem rootPosition_eq (sOld : ℕ) (row : List ℤ) :
    rootPosition sOld row = ((row.filter fun p => 0 ≤ p).head?.map Int.toNat).getD sOld := by
  rw [rootPosition, ← find?_isValid]
  by_cases h : row.any isValid
  · obtain ⟨id, hid⟩ := Option.isSome_iff_exists.mp
      (List.find?_isSome.mpr (List.any_eq_true.mp h))
    rw [if_pos h, List.getD_eq_getElem?_getD, Masked.getElem?_argmax h, hid]
    rfl
  · have hnone : row.find? isValid = none := by
      rw [List.find?_eq_none]
      intro id hid hvalid
      exact h (List.any_eq_true.mpr ⟨id, hid, hvalid⟩)
    rw [if_neg h, hnone]
    rfl

theorem validLengths_eq (sOld : ℕ) (ids : PositionIds) :
    validLengths sOld ids = ids.rows.map (validLength sOld) := by
  refine List.map_congr_left fun row _ => ?_
  rw [rootPosition_eq, List.countP_eq_length_filter]
  rfl

theorem scatter_range (out old : ℕ → κ) (n s : ℕ) :
    scatter out ((List.range n).map fun i => (i, old i)) s = if s < n then old s else out s := by
  have hpairs : ((List.range n).map fun i => (i, old i)) =
      ((List.range n).map old).mapIdx fun k x => (0 + k, x) :=
    List.ext_getElem (by simp) fun k _ _ => by simp
  rw [hpairs, Masked.scatter_mapIdx, if_pos (Nat.zero_le s), Nat.sub_zero]
  split_ifs with hs
  · rw [List.getElem?_eq_getElem (by simpa using hs)]
    simp
  · rw [List.getElem?_eq_none (by simpa using hs)]
    rfl

/-- The assignments of the tree go to consecutive slots, in the order of the valid ids. -/
theorem treeAssignments_eq (root : ℕ) (old : ℕ → κ) (row : List ℤ) :
    (((row.zip ((cumsum 0 (ints isValid row)).map fun total => root + (total - 1))).filter
        fun x => isValid x.1).map fun x => (x.2, old x.1.toNat)) =
      ((row.filter fun p => 0 ≤ p).map fun p => old p.toNat).mapIdx fun k x => (root + k, x) := by
  have hfilter : (row.filter fun p => 0 ≤ p) = row.filter isValid := rfl
  rw [List.zip_map_right, List.filter_map, hfilter]
  change ((((row.zip (cumsum 0 (ints isValid row))).filter fun x => isValid x.1).map _).map _) = _
  rw [Masked.zip_cumsum]
  exact List.ext_getElem (by simp) fun k _ _ => by simp

theorem filter_range {m n : ℕ} (h : m ≤ n) :
    ((List.range n).filter fun i => i < m) = List.range m := by
  obtain ⟨k, rfl⟩ := Nat.exists_eq_add_of_le h
  rw [List.range_add, List.filter_append, List.filter_eq_self.mpr (by simp),
    List.filter_eq_nil_iff.mpr (by simp), List.append_nil]

theorem newRow_eq [Zero κ] {sOld maxRoot : ℕ} (old : ℕ → κ) {row : List ℤ}
    (hroot : rootPosition sOld row ≤ maxRoot) (s : ℕ) :
    newRow sOld maxRoot old row s =
      if s < rootPosition sOld row then old s
      else ((row.filter fun p => 0 ≤ p)[s - rootPosition sOld row]?.map
        fun p => old p.toNat).getD 0 := by
  simp only [newRow]
  rw [treeAssignments_eq, filter_range hroot, Masked.scatter_mapIdx, scatter_range]
  split_ifs with h1 h2 h2
  · omega
  · rw [List.getElem?_map]
  · rfl
  · omega

theorem newRow_eq_compactRow [Zero κ] {sOld maxRoot newLen s : ℕ} (old : ℕ → κ) {row : List ℤ}
    (hids : ∀ id ∈ row, id < sOld) (hroot : rootPosition sOld row ≤ maxRoot) (hs : s < newLen) :
    newRow sOld maxRoot old row s =
      (compactRow 0 ((List.range sOld).map old) row newLen).getD s 0 := by
  have hold {i : ℕ} (hi : i < sOld) : ((List.range sOld).map old).getD i 0 = old i := by
    rw [List.getD_eq_getElem _ _ (by simpa using hi)]
    simp
  have hle : rootPosition sOld row ≤ sOld := by
    rw [rootPosition_eq]
    cases hhead : (row.filter fun p => 0 ≤ p).head? with
    | none => exact Nat.le_refl _
    | some id =>
      have := hids id (List.mem_of_mem_filter (List.mem_of_head? hhead))
      simp only [Option.map_some, Option.getD_some]
      omega
  have hlength : ((List.range sOld).map old).length = sOld := by simp
  rw [newRow_eq old hroot, List.getD_eq_getElem _ _ (by rwa [Speculative.compactRow_length])]
  simp only [compactRow, List.getElem_map, List.getElem_range, hlength, ← rootPosition_eq]
  split_ifs with hlt
  · rw [hold (by omega)]
  · cases hid : (row.filter fun p => 0 ≤ p)[s - rootPosition sOld row]? with
    | none => rfl
    | some id =>
      have hmem := List.mem_of_mem_filter (List.mem_of_getElem? hid)
      have hvalid : 0 ≤ id := by simpa using List.of_mem_filter (List.mem_of_getElem? hid)
      have := hids id hmem
      simp only [Option.map_some, Option.getD_some]
      rw [hold (by omega)]

/-! ### The write-back -/

variable {α : Type} {cfg : BlockConfig} {p : KVMultiplex.Policy}

theorem place_zero {seqLen : ℕ} {src : Block κ} (h : src.tokens ≤ seqLen) :
    place seqLen 0 src = (0, src.tokens, src) := by
  rcases Nat.eq_zero_or_pos seqLen with h0 | hpos
  · rw [place_outOfRange (by omega), Block.last, if_pos h0]
    exact Prod.ext rfl (Prod.ext (by simp only; omega) rfl)
  · have hfit : 0 + src.tokens ≤ seqLen := by omega
    exact_mod_cast place_inRange hpos hfit

theorem newKvs_cell {pkv : Pkv (Cell α)} {r h t : ℕ} (hh : h < pkv.heads) :
    (block pkv.newKvs).data t (r * pkv.heads + h) = pkv.cell r h t := by
  have hpos := Nat.zero_lt_of_lt hh
  have hdiv : (r * pkv.heads + h) / pkv.heads = r := by
    rw [Nat.mul_comm, Nat.mul_add_div hpos, Nat.div_eq_of_lt hh, Nat.add_zero]
  have hmod : (r * pkv.heads + h) % pkv.heads = h := by
    rw [Nat.mul_comm, Nat.mul_add_mod, Nat.mod_eq_of_lt hh]
  simp only [block, Pkv.newKvs, hdiv, hmod]

theorem asyncWritePkvCache_stores {heads : ℕ} (pkv : Pkv (Cell α)) (hcfg : cfg.attentionHeads = heads)
    (hheads : 0 < heads) {c : Cache (Cell α)} {mb : MicroBatch} (hpkv : pkv.heads = heads)
    (hd : pkv.d = c.d) (hfit : pkv.len ≤ c.seqLen)
    (hsource : mb.sourceHeads cfg (pkv.batch * heads) = heads)
    (hrows : firstRow cfg p c mb + pkv.batch ≤ c.batch heads) :
    ∃ c', asyncWritePkvCache cfg p c pkv 0 mb = (c', .ok ()) ∧
      Stores heads 0 pkv.len (firstRow cfg p c mb) pkv.batch heads pkv.cell c c' := by
  have hbh : pkv.newKvs.bh = pkv.batch * heads := by rw [Pkv.newKvs, hpkv]
  have hsource' : mb.sourceHeads cfg pkv.newKvs.bh = heads := by rw [hbh, hsource]
  have hbatch : pkv.newKvs.bh / mb.sourceHeads cfg pkv.newKvs.bh = pkv.batch := by
    rw [hsource', hbh, Nat.mul_div_cancel _ hheads]
  have haccepts : Accepts cfg p c mb pkv.newKvs := by
    refine ⟨hcfg.symm ▸ hheads, hd, ?_, ?_⟩
    · rw [hsource', hbh, Nat.mul_mod_left]
    · rwa [hbatch, hcfg]
  have hplace : place c.seqLen 0 (block pkv.newKvs) = (0, pkv.len, block pkv.newKvs) :=
    place_zero hfit
  have htaken : taken cfg mb pkv.newKvs pkv.len (block pkv.newKvs).tokens = pkv.len :=
    taken_of_le (Nat.le_refl _)
  obtain ⟨c', hwrite, hstores⟩ := writeKvs_stores haccepts hplace (by omega) (.inl htaken)
  rw [hcfg, hbatch, hsource', htaken] at hstores
  refine ⟨c', hwrite, hstores.shape, fun r hr h hh t ht => ?_, hstores.kept⟩
  have htoken : broadcastIndex pkv.len t = t := broadcastIndex_of_lt ht
  rw [hstores.stored r hr h hh t ht, htoken]
  subst hpkv
  rw [newKvs_cell hh]

/-- The rows packed as their position ids say: the slots before the root, those of the valid ids in
their order, and zeros up to the longest row. -/
def packed [Zero α] (pkv : Pkv (Cell α)) (ids : PositionIds) (b h s : ℕ) : Cell α :=
  (compactRow 0 ((List.range pkv.len).map (pkv.cell b h)) (ids.rows.getD b [])
    (maxNewLength pkv.len ids.rows)).getD s 0

theorem Stores.congr {stride start sNew first rows heads : ℕ} {value value' : ℕ → ℕ → ℕ → κ}
    {c c' : Cache κ} (hs : Stores stride start sNew first rows heads value c c')
    (h : ∀ r < rows, ∀ h < heads, ∀ t < sNew, value r h t = value' r h t) :
    Stores stride start sNew first rows heads value' c c' where
  shape := hs.shape
  stored r hr h' hh t ht := by rw [hs.stored r hr h' hh t ht, h r hr h' hh t ht]
  kept := hs.kept

theorem reordered_len [Zero α] (pkv : Pkv (Cell α)) (ids : PositionIds) :
    (pkv.reordered ids).len = maxNewLength pkv.len ids.rows := by
  rw [Pkv.reordered, validLengths_eq, maxNewLength]

theorem reordered_cell [Zero α] {pkv : Pkv (Cell α)} {ids : PositionIds}
    (hids : ∀ row ∈ ids.rows, ∀ id ∈ row, id < pkv.len) {b h s : ℕ} (hb : b < ids.rows.length)
    (hs : s < maxNewLength pkv.len ids.rows) :
    (pkv.reordered ids).cell b h s = packed pkv ids b h s := by
  have hmem : ids.rows.getD b [] ∈ ids.rows := by
    rw [List.getD_eq_getElem _ _ hb]
    exact List.getElem_mem hb
  have hroot : rootPosition pkv.len (ids.rows.getD b []) ≤
      (ids.rows.map (rootPosition pkv.len)).foldr max 0 :=
    List.le_max_of_le' 0 (List.mem_map_of_mem hmem) (Nat.le_refl _)
  exact newRow_eq_compactRow _ (hids _ hmem) hroot hs

/-- The gathered rows are written back, when the write-back takes its source for rows of all the
heads. -/
theorem reorderAndWriteCache_stores [Zero α] {heads : ℕ} (hcfg : cfg.attentionHeads = heads)
    (hheads : 0 < heads) {c : Cache (Cell α)} {pkv : Pkv (Cell α)} {ids : PositionIds}
    {mb : MicroBatch} (hpkv : pkv.heads = heads) (hd : pkv.d = c.d) (hpos : 0 < pkv.batch)
    (hbatch : ids.rows.length = pkv.batch) (hwidth : 0 < ids.width)
    (hids : ∀ row ∈ ids.rows, ∀ id ∈ row, id < pkv.len)
    (hfit : (pkv.reordered ids).len ≤ c.seqLen)
    (hsource : mb.sourceHeads cfg (pkv.batch * heads) = heads)
    (hrows : firstRow cfg p c mb + pkv.batch ≤ c.batch heads) :
    ∃ c', reorderAndWriteCache cfg p c pkv ids mb =
        (c', .ok ((pkv.reordered ids).len, validLengths pkv.len ids)) ∧
      Stores heads 0 (pkv.reordered ids).len (firstRow cfg p c mb) pkv.batch heads
        (pkv.reordered ids).cell c c' := by
  have hbehind : ¬∃ row ∈ ids.rows, ∃ id ∈ row, (pkv.len : ℤ) ≤ id := by
    rintro ⟨row, hrow, id, hid, hle⟩
    exact absurd (hids row hrow id hid) (Int.not_lt.mpr hle)
  obtain ⟨c', hwrite, hstores⟩ := asyncWritePkvCache_stores (pkv.reordered ids) hcfg hheads hpkv hd
    hfit hsource hrows
  refine ⟨c', ?_, hstores⟩
  simp only [reorderAndWriteCache]
  rw [if_neg hpos.ne', if_neg (by omega), if_neg hbehind, hwrite]
  rfl

/-- `reorder_and_write_cache` packs every row, when the write-back takes its source for rows of all
the heads. It does for the true number of rows, and for a model without grouped heads. -/
theorem reorderAndWriteCache_packs [Zero α] {heads : ℕ} (hcfg : cfg.attentionHeads = heads)
    (hheads : 0 < heads) {c : Cache (Cell α)} {pkv : Pkv (Cell α)} {ids : PositionIds}
    {mb : MicroBatch} (hpkv : pkv.heads = heads) (hd : pkv.d = c.d) (hpos : 0 < pkv.batch)
    (hbatch : ids.rows.length = pkv.batch) (hwidth : 0 < ids.width)
    (hids : ∀ row ∈ ids.rows, ∀ id ∈ row, id < pkv.len)
    (hfit : maxNewLength pkv.len ids.rows ≤ c.seqLen)
    (hsource : mb.sourceHeads cfg (pkv.batch * heads) = heads)
    (hrows : firstRow cfg p c mb + pkv.batch ≤ c.batch heads) :
    ∃ c', reorderAndWriteCache cfg p c pkv ids mb =
        (c', .ok (maxNewLength pkv.len ids.rows, ids.rows.map (validLength pkv.len))) ∧
      Stores heads 0 (maxNewLength pkv.len ids.rows) (firstRow cfg p c mb) pkv.batch heads
        (packed pkv ids) c c' := by
  have hlen := reordered_len pkv ids
  obtain ⟨c', hwrite, hstores⟩ := reorderAndWriteCache_stores hcfg hheads hpkv hd hpos hbatch
    hwidth hids (hlen ▸ hfit) hsource hrows
  rw [hlen] at hwrite hstores
  rw [validLengths_eq] at hwrite
  exact ⟨c', hwrite, hstores.congr fun b hb h _ s hs => reordered_cell hids (hbatch ▸ hb) hs⟩

/-- A slab with room for three tokens of two heads, on two devices, and the position ids of a row
with padding inside. -/
def paddedIds : PositionIds where
  width := 4
  rows := [[1, -1, 2, -1]]
  rows_width := by decide

def threeTokens : Pkv (Cell ℕ) where
  batch := 1
  heads := 2
  len := 3
  d := 1
  cell := fun _ h s => ⟨fun _ => 10 * h + s, fun _ => 10 * h + s⟩

def groupedHeads : BlockConfig := { numAttentionHeads := some 2, numKeyValueHeads := some 1 }

theorem reorderAndWriteCache_packs_paddedIds :
    ∃ c', reorderAndWriteCache groupedHeads ⟨1, 1⟩ (twoSegments 3 1 1) threeTokens paddedIds
        ⟨0, 1, 1⟩ = (c', .ok (3, [3])) ∧
      Stores 2 0 3 0 1 2 (packed threeTokens paddedIds) (twoSegments 3 1 1) c' := by
  have hrows : firstRow groupedHeads ⟨1, 1⟩ (twoSegments 3 1 1) ⟨0, 1, 1⟩ + 1 ≤
      (twoSegments 3 1 1).batch 2 := by decide
  exact reorderAndWriteCache_packs rfl (by decide) rfl rfl (by decide) rfl (by decide) (by decide)
    (by decide) (by decide) hrows

/-- Without the sizes the same write-back takes the two heads of the row for two rows of one. -/
theorem reorderAndWriteCache_groupedHeads :
    reorderAndWriteCache groupedHeads ⟨1, 1⟩ (twoSegments 3 1 1) threeTokens paddedIds {} =
      (twoSegments 3 1 1, .error (.bhMismatch 4 2)) := by
  rfl

end BloomBee.KVSlab

import BloomBee.Sanity.LiveDecode
import BloomBee.Sanity.SpeDecTree
import BloomBee.Spec.SpecCache
import Mathlib.Data.List.MinMax
import Mathlib.Data.List.Perm.Subperm
import Mathlib.Order.Nat

/-! The cache of speculative decoding, round by round. The client and the server number the slots
of a row independently. All rows are in agreement before a round: the cache begins with the
committed tokens of the row and the nodes of its last tree. `agreement_kept_iff` says when every
input of the round sees exactly the committed tokens, and all rows are in agreement afterwards. -/

set_option autoImplicit false

namespace BloomBee.Speculative

open RpcInference
open BackendStep (OneChunk estimateMaxChunkLength_pos oneChunk_iff_le runUncut_eq_some)

variable {κ : Type}

/-- Slots `0..root` have the committed tokens in order, and the slots after them the nodes of the
linearized tree. -/
def InAgreement (slots committed : List κ) (tree : Forest κ) : Prop :=
  committed ++ tree.tokens <+: slots

/-- The round is served, every token of it attends in the cache to exactly the committed tokens of
its row, and all rows are in agreement again. -/
def AgreementKept (cfg : RoundConfig κ) (slab : Slab κ) (rows : List (RoundRow κ)) : Prop :=
  ∃ attended slab', serveRound cfg slab rows = .ok (attended, slab') ∧
    ∀ b row, rows[b]? = some row →
      (∀ i ≤ row.next.size,
        attended b row i = row.committed ++ row.verifiedTokens cfg.padTokenId) ∧
      InAgreement (slab'.row b) (row.committed' cfg.padTokenId) row.next

def verifiedIds (rows : List (RoundRow κ)) : List (List ℤ) := padIds (rows.map RoundRow.positions)

def behind (rows : List (RoundRow κ)) : ℕ := cacheLenOf (verifiedIds rows)

def treeLen (rows : List (RoundRow κ)) : ℕ := 1 + maxTreeSize (rows.map RoundRow.next)

/-- The tokens of the row are those of the nodes that stay in the cache: a finished row has no other
accepted nodes than padding. -/
def RoundRow.TokensCached (padTokenId : κ) (row : RoundRow κ) : Prop :=
  row.finished = true → ∀ n ∈ row.accepted, n.token = padTokenId

def Fits (slab : Slab κ) (rows : List (RoundRow κ)) : Prop :=
  behind rows + treeLen rows ≤ slab.seqLen

/-! ### Position ids -/

section

variable (row : RoundRow κ)

theorem root_add_one : row.root + 1 = row.committed.length := by
  have := List.length_pos_iff.mpr row.committed_ne
  rw [RoundRow.root]
  omega

theorem accepted_isPath : IsPathFrom 0 row.tree row.accepted := by
  obtain ⟨p, hp, hpre⟩ := row.accepted_path
  exact (leafNodePaths_isPath row.tree p hp).shorten hpre

/-- The slots that the ids of a row name: the root and the accepted nodes. -/
def RoundRow.slots (row : RoundRow κ) : List ℕ :=
  row.root :: row.accepted.map fun n => row.root + n.position + 1

theorem positions_eq : row.positions = row.slots.map (Nat.cast : ℕ → ℤ) := by
  rw [RoundRow.positions, RoundRow.slots, List.map_cons, List.map_map]
  rfl

theorem slots_sorted : (List.range row.root ++ row.slots).Pairwise (· < ·) := by
  have hpath := (accepted_isPath row).positions.1
  rw [List.pairwise_append]
  refine ⟨List.pairwise_lt_range, ?_, ?_⟩
  · rw [RoundRow.slots, List.pairwise_cons]
    refine ⟨?_, ?_⟩
    · intro i hi
      obtain ⟨n, -, rfl⟩ := List.mem_map.mp hi
      omega
    · rw [List.pairwise_map] at hpath ⊢
      exact hpath.imp fun h => by omega
  · intro i hi j hj
    rw [List.mem_range] at hi
    rcases List.mem_cons.mp hj with rfl | hj
    · exact hi
    · obtain ⟨n, -, rfl⟩ := List.mem_map.mp hj
      omega

theorem filterMap_range_get (l : List κ) :
    (List.range l.length).filterMap (fun i => l[i]?) = l := by
  induction l with
  | nil => rfl
  | cons x l ih =>
    rw [List.length_cons, List.range_succ_eq_map, List.filterMap_cons, List.filterMap_map]
    exact congrArg (x :: ·) ih

theorem slots_content {row : RoundRow κ} {slots : List κ}
    (h : InAgreement slots row.committed row.tree) :
    (List.range row.root ++ row.slots).filterMap (fun i => slots[i]?) =
      row.committed ++ row.accepted.map Node.token := by
  obtain ⟨rest, rfl⟩ := h
  have hroot := root_add_one row
  have hget : ∀ i < row.committed.length,
      (row.committed ++ row.tree.tokens ++ rest)[i]? = row.committed[i]? := by
    intro i hi
    rw [List.append_assoc, List.getElem?_append_left hi]
  have hcommitted : (List.range (row.root + 1)).filterMap
      (fun i => (row.committed ++ row.tree.tokens ++ rest)[i]?) = row.committed := by
    rw [List.filterMap_congr fun i hi => hget i (by rw [List.mem_range] at hi; omega), hroot]
    exact filterMap_range_get row.committed
  have haccepted : (row.accepted.map fun n => row.root + n.position + 1).filterMap
      (fun i => (row.committed ++ row.tree.tokens ++ rest)[i]?) = row.accepted.map Node.token := by
    rw [List.filterMap_map, ← List.filterMap_eq_map]
    apply List.filterMap_congr
    intro n hn
    have htoken := (accepted_isPath row).token n hn
    have hlt := (List.getElem?_eq_some_iff.mp htoken).1
    rw [Nat.sub_zero] at htoken
    simp only [Function.comp_apply]
    rw [List.append_assoc, List.getElem?_append_right (by omega),
      show row.root + n.position + 1 - row.committed.length = n.position by omega,
      List.getElem?_append_left (by omega), htoken]
  rw [RoundRow.slots, List.append_cons, ← List.range_succ, List.filterMap_append, hcommitted,
    haccepted]

end

theorem foldr_max_append (l₁ l₂ : List ℕ) :
    (l₁ ++ l₂).foldr max 0 = max (l₁.foldr max 0) (l₂.foldr max 0) := by
  induction l₁ with
  | nil => simp
  | cons a l₁ ih => rw [List.cons_append, List.foldr_cons, List.foldr_cons, ih, Nat.max_assoc]

/-- The client and the server get the same length of the window. -/
theorem selectLen_eq (ids : List (List ℤ)) : selectLen ids = cacheLenOf ids := by
  induction ids with
  | nil => rfl
  | cons r ids ih =>
    rw [selectLen, List.map_cons, List.foldr_cons, cacheLenOf, List.flatten_cons, List.map_append,
      foldr_max_append]
    exact congrArg (max _) ih

/-- The ids that a row ends up with: its positions and padding. -/
theorem verifiedIds_get {rows : List (RoundRow κ)} {b : ℕ} {row : RoundRow κ}
    (hb : rows[b]? = some row) :
    ∃ k, (verifiedIds rows)[b]? = some (row.positions ++ List.replicate k (-1)) := by
  simp only [verifiedIds, padIds, List.getElem?_map, hb, Option.map_some]
  exact ⟨_, rfl⟩

theorem slots_lt {rows : List (RoundRow κ)} {b : ℕ} {row : RoundRow κ} (hb : rows[b]? = some row)
    {s : ℕ} (hs : s ∈ row.slots) : s < behind rows := by
  obtain ⟨k, hk⟩ := verifiedIds_get hb
  refine lt_cacheLenOf (List.mem_of_getElem? hk) (List.mem_append_left _ ?_)
  rw [positions_eq]
  exact List.mem_map_of_mem hs

/-! ### What the inputs attend to -/

theorem cacheValidMask_length (ids : List ℤ) (cacheLen : ℕ) :
    (cacheValidMask ids cacheLen).length = cacheLen := by
  rw [cacheValidMask, List.length_map, List.length_range]

/-- All inputs of a row see the same slots of the cache. -/
theorem generationMaskRow_take (ids : List ℤ) (cacheLen maxSize : ℕ) (tree : Forest κ) (i : ℕ) :
    (generationMaskRow ids cacheLen maxSize tree i).take cacheLen = cacheValidMask ids cacheLen := by
  have hlen := cacheValidMask_length ids cacheLen
  have htake : ∀ l, (cacheValidMask ids cacheLen ++ l).take cacheLen =
      cacheValidMask ids cacheLen := fun l => List.take_left' hlen
  cases i with
  | zero => exact htake _
  | succ i =>
    simp only [generationMaskRow]
    split_ifs <;> exact htake _

/-- The mask admits the slots before the root, the root and the other listed slots. -/
theorem cacheValidMask_get {root : ℕ} {rest : List ℕ} (k : ℕ) {cacheLen j : ℕ}
    (hlt : ∀ s ∈ root :: rest, s < cacheLen) (hj : j < cacheLen) :
    (cacheValidMask ((root :: rest).map (Nat.cast : ℕ → ℤ) ++ List.replicate k (-1)) cacheLen)[j]? =
      some (decide (j ∈ List.range root ++ root :: rest)) := by
  have hrootlt := hlt root List.mem_cons_self
  have hroot : rootPosition ((root :: rest).map (Nat.cast : ℕ → ℤ) ++ List.replicate k (-1)) =
      root := by
    simp [rootPosition]
  rw [cacheValidMask, List.getElem?_map, List.getElem?_range hj, Option.map_some, hroot]
  congr 2
  rw [List.mem_append, List.mem_range, sliceStop, if_neg (by omega), Int.toNat_natCast,
    Nat.min_eq_left (by omega)]
  refine propext (or_congr_right ?_)
  constructor
  · rintro ⟨p, hp, hpos, hmin⟩
    rcases List.mem_append.mp hp with hp | hp
    · obtain ⟨s, hs, rfl⟩ := List.mem_map.mp hp
      have := hlt s hs
      rw [Int.toNat_natCast, Nat.min_eq_left (by omega)] at hmin
      exact hmin ▸ hs
    · have := List.eq_of_mem_replicate hp
      omega
  · intro hs
    refine ⟨j, List.mem_append_left _ (List.mem_map_of_mem hs), by omega, ?_⟩
    rw [Int.toNat_natCast]
    omega

/-- What the inputs of a row see of the cache: the slots before its root and the listed ones. -/
theorem attended_slots {slab : Slab κ} {ids : List (List ℤ)} {b maxSize root k : ℕ}
    {rest : List ℕ} (hk : ids[b]? = some ((root :: rest).map (Nat.cast : ℕ → ℤ) ++
      List.replicate k (-1)))
    (hsorted : (List.range root ++ root :: rest).Pairwise (· < ·))
    (hfits : cacheLenOf ids ≤ slab.seqLen) (next : Forest κ) (i : ℕ) :
    attendedSlots slab ids maxSize b next i =
      (List.range root ++ root :: rest).filterMap fun s => (slab.row b)[s]? := by
  have hlt : ∀ s ∈ root :: rest, s < cacheLenOf ids := fun s hs =>
    lt_cacheLenOf (List.mem_of_getElem? hk) (List.mem_append_left _ (List.mem_map_of_mem hs))
  have hwin : ((slab.row b).take (cacheLenOf ids)).length = cacheLenOf ids := by
    rw [List.length_take, slab.row_length]
    omega
  have hin : ∀ s ∈ List.range root ++ root :: rest, s < cacheLenOf ids := by
    intro s hs
    rcases List.mem_append.mp hs with hs | hs
    · have := hlt root List.mem_cons_self
      rw [List.mem_range] at hs
      omega
    · exact hlt s hs
  rw [attendedSlots, selectLen_eq, List.getD_eq_getElem?_getD, hk, Option.getD_some,
    generationMaskRow_take, select_of_sorted 0 ?_ hsorted ?_ ?_]
  · apply List.filterMap_congr
    intro s hs
    rw [Nat.sub_zero, List.getElem?_take_of_lt (hin s hs)]
  · rw [cacheValidMask_length, hwin]
  · intro s hs
    rw [hwin]
    exact ⟨Nat.zero_le _, by have := hin s hs; omega⟩
  · intro j hj
    rw [hwin] at hj
    rw [cacheValidMask_get k hlt hj, Nat.zero_add]

theorem attended_committed {slab : Slab κ} {rows : List (RoundRow κ)} {b maxSize : ℕ}
    {row : RoundRow κ} (hb : rows[b]? = some row)
    (hag : InAgreement (slab.row b) row.committed row.tree)
    (hfits : behind rows ≤ slab.seqLen) (i : ℕ) :
    attendedSlots slab (verifiedIds rows) maxSize b row.next i =
      row.committed ++ row.accepted.map Node.token := by
  obtain ⟨k, hk⟩ := verifiedIds_get hb
  rw [positions_eq] at hk
  rw [attended_slots hk (slots_sorted row) hfits, ← slots_content hag]
  rfl

/-! ### The write and the compaction -/

/-- What is written at the first slot is what the row begins with. -/
theorem prefix_overwrite {row new : List κ} (h : new.length ≤ row.length) :
    new <+: overwrite row 0 new := by
  have := @overwrite_take_new κ row new 0 (by omega)
  rw [Nat.zero_add, List.take_zero, List.nil_append] at this
  rw [List.prefix_iff_eq_take, this]

/-- The compacted row: what stood before the root and at the valid ids, then zeros. -/
theorem compactRow_eq {zero : κ} {old : List κ} {ids : List ℤ} {root : ℕ} {rest : List ℕ}
    {newLen : ℕ} (hvalid : (ids.filter fun p => 0 ≤ p) = (root :: rest).map (Nat.cast : ℕ → ℤ))
    (hin : ∀ i ∈ List.range root ++ (root :: rest), i < old.length)
    (hlen : root + (rest.length + 1) ≤ newLen) :
    compactRow zero old ids newLen =
      (List.range root ++ (root :: rest)).filterMap (fun i => old[i]?) ++
        List.replicate (newLen - (root + (rest.length + 1))) zero := by
  have hall : (List.range root ++ (root :: rest)).filterMap (fun i => old[i]?) =
      (List.range root ++ (root :: rest)).map fun i => old.getD i zero := by
    rw [← List.filterMap_eq_map]
    apply List.filterMap_congr
    intro i hi
    simp only [Function.comp_apply]
    rw [List.getD_eq_getElem?_getD, List.getElem?_eq_getElem (hin i hi), Option.getD_some]
  rw [hall]
  simp only [compactRow, hvalid]
  simp only [List.map_cons, List.head?_cons, Option.map_some, Option.getD_some, Int.toNat_natCast]
  apply List.ext_getElem?
  intro i
  rw [List.getElem?_map]
  by_cases hi : i < newLen
  · rw [List.getElem?_range hi, Option.map_some]
    by_cases hroot : i < root
    · rw [if_pos hroot, List.map_append, List.append_assoc,
        List.getElem?_append_left (by simpa using hroot), List.getElem?_map,
        List.getElem?_range hroot, Option.map_some]
    · rw [if_neg hroot, List.map_append, List.append_assoc,
        List.getElem?_append_right (by simpa using hroot), List.length_map, List.length_range]
      have hcast : (root : ℤ) :: rest.map (Nat.cast : ℕ → ℤ) =
          (root :: rest).map (Nat.cast : ℕ → ℤ) := rfl
      rw [hcast, List.getElem?_map]
      by_cases hv : i - root < (root :: rest).length
      · rw [List.getElem?_append_left (by rwa [List.length_map]), List.getElem?_map,
          List.getElem?_eq_getElem hv]
        rfl
      · rw [List.length_cons] at hv
        rw [List.getElem?_append_right (by rw [List.length_map, List.length_cons]; omega),
          List.getElem?_eq_none (by rw [List.length_cons]; omega), List.getElem?_replicate,
          if_pos (by rw [List.length_map, List.length_cons]; omega)]
        rfl
  · rw [List.getElem?_eq_none (by rw [List.length_range]; omega), List.getElem?_eq_none]
    · rfl
    · rw [List.length_append, List.length_map, List.length_append, List.length_range,
        List.length_cons, List.length_replicate]
      omega

section

variable {slab : Slab κ} {rows : List (RoundRow κ)} {b : ℕ} {row : RoundRow κ}

theorem inputs_length (cfg : RoundConfig κ) (hrow : row ∈ rows) :
    (row.inputs cfg (maxTreeSize (rows.map RoundRow.next))).length = treeLen rows := by
  have hle : row.next.size ≤ maxTreeSize (rows.map RoundRow.next) :=
    List.le_max_of_le' 0 (List.mem_map_of_mem (List.mem_map_of_mem hrow)) (Nat.le_refl _)
  rw [RoundRow.inputs, paddedTokens, List.length_cons, List.length_append, tokens_length,
    List.length_replicate, treeLen]
  omega

theorem verifiedIds_length : (verifiedIds rows).length = rows.length := by
  rw [verifiedIds, padIds, List.length_map, List.length_map]

/-- The slots of the root, of the accepted nodes and of the tree that was just written. -/
def RoundRow.kept (row : RoundRow κ) (writePosition treeLen : ℕ) : List ℕ :=
  row.accepted.map (fun n => row.root + n.position + 1) ++
    (List.range treeLen).map fun j => writePosition + j

theorem extendIds_valid (hb : rows[b]? = some row) (writePosition treeLen : ℕ) :
    ∃ r, (extendIds (verifiedIds rows) writePosition treeLen)[b]? = some r ∧
      (r.filter fun p => 0 ≤ p) =
        (row.root :: row.kept writePosition treeLen).map (Nat.cast : ℕ → ℤ) := by
  obtain ⟨k, hk⟩ := verifiedIds_get hb
  refine ⟨_, by rw [extendIds, List.getElem?_map, hk, Option.map_some], ?_⟩
  have hpositions : (row.positions.filter fun p => 0 ≤ p) = row.positions := by
    rw [List.filter_eq_self]
    intro p hp
    rw [positions_eq] at hp
    obtain ⟨s, -, rfl⟩ := List.mem_map.mp hp
    simp
  have hpadding : ((List.replicate k (-1 : ℤ)).filter fun p => 0 ≤ p) = [] := by
    rw [List.filter_eq_nil_iff]
    intro p hp
    rw [List.eq_of_mem_replicate hp]
    decide
  have hnew : (((List.range treeLen).map fun j => ((writePosition + j : ℕ) : ℤ)).filter
      fun p => 0 ≤ p) = (List.range treeLen).map fun j => ((writePosition + j : ℕ) : ℤ) := by
    rw [List.filter_eq_self]
    intro p hp
    obtain ⟨j, -, rfl⟩ := List.mem_map.mp hp
    simp only [decide_eq_true_eq]
    omega
  rw [List.filter_append, List.filter_append, hpositions, hpadding, hnew, List.append_nil,
    positions_eq, RoundRow.slots, RoundRow.kept, List.map_cons, List.map_cons, List.map_append,
    List.cons_append, List.map_map, List.map_map]
  rfl

/-- The root and the accepted nodes take no more slots than lie before the tree. -/
theorem root_add_accepted_le (hb : rows[b]? = some row) :
    row.root + (row.accepted.length + 1) ≤ behind rows := by
  have hlt := fun s hs => @slots_lt _ rows b row hb s hs
  have hsub : List.range row.root ++ row.slots ⊆ List.range (behind rows) := by
    intro s hs
    rw [List.mem_range]
    rcases List.mem_append.mp hs with hs | hs
    · have := hlt row.root List.mem_cons_self
      rw [List.mem_range] at hs
      omega
    · exact hlt s hs
  have hnodup : (List.range row.root ++ row.slots).Nodup :=
    (slots_sorted row).imp fun h => Nat.ne_of_lt h
  have hle := (List.subperm_of_subset hnodup hsub).length_le
  rw [List.length_append, List.length_range, List.length_range, RoundRow.slots, List.length_cons,
    List.length_map] at hle
  exact hle

/-- The compacted row begins with the committed tokens, the accepted nodes and the inputs. -/
theorem compactRow_content {zero : κ} {inputs : List κ} {ids : List ℤ} {newLen : ℕ}
    (hb : rows[b]? = some row) (hag : InAgreement (slab.row b) row.committed row.tree)
    (hfits : behind rows + inputs.length ≤ slab.seqLen)
    (hvalid : (ids.filter fun p => 0 ≤ p) =
      (row.root :: row.kept (behind rows) inputs.length).map (Nat.cast : ℕ → ℤ))
    (hlen : row.root + (row.accepted.length + inputs.length + 1) ≤ newLen) :
    row.committed ++ row.accepted.map Node.token ++ inputs <+:
      compactRow zero ((overwrite (slab.row b) (behind rows) inputs).take
        (behind rows + inputs.length)) ids newLen := by
  have hlt := fun s hs => @slots_lt _ rows b row hb s hs
  revert hlt hfits hvalid
  generalize behind rows = W
  intro hfits hvalid hlt
  have hrow := slab.row_length b
  have hover : (overwrite (slab.row b) W inputs).length = slab.seqLen := by
    rw [overwrite_length, hrow]
  have hslots : ∀ s ∈ List.range row.root ++ row.slots, s < W := by
    intro s hs
    rcases List.mem_append.mp hs with hs | hs
    · have := hlt row.root List.mem_cons_self
      rw [List.mem_range] at hs
      omega
    · exact hlt s hs
  have hsplit : List.range row.root ++ (row.root :: row.kept W inputs.length) =
      List.range row.root ++ row.slots ++ (List.range inputs.length).map fun j => W + j := by
    rw [RoundRow.kept, RoundRow.slots, List.append_assoc, List.cons_append]
  have hkept : (row.kept W inputs.length).length = row.accepted.length + inputs.length := by
    rw [RoundRow.kept, List.length_append, List.length_map, List.length_map, List.length_range]
  rw [compactRow_eq hvalid ?_ (by omega)]
  · -- the entries before the tree are those of the agreeing row
    have hold : (List.range row.root ++ row.slots).filterMap (fun i =>
        ((overwrite (slab.row b) W inputs).take (W + inputs.length))[i]?) =
        row.committed ++ row.accepted.map Node.token := by
      rw [← slots_content hag]
      apply List.filterMap_congr
      intro s hs
      have := hslots s hs
      rw [List.getElem?_take_of_lt (by omega), overwrite_get_before (by omega)]
    have hnew : ((List.range inputs.length).map fun j => W + j).filterMap (fun i =>
        ((overwrite (slab.row b) W inputs).take (W + inputs.length))[i]?) = inputs := by
      rw [List.filterMap_map]
      refine Eq.trans (List.filterMap_congr fun j hj => ?_) (filterMap_range_get inputs)
      rw [List.mem_range] at hj
      simp only [Function.comp_apply]
      rw [List.getElem?_take_of_lt (by omega), overwrite_get_new hj (by omega)]
    rw [hsplit, List.filterMap_append, hold, hnew]
    exact List.prefix_append _ _
  · intro i hi
    rw [hsplit] at hi
    rw [List.length_take, hover]
    rcases List.mem_append.mp hi with hi | hi
    · have := hslots i hi
      omega
    · obtain ⟨j, hj, rfl⟩ := List.mem_map.mp hi
      rw [List.mem_range] at hj
      omega

theorem validLength_eq {ids : List ℤ} {cacheLen writePosition treeLen : ℕ}
    (hvalid : (ids.filter fun p => 0 ≤ p) =
      (row.root :: row.kept writePosition treeLen).map (Nat.cast : ℕ → ℤ)) :
    validLength cacheLen ids = row.root + (row.accepted.length + treeLen + 1) := by
  simp only [validLength, hvalid]
  simp [RoundRow.kept]

theorem place_row_of_some {f : ℕ → Option (ℕ × List κ)} {start : ℕ} {slots : List κ}
    (h : f b = some (start, slots)) :
    (LiveDecode.place slab f).row b = overwrite (slab.row b) start slots := by
  simp only [LiveDecode.place, h]

theorem writeKvs_inputs (cfg : RoundConfig κ) (hfits : Fits slab rows) :
    ∃ slab', writeKvs slab (behind rows) 0
        (rows.map fun row => row.inputs cfg (maxTreeSize (rows.map RoundRow.next))) = some slab' ∧
      slab'.seqLen = slab.seqLen ∧
      ∀ b row, rows[b]? = some row → slab'.row b = overwrite (slab.row b) (behind rows)
        (row.inputs cfg (maxTreeSize (rows.map RoundRow.next))) := by
  have hlens := fun row hrow => @inputs_length _ rows row cfg hrow
  have hpos : 0 < treeLen rows := by
    rw [treeLen]
    omega
  rw [Fits] at hfits
  refine ⟨_, LiveDecode.writeKvs_of_fits ?_, rfl, ?_⟩
  · intro kv hkv
    obtain ⟨row', hrow', rfl⟩ := List.mem_map.mp hkv
    have := hlens row' hrow'
    omega
  · intro b row hb
    apply place_row_of_some
    rw [LiveDecode.rowsFrom, if_pos (Nat.zero_le b), Nat.sub_zero, List.getElem?_map, hb]
    rfl

theorem reorderAndWriteCache_row {zero : κ} {cacheLen : ℕ} {ids : List (List ℤ)} {r : List ℤ}
    (hmax : maxNewLength cacheLen ids ≤ slab.seqLen) (hpos : 0 < slab.seqLen)
    (hr : ids[b]? = some r) :
    ∃ slab', reorderAndWriteCache zero slab 0 cacheLen ids = some slab' ∧
      compactRow zero ((slab.row b).take cacheLen) r (maxNewLength cacheLen ids) <+:
        slab'.row b := by
  refine ⟨_, LiveDecode.writeKvs_of_fits ?_, ?_⟩
  · intro kv hkv
    obtain ⟨c, hc, rfl⟩ := List.mem_mapIdx.mp hkv
    rw [compactRow_length]
    omega
  · have hput : LiveDecode.rowsFrom 0 0 (ids.mapIdx fun b r =>
        compactRow zero ((slab.row (0 + b)).take cacheLen) r (maxNewLength cacheLen ids)) b =
        some (0, compactRow zero ((slab.row b).take cacheLen) r (maxNewLength cacheLen ids)) := by
      rw [LiveDecode.rowsFrom, if_pos (Nat.zero_le b), Nat.sub_zero, List.getElem?_mapIdx, hr,
        Nat.zero_add]
      rfl
    rw [place_row_of_some hput]
    apply prefix_overwrite
    rwa [compactRow_length, slab.row_length]

theorem validLength_le {r : List ℤ} (hr : r ∈ extendIds (verifiedIds rows) (behind rows) (treeLen rows)) :
    validLength (behind rows + treeLen rows) r ≤ behind rows + treeLen rows := by
  obtain ⟨c, hc, rfl⟩ := List.mem_iff_getElem.mp hr
  have hc' : c < rows.length := by
    rwa [extendIds, List.length_map, verifiedIds_length] at hc
  obtain ⟨r, hr, hvalid⟩ := extendIds_valid (List.getElem?_eq_getElem hc') (behind rows)
    (treeLen rows)
  rw [List.getElem?_eq_getElem hc, Option.some.injEq] at hr
  rw [hr, validLength_eq hvalid]
  have := root_add_accepted_le (List.getElem?_eq_getElem hc')
  omega

/-- The server after the round, when the client has sent the right ids. -/
theorem doReorderTask_row (zero : κ) (cfg : RoundConfig κ) (hfits : Fits slab rows)
    (hag : ∀ b row, rows[b]? = some row → InAgreement (slab.row b) row.committed row.tree)
    (hb : rows[b]? = some row) :
    row.committed ++ row.accepted.map Node.token ++
        row.inputs cfg (maxTreeSize (rows.map RoundRow.next)) <+:
      (doReorderTask zero slab 0 (verifiedIds rows) (treeLen rows)
        (rows.map fun row => row.inputs cfg (maxTreeSize (rows.map RoundRow.next)))).row b := by
  have hpos : 0 < treeLen rows := by
    rw [treeLen]
    omega
  have hinputs := inputs_length cfg (List.mem_of_getElem? hb)
  have hbehind : 0 < behind rows := by
    have := slots_lt hb (List.mem_cons_self (a := row.root))
    omega
  obtain ⟨slab₁, hwrite, hseq, hrows⟩ := writeKvs_inputs cfg hfits
  obtain ⟨r, hr, hvalid⟩ := extendIds_valid hb (behind rows) (treeLen rows)
  have hfits' := hfits
  rw [Fits] at hfits'
  have hmax : maxNewLength (behind rows + treeLen rows)
      (extendIds (verifiedIds rows) (behind rows) (treeLen rows)) ≤ slab₁.seqLen := by
    apply List.max_le_of_forall_le
    intro x hx
    obtain ⟨r, hr, rfl⟩ := List.mem_map.mp hx
    exact Nat.le_trans (validLength_le hr) (by omega)
  obtain ⟨slab₂, hreorder, hpre⟩ := @reorderAndWriteCache_row _ slab₁ b zero _ _ r hmax (by omega) hr
  have hlong : row.root + (row.accepted.length + treeLen rows + 1) ≤
      maxNewLength (behind rows + treeLen rows)
        (extendIds (verifiedIds rows) (behind rows) (treeLen rows)) := by
    rw [← @validLength_eq _ row r (behind rows + treeLen rows) _ _ hvalid]
    exact List.le_max_of_le' 0 (List.mem_map_of_mem (List.mem_of_getElem? hr)) (Nat.le_refl _)
  have hcontent := @compactRow_content _ slab rows b row zero
    (row.inputs cfg (maxTreeSize (rows.map RoundRow.next))) r
    (maxNewLength (behind rows + treeLen rows)
      (extendIds (verifiedIds rows) (behind rows) (treeLen rows))) hb (hag b row hb)
    (by rwa [hinputs]) (by rwa [hinputs]) (by rwa [hinputs])
  rw [hrows b row hb] at hpre
  rw [hinputs] at hcontent
  have htask : doReorderTask zero slab 0 (verifiedIds rows) (treeLen rows)
      (rows.map fun row => row.inputs cfg (maxTreeSize (rows.map RoundRow.next))) = slab₂ := by
    rw [doReorderTask]
    simp only
    rw [← behind, if_neg (by omega), hwrite]
    simp only
    have hne : verifiedIds rows ≠ [] := by
      obtain ⟨k, hk⟩ := verifiedIds_get hb
      exact List.ne_nil_of_mem (List.mem_of_getElem? hk)
    rw [behind, cacheLenOf_extendIds hne hpos, ← behind, if_neg (by omega), hreorder,
      Option.getD_some]
  rw [htask]
  exact hcontent.trans hpre

end

/-! ### The main result -/

section

variable {slab : Slab κ} {rows : List (RoundRow κ)}

theorem accepted_eq_nil {row : RoundRow κ} (h : row.tree.size = 0) : row.accepted = [] := by
  have := (accepted_isPath row).length_le
  exact List.length_eq_zero_iff.mp (by omega)

/-- Zeros are right for rows that have a single committed token. -/
theorem zeros_eq_verifiedIds (htrees : ∀ row ∈ rows, row.tree.size = 0)
    (hone : ∀ row ∈ rows, row.committed.length = 1) :
    (rows.map fun _ => [(0 : ℤ)]) = verifiedIds rows := by
  have hpositions : rows.map RoundRow.positions = rows.map fun _ => [(0 : ℤ)] := by
    apply List.map_congr_left
    intro row hrow
    rw [RoundRow.positions, accepted_eq_nil (htrees row hrow), RoundRow.root, hone row hrow]
    rfl
  have hmax : ((rows.map fun _ => [(0 : ℤ)]).map List.length).foldr max 0 ≤ 1 := by
    apply List.max_le_of_forall_le
    intro x hx
    obtain ⟨r, hr, rfl⟩ := List.mem_map.mp hx
    obtain ⟨row, -, rfl⟩ := List.mem_map.mp hr
    exact Nat.le_refl 1
  rw [verifiedIds, hpositions, padIds]
  simp only [List.map_map]
  apply List.map_congr_left
  intro row _
  simp only [Function.comp_apply, List.length_singleton]
  rw [List.map_map] at hmax
  rw [Nat.sub_eq_zero_of_le hmax]
  rfl

theorem verifiedTokens_eq_iff {row : RoundRow κ} {padTokenId : κ} :
    row.verifiedTokens padTokenId = row.accepted.map Node.token ↔ row.TokensCached padTokenId := by
  rw [RoundRow.verifiedTokens, RoundRow.TokensCached]
  split_ifs with hfinished
  · rw [eq_comm, List.eq_replicate_iff]
    simp [hfinished]
  · simp [hfinished]

/-- A round with the right ids is served if and only if it is one chunk. -/
theorem serveRound_ok_iff {cfg : RoundConfig κ} {attended : ℕ → RoundRow κ → ℕ → List κ}
    {slab' : Slab κ} (hbatch : rows.length ≤ slab.batch) (hfits : Fits slab rows)
    (hids : kvCachePositionIds rows = verifiedIds rows) (hnext : ∃ row ∈ rows, row.next.size ≠ 0) :
    serveRound cfg slab rows = .ok (attended, slab') ↔
      OneChunk cfg.chunks rows.length (treeLen rows) cfg.prefixLength ∧
        (fun b row i => attendedSlots slab (verifiedIds rows) (maxTreeSize (rows.map RoundRow.next))
          b row.next i) = attended ∧
        doReorderTask cfg.zero slab 0 (verifiedIds rows) (treeLen rows)
          (rows.map fun row => row.inputs cfg (maxTreeSize (rows.map RoundRow.next))) = slab' := by
  have hroom := hfits
  rw [Fits] at hroom
  have hwin : ¬slab.seqLen < selectLen (kvCachePositionIds rows) := by
    rw [hids, selectLen_eq, ← behind]
    omega
  rw [serveRound, if_neg (by push Not; exact hnext), if_neg (by omega), ← treeLen]
  cases hest : BackendStep.estimateMaxChunkLength cfg.chunks rows.length (treeLen rows)
      cfg.prefixLength with
  | none => simp [OneChunk, hest]
  | some m =>
    have hpos : 0 < treeLen rows := by
      rw [treeLen]
      omega
    have hrun := fun new => @runUncut_eq_some _ (treeLen rows) m
      (rows.map fun row => row.inputs cfg (maxTreeSize (rows.map RoundRow.next))) new
      (estimateMaxChunkLength_pos hest).1
    simp only
    rw [if_neg hwin, oneChunk_iff_le hest]
    by_cases hle : treeLen rows ≤ m
    · rw [(hrun _).mpr ⟨hpos, hle, rfl⟩, hids]
      simp [hle]
    · cases hnew : BackendStep.runUncut (treeLen rows) m
          (rows.map fun row => row.inputs cfg (maxTreeSize (rows.map RoundRow.next))) with
      | none => simp [hle]
      | some new => exact absurd ((hrun new).mp hnew).2.1 hle

/-- Served with the right ids, a round keeps the agreement when it is one chunk and the rows have
the tokens of their nodes. -/
theorem agreement_iff_of_ids (cfg : RoundConfig κ) (hbatch : rows.length ≤ slab.batch)
    (hag : ∀ b row, rows[b]? = some row → InAgreement (slab.row b) row.committed row.tree)
    (hfits : Fits slab rows) (hids : kvCachePositionIds rows = verifiedIds rows)
    (hnext : ∃ row ∈ rows, row.next.size ≠ 0) :
    AgreementKept cfg slab rows ↔
      OneChunk cfg.chunks rows.length (treeLen rows) cfg.prefixLength ∧
        ∀ row ∈ rows, row.TokensCached cfg.padTokenId := by
  have hbehind : behind rows ≤ slab.seqLen := by
    rw [Fits] at hfits
    omega
  constructor
  · rintro ⟨attended, slab', hserve, hrows⟩
    obtain ⟨hone, rfl, -⟩ := (serveRound_ok_iff hbatch hfits hids hnext).mp hserve
    refine ⟨hone, fun row hrow => verifiedTokens_eq_iff.mp ?_⟩
    obtain ⟨b, hb⟩ := List.mem_iff_getElem?.mp hrow
    have hsame := (attended_committed hb (hag b row hb) hbehind 0).symm.trans
      ((hrows b row hb).1 0 (Nat.zero_le _))
    exact (List.append_cancel_left hsame).symm
  · rintro ⟨hone, hkept⟩
    refine ⟨_, _, (serveRound_ok_iff hbatch hfits hids hnext).mpr ⟨hone, rfl, rfl⟩,
      fun b row hb => ?_⟩
    have htokens := verifiedTokens_eq_iff.mpr (hkept row (List.mem_of_getElem? hb))
    refine ⟨fun i _ => ?_, ?_⟩
    · rw [htokens]
      exact attended_committed hb (hag b row hb) hbehind i
    · refine List.IsPrefix.trans ?_ (doReorderTask_row cfg.zero cfg hfits hag hb)
      rw [RoundRow.committed', htokens, RoundRow.inputs, paddedTokens,
        List.append_assoc _ [row.rootToken cfg.padTokenId], List.singleton_append,
        List.prefix_append_right_inj, List.cons_prefix_cons]
      exact ⟨rfl, List.prefix_append _ _⟩

/-- Whatever the ids are, the inputs attend to the window they give. -/
theorem attended_of_serveRound {cfg : RoundConfig κ} {attended : ℕ → RoundRow κ → ℕ → List κ}
    {slab' : Slab κ} (h : serveRound cfg slab rows = .ok (attended, slab')) (b : ℕ)
    (row : RoundRow κ) (i : ℕ) :
    attended b row i = attendedSlots slab (kvCachePositionIds rows)
      (maxTreeSize (rows.map RoundRow.next)) b row.next i := by
  rw [serveRound] at h
  -- every branch but the last one raises
  split at h
  · cases h
  · split at h
    · cases h
    · split at h
      · cases h
      · split at h
        · cases h
        · split at h
          · cases h
          · cases h
            rfl

theorem attendedSlots_length_le (ids : List (List ℤ)) (maxSize b : ℕ) (next : Forest κ) (i : ℕ) :
    (attendedSlots slab ids maxSize b next i).length ≤ selectLen ids := by
  have hsel : ∀ (mask : List Bool) (l : List κ), (select mask l).length ≤ l.length := by
    intro mask l
    induction l generalizing mask with
    | nil => rw [select_nil]
    | cons x l ih =>
      cases mask with
      | nil => exact Nat.zero_le _
      | cons c mask =>
        cases c with
        | true => exact Nat.succ_le_succ (ih mask)
        | false => exact Nat.le_trans (ih mask) (Nat.le_succ _)
  refine Nat.le_trans (hsel _ _) ?_
  rw [List.length_take]
  exact Nat.min_le_left _ _

/-- The ids are right when the last round had a drafted node, or no row has more than one
committed token. -/
theorem kvCachePositionIds_eq
    (h : (∃ row ∈ rows, row.tree.size ≠ 0) ∨ ∀ row ∈ rows, row.committed.length = 1) :
    kvCachePositionIds rows = verifiedIds rows := by
  by_cases htrees : ∀ row ∈ rows, row.tree.size = 0
  · have hone : ∀ row ∈ rows, row.committed.length = 1 := by
      rcases h with ⟨row, hrow, hne⟩ | hone
      · exact absurd (htrees row hrow) hne
      · exact hone
    rw [kvCachePositionIds, if_pos htrees, zeros_eq_verifiedIds htrees hone]
  · exact if_neg htrees

end

/-- Two rows of a batch: in the first one a path of two nodes was accepted, in the second one
nothing. The first one has a drafted node for the next round. -/
def unevenRows : List (RoundRow ℕ) :=
  [{ committed := [10, 11]
     tree := .cons 20 (.cons 21 .nil .nil) .nil
     accepted := [⟨20, 0⟩, ⟨21, 1⟩]
     llmToken := 30
     finished := false
     next := .cons 40 .nil .nil
     committed_ne := by decide
     accepted_path := ⟨[⟨20, 0⟩, ⟨21, 1⟩], by decide, List.prefix_rfl⟩ },
   { committed := [15, 16]
     tree := .cons 25 .nil .nil
     accepted := []
     llmToken := 35
     finished := false
     next := .nil
     committed_ne := by decide
     accepted_path := ⟨[⟨25, 0⟩], by decide, List.nil_prefix⟩ }]

def unevenSlab : Slab ℕ where
  seqLen := 10
  batch := 2
  row b := if b = 0 then [10, 11, 20, 21, 0, 0, 0, 0, 0, 0] else [15, 16, 25, 0, 0, 0, 0, 0, 0, 0]
  row_length b := by split_ifs <;> rfl

theorem uneven_agree {b : ℕ} {row : RoundRow ℕ} (hb : unevenRows[b]? = some row) :
    InAgreement (unevenSlab.row b) row.committed row.tree := by
  match b with
  | 0 => cases hb; exact ⟨_, rfl⟩
  | 1 => cases hb; exact ⟨_, rfl⟩
  | b + 2 => cases hb

def unevenConfig : RoundConfig ℕ := ⟨0, 0, 0, ⟨1, 1, 64⟩, 4⟩

def undraftedRows : List (RoundRow ℕ) :=
  unevenRows.map fun row => { row with next := .nil }

end BloomBee.Speculative

import Mathlib.Algebra.BigOperators.Group.Multiset.Basic
import Mathlib.Data.Multiset.Powerset
import Mathlib.Order.Interval.Finset.Nat
import Mathlib.Tactic.Ring
import Mathlib.Data.Fintype.Pi
import BloomBee.Lib.Leximin
import BloomBee.Spec.BlockSelection

/-! The simulation of `should_choose_other_blocks` terminates and leaves no block with less than the
slowest one had: a span with a positive throughput that moves raises the sorted throughputs, of which
there are finitely many, and once these stand still one more pass settles the others. First slices of
the throughputs as windows of blocks, the start that is chosen for a span, and the throughputs that a
set of spans gives each block. -/

set_option autoImplicit false

namespace BloomBee.BlockSelection

variable {Peer : Type} {n : ℕ}

/-! ### Windows -/

def window (n start stop : ℕ) : Finset (Fin n) :=
  Finset.univ.filter fun i => start ≤ i.val ∧ i.val < stop

theorem mem_window {start stop : ℕ} {i : Fin n} :
    i ∈ window n start stop ↔ start ≤ i.val ∧ i.val < stop := by
  rw [window, Finset.mem_filter, and_iff_right (Finset.mem_univ i)]

theorem slice_eq (throughputs : Throughputs n) (start stop : ℕ) :
    (throughputs.slice start stop : Multiset ℚ) = (window n start stop).val.map throughputs := rfl

theorem window_all : window n 0 n = Finset.univ :=
  Finset.filter_true_of_mem fun i _ => ⟨Nat.zero_le _, i.isLt⟩

theorem card_window {start length : ℕ} (h : start + length ≤ n) :
    (window n start (start + length)).card = length := by
  have hmap : (window n start (start + length)).map Fin.valEmbedding =
      Finset.Ico start (start + length) := by
    ext b
    simp only [Finset.mem_map, mem_window, Fin.valEmbedding_apply, Finset.mem_Ico]
    exact ⟨fun ⟨i, hi, hib⟩ => hib ▸ hi, fun hb => ⟨⟨b, hb.2.trans_le h⟩, hb, rfl⟩⟩
  rw [← Finset.card_map Fin.valEmbedding, hmap, Nat.card_Ico, Nat.add_sub_cancel_left]

theorem window_ne {start start' length : ℕ} (hlength : 0 < length) (h : start + length ≤ n)
    (h' : start' + length ≤ n) (hne : start ≠ start') :
    window n start (start + length) ≠ window n start' (start' + length) := by
  have hfirst : ∀ {a b : ℕ}, a + length ≤ n → a < b →
      window n a (a + length) ≠ window n b (b + length) := by
    intro a b ha hab heq
    have hmem : (⟨a, by omega⟩ : Fin n) ∈ window n a (a + length) :=
      mem_window.mpr ⟨le_rfl, Nat.lt_add_of_pos_right hlength⟩
    rw [heq, mem_window] at hmem
    exact absurd hmem.1 (Nat.not_le.mpr hab)
  rcases hne.lt_or_gt with hlt | hlt
  · exact hfirst h hlt
  · exact (hfirst h' hlt).symm

theorem add_eq_raise (throughputs : Throughputs n) (start stop : ℕ) (x : ℚ) :
    throughputs.add start stop x = Leximin.raise throughputs (window n start stop) x :=
  funext fun _ => (if_congr mem_window rfl rfl).symm

theorem add_twice (throughputs : Throughputs n) (start stop : ℕ) (x y : ℚ) :
    (throughputs.add start stop x).add start stop y = throughputs.add start stop (x + y) := by
  funext i
  simp only [Throughputs.add]
  split_ifs
  · exact add_assoc _ _ _
  · rfl

theorem add_nothing (throughputs : Throughputs n) (start stop : ℕ) :
    throughputs.add start stop 0 = throughputs := by
  funext i
  simp only [Throughputs.add, add_zero, ite_self]

theorem sorted_eq (xs : List ℚ) : sorted xs = (xs : Multiset ℚ).sort := by
  rw [sorted, Multiset.coe_sort, List.mergeSort_eq_insertionSort]

/-- `sorted(throughputs)` -/
def Throughputs.ascending (throughputs : Throughputs n) : List ℚ := sorted (throughputs.slice 0 n)

theorem ascending_lt_iff {throughputs throughputs' : Throughputs n} :
    throughputs.ascending < throughputs'.ascending ↔
      Leximin.Below (Finset.univ.val.map throughputs) (Finset.univ.val.map throughputs') := by
  rw [Throughputs.ascending, Throughputs.ascending, sorted_eq, sorted_eq, slice_eq, slice_eq,
    window_all]
  exact Leximin.sort_lt_sort_iff (by rw [Multiset.card_map, Multiset.card_map])

theorem min?_eq_some_iff {throughputs : Throughputs n} {x : ℚ} :
    throughputs.min? = some x ↔ (∃ i, throughputs i = x) ∧ ∀ i, x ≤ throughputs i := by
  rw [Throughputs.min?, List.min?_eq_some_iff, List.mem_ofFn]
  simp only [List.forall_mem_ofFn_iff]

theorem min?_isSome (hn : 0 < n) (throughputs : Throughputs n) :
    ∃ x, throughputs.min? = some x := by
  rcases h : throughputs.min? with - | x
  · rw [Throughputs.min?, List.min?_eq_none_iff, List.ofFn_eq_nil_iff] at h
    omega
  · exact ⟨x, rfl⟩

/-- A rise of the sorted throughputs is none of the least. -/
theorem min_le_of_ascending_le {throughputs throughputs' : Throughputs n} {x x' : ℚ}
    (h : throughputs.ascending < throughputs'.ascending) (hx : throughputs.min? = some x)
    (hx' : throughputs'.min? = some x') : x ≤ x' := by
  obtain ⟨⟨i, rfl⟩, -⟩ := min?_eq_some_iff.mp hx'
  have hmem : throughputs' i ∈ Finset.univ.val.map throughputs' :=
    Multiset.mem_map_of_mem _ (Finset.mem_univ_val i)
  obtain ⟨b, hb, hle⟩ := (ascending_lt_iff.mp h).exists_le hmem
  obtain ⟨j, -, rfl⟩ := Multiset.mem_map.mp hb
  exact ((min?_eq_some_iff.mp hx).2 j).trans hle

/-! ### The best start -/

theorem chooseBestStart_isSome {numBlocks : ℕ} (h : numBlocks ≤ n) (throughputs : Throughputs n) :
    ∃ newStart, chooseBestStart throughputs numBlocks = some newStart := by
  rcases hbest : chooseBestStart throughputs numBlocks with - | newStart
  · rw [chooseBestStart, List.argmin_eq_none, List.range_eq_nil] at hbest
    omega
  · exact ⟨newStart, rfl⟩

/-- The window that is chosen is in the range, and no other one is below it. -/
theorem chooseBestStart_spec {throughputs : Throughputs n} {numBlocks newStart : ℕ}
    (h : chooseBestStart throughputs numBlocks = some newStart) :
    newStart + numBlocks ≤ n ∧ ∀ start, start + numBlocks ≤ n →
      ¬Leximin.Below ((window n start (start + numBlocks)).val.map throughputs)
        ((window n newStart (newStart + numBlocks)).val.map throughputs) := by
  have hin : newStart + numBlocks ≤ n := by
    have hmem := List.mem_range.mp (List.argmin_mem h)
    omega
  refine ⟨hin, fun start hstart hbelow => ?_⟩
  have hcards : ((window n start (start + numBlocks)).val.map throughputs).card =
      ((window n newStart (newStart + numBlocks)).val.map throughputs).card := by
    rw [Multiset.card_map, Multiset.card_map, Finset.card_val, Finset.card_val,
      card_window hstart, card_window hin]
  rw [← Leximin.sort_lt_sort_iff hcards, ← slice_eq, ← slice_eq, ← sorted_eq, ← sorted_eq] at hbelow
  have hle := List.le_of_mem_argmin (List.mem_range.mpr (by omega : start < n + 1 - numBlocks)) h
  rcases Prod.Lex.le_iff.mp hle with hlt | ⟨heq, -⟩
  · exact lt_asymm hbelow hlt
  · exact hbelow.ne' heq

/-! ### Spans that cover a block -/

variable {span : RemoteSpanInfo Peer}

def Throughputs.lowered (throughputs : Throughputs n) (span : RemoteSpanInfo Peer) :
    Throughputs n :=
  throughputs.add span.start span.stop (-(span.throughput * (1 + eps)))

theorem eps_pos : 0 < eps := by decide +kernel

theorem lowered_add (throughputs : Throughputs n) (span : RemoteSpanInfo Peer) :
    (throughputs.lowered span).add span.start span.stop (span.throughput * eps) =
      throughputs.add span.start span.stop (-span.throughput) := by
  rw [Throughputs.lowered, add_twice]
  congr 1
  ring

theorem lowered_eq (throughputs : Throughputs n) (span : RemoteSpanInfo Peer) :
    throughputs.lowered span = (throughputs.add span.start span.stop (-span.throughput)).add
      span.start span.stop (-(span.throughput * eps)) := by
  rw [Throughputs.lowered, add_twice]
  congr 1
  ring

theorem add_back (throughputs : Throughputs n) (span : RemoteSpanInfo Peer) :
    (throughputs.add span.start span.stop (-span.throughput)).add span.start span.stop
      span.throughput = throughputs := by
  rw [add_twice, neg_add_cancel, add_nothing]

theorem RemoteSpanInfo.stop_eq (h : span.start < span.stop) :
    span.start + span.length = span.stop := by
  rw [RemoteSpanInfo.length]
  omega

theorem RemoteSpanInfo.move_start (h : span.start < span.stop) : span.move span.start = span := by
  rw [RemoteSpanInfo.move, stop_eq h]

theorem RemoteSpanInfo.move_length (newStart : ℕ) : (span.move newStart).length = span.length :=
  Nat.add_sub_cancel_left _ _

def RemoteSpanInfo.Covers (span : RemoteSpanInfo Peer) (block : ℕ) : Prop :=
  span.start ≤ block ∧ block < span.stop

instance (span : RemoteSpanInfo Peer) (block : ℕ) : Decidable (span.Covers block) :=
  inferInstanceAs (Decidable (_ ∧ _))

theorem add_span (throughputs : Throughputs n) (span : RemoteSpanInfo Peer) (x : ℚ) (i : Fin n) :
    throughputs.add span.start span.stop x i =
      throughputs i + if span.Covers i then x else 0 := by
  by_cases hcovers : span.Covers i
  · rw [if_pos hcovers]
    exact if_pos hcovers
  · rw [if_neg hcovers, add_zero]
    exact if_neg hcovers

def coverage (spans : List (RemoteSpanInfo Peer)) (block : ℕ) : ℚ :=
  ((spans.filter fun span => span.Covers block).map RemoteSpanInfo.throughput).sum

theorem coverage_cons (span : RemoteSpanInfo Peer) (spans : List (RemoteSpanInfo Peer)) (block : ℕ) :
    coverage (span :: spans) block =
      (if span.Covers block then span.throughput else 0) + coverage spans block := by
  simp only [coverage, List.filter_cons, decide_eq_true_eq]
  split_ifs
  · rw [List.map_cons, List.sum_cons]
  · rw [zero_add]

theorem coverage_perm {spans spans' : List (RemoteSpanInfo Peer)} (h : spans.Perm spans')
    (block : ℕ) : coverage spans block = coverage spans' block :=
  ((h.filter _).map _).sum_eq

theorem foldl_add (spans : List (RemoteSpanInfo Peer)) (throughputs : Throughputs n) (i : Fin n) :
    spans.foldl (fun throughputs span => throughputs.add span.start span.stop span.throughput)
        throughputs i = throughputs i + coverage spans i := by
  induction spans generalizing throughputs with
  | nil => exact (add_zero _).symm
  | cons span spans ih =>
    rw [List.foldl_cons, ih, coverage_cons, add_span, add_assoc]

/-- Every block has one of finitely many throughputs: the sums of some of those of the servers. -/
def levels (throughputs : Multiset ℚ) : Finset ℚ :=
  (throughputs.powerset.map Multiset.sum).toFinset

theorem coverage_mem_levels (spans : List (RemoteSpanInfo Peer)) (block : ℕ) :
    coverage spans block ∈ levels (spans.map RemoteSpanInfo.throughput) := by
  rw [levels, Multiset.mem_toFinset, Multiset.mem_map]
  refine ⟨((spans.filter fun span => span.Covers block).map RemoteSpanInfo.throughput : List ℚ),
    Multiset.mem_powerset.mpr (Multiset.coe_le.mpr ?_), Multiset.sum_coe _⟩
  exact (List.filter_sublist.map _).subperm

end BloomBee.BlockSelection

/-! ### The simulation -/

namespace BloomBee.BlockSelection

variable {Peer : Type} {n : ℕ}

/-- The spans are in the range of the blocks, and not empty. -/
structure Placed (n : ℕ) (spans : Spans Peer) : Prop where
  start_lt : ∀ e ∈ spans.entries, e.2.start < e.2.stop
  stop_le : ∀ e ∈ spans.entries, e.2.stop ≤ n
  throughput : ∀ e ∈ spans.entries, 0 ≤ e.2.throughput

def Swarm.spanList (swarm : Swarm Peer n) : List (RemoteSpanInfo Peer) :=
  swarm.spans.entries.map Prod.snd

def Swarm.Counted (swarm : Swarm Peer n) : Prop :=
  ∀ i : Fin n, swarm.throughputs i = coverage swarm.spanList i

structure Valid (speeds : Multiset ℚ) (swarm : Swarm Peer n) : Prop where
  placed : Placed n swarm.spans
  counted : swarm.Counted
  speeds : (swarm.spanList.map RemoteSpanInfo.throughput : Multiset ℚ) = speeds

variable {swarm : Swarm Peer n} {speeds : Multiset ℚ} {peerId : Peer} {span : RemoteSpanInfo Peer}

def allThroughputs (n : ℕ) (speeds : Multiset ℚ) : Finset (Throughputs n) :=
  Fintype.piFinset fun _ => levels speeds

def higher (speeds : Multiset ℚ) (throughputs : Throughputs n) : Finset (Throughputs n) :=
  (allThroughputs n speeds).filter fun other => throughputs.ascending < other.ascending

theorem Valid.mem_allThroughputs (h : Valid speeds swarm) :
    swarm.throughputs ∈ allThroughputs n speeds := by
  refine Fintype.mem_piFinset.mpr fun i => ?_
  rw [h.counted, ← h.speeds]
  exact coverage_mem_levels _ _

theorem card_higher_lt {throughputs throughputs' : Throughputs n}
    (hmem : throughputs' ∈ allThroughputs n speeds)
    (h : throughputs.ascending < throughputs'.ascending) :
    (higher speeds throughputs').card < (higher speeds throughputs).card := by
  refine Finset.card_lt_card (Finset.ssubset_iff_of_subset ?_ |>.mpr ⟨throughputs', ?_, ?_⟩)
  · exact Finset.monotone_filter_right _ fun _ _ hlt => h.trans hlt
  · exact Finset.mem_filter.mpr ⟨hmem, h⟩
  · exact fun hself => lt_irrefl _ (Finset.mem_filter.mp hself).2

/-! ### One span -/

variable [LinearOrder Peer]

def Swarm.relocate (swarm : Swarm Peer n) (peerId : Peer) (span : RemoteSpanInfo Peer)
    (newStart : ℕ) : Swarm Peer n where
  spans := swarm.spans.set peerId (span.move newStart)
  throughputs := (swarm.throughputs.add span.start span.stop (-span.throughput)).add newStart
    (newStart + span.length) span.throughput

theorem Placed.of_get? {spans : Spans Peer} (h : Placed n spans)
    (hspan : spans.get? peerId = some span) :
    span.start < span.stop ∧ span.stop ≤ n ∧ 0 ≤ span.throughput :=
  have hmem := OrderedDict.get?_eq_some_iff.mp hspan
  ⟨h.start_lt _ hmem, h.stop_le _ hmem, h.throughput _ hmem⟩

theorem visit_eq (h : Placed n swarm.spans) (hspan : swarm.spans.get? peerId = some span) :
    ∃ newStart, chooseBestStart (swarm.throughputs.lowered span) span.length = some newStart ∧
      swarm.visit peerId =
        .ok (swarm.relocate peerId span newStart, decide (span.start ≠ newStart)) := by
  obtain ⟨hlt, hle, -⟩ := h.of_get? hspan
  have hlength : span.length ≤ n := (Nat.sub_le _ _).trans hle
  obtain ⟨newStart, hbest⟩ := chooseBestStart_isSome hlength (swarm.throughputs.lowered span)
  refine ⟨newStart, hbest, ?_⟩
  have hmoved : (if span.start ≠ newStart then span.move newStart else span) =
      span.move newStart := by
    split_ifs with hne
    · rfl
    · rw [← not_not.mp hne, RemoteSpanInfo.move_start hlt]
  have hlowered := lowered_add swarm.throughputs span
  rw [Throughputs.lowered] at hbest hlowered
  simp only [Swarm.visit, hspan, hbest, hmoved, hlowered]
  rfl

theorem spanList_perm (hspan : swarm.spans.get? peerId = some span) :
    swarm.spanList.Perm (span :: (swarm.spans.erase peerId).entries.map Prod.snd) :=
  (OrderedDict.perm_cons_erase hspan).map Prod.snd

theorem relocate_perm (newStart : ℕ) :
    (swarm.relocate peerId span newStart).spanList.Perm
      (span.move newStart :: (swarm.spans.erase peerId).entries.map Prod.snd) := by
  have hget : (swarm.spans.set peerId (span.move newStart)).get? peerId =
      some (span.move newStart) := by
    rw [OrderedDict.get?_set, if_pos rfl]
  have hperm := (OrderedDict.perm_cons_erase hget).map Prod.snd
  rwa [List.map_cons, OrderedDict.erase_set] at hperm

theorem Valid.relocate (h : Valid speeds swarm) (hspan : swarm.spans.get? peerId = some span)
    {newStart : ℕ} (hin : newStart + span.length ≤ n) :
    Valid speeds (swarm.relocate peerId span newStart) := by
  obtain ⟨hlt, hle, hthroughput⟩ := h.placed.of_get? hspan
  have hmem : ∀ e ∈ (swarm.relocate peerId span newStart).spans.entries,
      e ∈ swarm.spans.entries ∨ e.2 = span.move newStart := fun e he =>
    (OrderedDict.mem_set.mp he).imp And.left (congrArg Prod.snd ·)
  have hpositive : 0 < span.length := Nat.sub_pos_of_lt hlt
  refine ⟨⟨fun e he => ?_, fun e he => ?_, fun e he => ?_⟩, fun i => ?_, ?_⟩
  · rcases hmem e he with he | he
    · exact h.placed.start_lt e he
    · rw [he]
      exact Nat.lt_add_of_pos_right hpositive
  · rcases hmem e he with he | he
    · exact h.placed.stop_le e he
    · rw [he]
      exact hin
  · rcases hmem e he with he | he
    · exact h.placed.throughput e he
    · rw [he]
      exact hthroughput
  · rw [coverage_perm (relocate_perm newStart), coverage_cons]
    have hcount := h.counted i
    rw [coverage_perm (spanList_perm hspan), coverage_cons] at hcount
    have hadd := add_span (swarm.throughputs.add span.start span.stop (-span.throughput))
      (span.move newStart) span.throughput i
    rw [add_span swarm.throughputs span, hcount] at hadd
    have hsame : (span.move newStart).throughput = span.throughput := rfl
    refine hadd.trans ?_
    rw [hsame]
    split_ifs <;> ring
  · rw [← h.speeds]
    refine (Multiset.coe_eq_coe.mpr ((relocate_perm newStart).map _)).trans
      (Multiset.coe_eq_coe.mpr ?_)
    exact ((spanList_perm hspan).map RemoteSpanInfo.throughput).symm

/-- Where the span has a throughput, a move raises the throughputs. -/
theorem relocate_rises (h : Placed n swarm.spans) (hspan : swarm.spans.get? peerId = some span)
    {newStart : ℕ} (hpositive : 0 < span.throughput)
    (hbest : chooseBestStart (swarm.throughputs.lowered span) span.length = some newStart)
    (hne : span.start ≠ newStart) :
    swarm.throughputs.ascending < (swarm.relocate peerId span newStart).throughputs.ascending := by
  obtain ⟨hlt, hle, -⟩ := h.of_get? hspan
  have hlength : 0 < span.length := Nat.sub_pos_of_lt hlt
  have hstop := RemoteSpanInfo.stop_eq hlt
  obtain ⟨hin, hleast⟩ := chooseBestStart_spec hbest
  have hstart : span.start + span.length ≤ n := hstop.trans_le hle
  -- the throughputs of the other spans
  have hwith := add_back swarm.throughputs span
  have hlowered := lowered_eq swarm.throughputs span
  rw [← hstop] at hwith hlowered
  rw [ascending_lt_iff, ← hwith, Swarm.relocate, ← hstop, add_eq_raise _ span.start _ span.throughput,
    add_eq_raise _ newStart]
  refine Leximin.below_raise hpositive (mul_pos hpositive eps_pos)
    (by rw [card_window hstart, card_window hin]) (window_ne hlength hstart hin hne) ?_
  rw [← add_eq_raise, ← hlowered]
  exact hleast span.start hstart

/-! ### Visits -/

def Swarm.Settled (swarm : Swarm Peer n) (peerId : Peer) : Prop :=
  ∃ span, swarm.spans.get? peerId = some span ∧
    chooseBestStart (swarm.throughputs.lowered span) span.length = some span.start

/-- The throughputs have risen, or they are the same, nobody has lost its place and those visited
have theirs. -/
def Progress (swarm swarm' : Swarm Peer n) (visited : List Peer) : Prop :=
  swarm.throughputs.ascending < swarm'.throughputs.ascending ∨
    swarm'.throughputs = swarm.throughputs ∧
      ∀ peerId, peerId ∈ visited ∨ swarm.Settled peerId → swarm'.Settled peerId

def Swarm.Has (swarm : Swarm Peer n) (peerId : Peer) : Prop :=
  ∃ span, swarm.spans.get? peerId = some span

theorem get?_relocate {newStart : ℕ} (q : Peer) :
    (swarm.relocate peerId span newStart).spans.get? q =
      if q = peerId then some (span.move newStart) else swarm.spans.get? q :=
  OrderedDict.get?_set ..

theorem has_relocate (hspan : swarm.spans.get? peerId = some span) {newStart : ℕ} (q : Peer) :
    (swarm.relocate peerId span newStart).Has q ↔ swarm.Has q := by
  rw [Swarm.Has, Swarm.Has, get?_relocate]
  split_ifs with hq
  · rw [hq, hspan]
    exact iff_of_true ⟨_, rfl⟩ ⟨_, rfl⟩
  · rfl

/-- The span stays, or it has no throughput: the blocks have what they had. -/
theorem throughputs_relocate {newStart : ℕ} (hlt : span.start < span.stop)
    (h : span.start = newStart ∨ span.throughput = 0) :
    (swarm.relocate peerId span newStart).throughputs = swarm.throughputs := by
  rcases h with rfl | hzero
  · rw [Swarm.relocate, RemoteSpanInfo.stop_eq hlt, add_back]
  · rw [Swarm.relocate, hzero, neg_zero, add_nothing, add_nothing]

/-- Where the throughputs stay, the visited server is settled and the others are what they were. -/
theorem settled_relocate {newStart : ℕ} (hlt : span.start < span.stop)
    (hbest : chooseBestStart (swarm.throughputs.lowered span) span.length = some newStart)
    (h : span.start = newStart ∨ span.throughput = 0) {q : Peer}
    (hq : q = peerId ∨ swarm.Settled q) :
    (swarm.relocate peerId span newStart).Settled q := by
  rw [Swarm.Settled, get?_relocate, throughputs_relocate hlt h]
  by_cases hpeer : q = peerId
  · have hlowered : swarm.throughputs.lowered (span.move newStart) =
        swarm.throughputs.lowered span := by
      rcases h with rfl | hzero
      · rw [RemoteSpanInfo.move_start hlt]
      · have hzero' : (span.move newStart).throughput = 0 := hzero
        rw [Throughputs.lowered, Throughputs.lowered, hzero, hzero', zero_mul, neg_zero,
          add_nothing, add_nothing]
    rw [if_pos hpeer]
    refine ⟨_, rfl, ?_⟩
    rw [hlowered, RemoteSpanInfo.move_length]
    exact hbest
  · rw [if_neg hpeer]
    exact hq.resolve_left hpeer

theorem visit_progress (h : Valid speeds swarm) (hhas : swarm.Has peerId) :
    ∃ swarm' moved, swarm.visit peerId = .ok (swarm', moved) ∧ Valid speeds swarm' ∧
      Progress swarm swarm' [peerId] ∧ (∀ q, swarm'.Has q ↔ swarm.Has q) ∧
      (swarm.Settled peerId → moved = false ∧ swarm'.throughputs = swarm.throughputs ∧
        ∀ q, swarm.Settled q → swarm'.Settled q) := by
  obtain ⟨span, hspan⟩ := hhas
  obtain ⟨hlt, -, hthroughput⟩ := h.placed.of_get? hspan
  obtain ⟨newStart, hbest, hvisit⟩ := visit_eq h.placed hspan
  refine ⟨_, _, hvisit, h.relocate hspan (chooseBestStart_spec hbest).1, ?_,
    has_relocate hspan, ?_⟩
  · by_cases hstay : span.start = newStart ∨ span.throughput = 0
    · exact .inr ⟨throughputs_relocate hlt hstay, fun q hq => settled_relocate hlt hbest hstay
        (hq.imp_left List.mem_singleton.mp)⟩
    · obtain ⟨hne, hzero⟩ := not_or.mp hstay
      exact .inl (relocate_rises h.placed hspan (hthroughput.lt_of_ne' hzero) hbest hne)
  · rintro ⟨span', hspan', hsettled⟩
    obtain rfl := Option.some.inj (hspan.symm.trans hspan')
    obtain rfl := Option.some.inj (hsettled.symm.trans hbest)
    exact ⟨decide_eq_false (not_not.mpr rfl), throughputs_relocate hlt (.inl rfl),
      fun q hq => settled_relocate hlt hbest (.inl rfl) (.inr hq)⟩

inductive Visits : Swarm Peer n → Swarm Peer n → Prop
  | refl (a : Swarm Peer n) : Visits a a
  | head {a b c : Swarm Peer n} {q : Peer} {moved : Bool} (visit : a.visit q = .ok (b, moved))
      (visits : Visits b c) : Visits a c

theorem Visits.trans {a b c : Swarm Peer n} (h : Visits a b) (h' : Visits b c) : Visits a c := by
  induction h with
  | refl => exact h'
  | head visit _ ih => exact .head visit (ih h')

theorem Progress.trans {a b c : Swarm Peer n} {visited visited' : List Peer}
    (h : Progress a b visited) (h' : Progress b c visited') :
    Progress a c (visited ++ visited') := by
  rcases h with hab | ⟨hab, hsettled⟩ <;> rcases h' with hbc | ⟨hbc, hsettled'⟩
  · exact .inl (hab.trans hbc)
  · exact .inl (hbc ▸ hab)
  · exact .inl (hab ▸ hbc)
  · refine .inr ⟨hbc.trans hab, fun q hq => hsettled' q ?_⟩
    rw [List.mem_append] at hq
    rcases hq with (hq | hq) | hq
    · exact .inr (hsettled q (.inl hq))
    · exact .inl hq
    · exact .inr (hsettled q (.inr hq))

theorem visitAll_progress {servers : List Peer} (h : Valid speeds swarm)
    (hhas : ∀ peerId ∈ servers, swarm.Has peerId) :
    ∃ swarm' moved, swarm.visitAll servers = .ok (swarm', moved) ∧ Valid speeds swarm' ∧
      Progress swarm swarm' servers ∧ (∀ q, swarm'.Has q ↔ swarm.Has q) ∧ Visits swarm swarm' ∧
      ((∀ peerId ∈ servers, swarm.Settled peerId) → moved = false) := by
  induction servers generalizing swarm with
  | nil =>
    exact ⟨swarm, false, rfl, h, .inr ⟨rfl, fun q hq => hq.resolve_left List.not_mem_nil⟩,
      fun _ => Iff.rfl, .refl swarm, fun _ => rfl⟩
  | cons peerId servers ih =>
    obtain ⟨hhead, htail⟩ := List.forall_mem_cons.mp hhas
    obtain ⟨swarm₁, moved, hvisit, hvalid, hprogress, hkept, hsettled⟩ := visit_progress h hhead
    obtain ⟨swarm₂, moved', hvisits, hvalid', hprogress', hkept', hrun, hsettled'⟩ :=
      ih hvalid fun q hq => (hkept q).mpr (htail q hq)
    rw [Swarm.visitAll, hvisit]
    simp only [hvisits]
    refine ⟨_, _, rfl, hvalid', hprogress.trans hprogress', fun q => (hkept' q).trans (hkept q),
      .head hvisit hrun, fun hall => ?_⟩
    obtain ⟨hfirst, hothers⟩ := List.forall_mem_cons.mp hall
    obtain ⟨hmoved, -, hkeeps⟩ := hsettled hfirst
    rw [hmoved, hsettled' fun q hq => hkeeps q (hothers q hq), Bool.or_false]

/-! ### The loop -/

theorem mem_servers {q : Peer} : q ∈ swarm.servers ↔ swarm.Has q := by
  rw [Swarm.servers, List.mem_map, Swarm.Has]
  constructor
  · rintro ⟨⟨_, span⟩, hmem, rfl⟩
    exact ⟨span, OrderedDict.get?_eq_some_iff.mpr hmem⟩
  · rintro ⟨span, hspan⟩
    exact ⟨(q, span), OrderedDict.get?_eq_some_iff.mp hspan, rfl⟩

/-- As many passes as there are throughputs above, and two more, are enough. -/
theorem rebalance_ok (shuffles : Shuffles Peer) (h : Valid speeds swarm) (pass fuel : ℕ)
    (hfuel : (higher speeds swarm.throughputs).card + 2 ≤ fuel) :
    ∃ swarm', swarm.rebalance shuffles fuel pass = some (.ok swarm') ∧ Visits swarm swarm' := by
  induction hm : (higher speeds swarm.throughputs).card using Nat.strong_induction_on
    generalizing swarm pass fuel with
  | _ m ih =>
    subst hm
    obtain ⟨fuel, rfl⟩ : ∃ k, fuel = k + 1 := ⟨fuel - 1, by omega⟩
    have hservers : ∀ {swarm : Swarm Peer n} (k : ℕ) {q : Peer},
        q ∈ shuffles.shuffle k swarm.servers ↔ swarm.Has q := fun k =>
      (shuffles.perm k _).mem_iff.trans mem_servers
    obtain ⟨swarm₁, moved, hvisits, hvalid, hprogress, hkept, hrun, -⟩ :=
      visitAll_progress h fun q => (hservers pass).mp
    rw [Swarm.rebalance, hvisits]
    rcases moved with - | -
    · exact ⟨swarm₁, rfl, hrun⟩
    rcases hprogress with hrises | ⟨hsame, hsettled⟩
    · have hlt := card_higher_lt hvalid.mem_allThroughputs hrises
      obtain ⟨swarm', hloop, hrun'⟩ := ih _ hlt hvalid (pass + 1) fuel (by omega) rfl
      exact ⟨swarm', hloop, hrun.trans hrun'⟩
    · -- only spans without a throughput have moved: nobody moves in the next pass
      obtain ⟨fuel, rfl⟩ : ∃ k, fuel = k + 1 := ⟨fuel - 1, by omega⟩
      obtain ⟨swarm₂, moved, hvisits', -, -, -, hrun', hstill⟩ :=
        visitAll_progress hvalid fun q => (hservers (pass + 1)).mp
      have hmoved : moved = false := hstill fun q hq => hsettled q (.inl
        ((hservers pass).mpr ((hkept q).mp ((hservers (pass + 1)).mp hq))))
      refine ⟨swarm₂, ?_, hrun.trans hrun'⟩
      simp only [Swarm.rebalance, hvisits', hmoved]

/-! ### The swarm -/

def startSwarm (spans : Spans Peer) (n : ℕ) : Swarm Peer n := ⟨spans, computeThroughputs spans n⟩

theorem startSwarm_valid {spans : Spans Peer} (h : Placed n spans) :
    Valid ((startSwarm spans n).spanList.map RemoteSpanInfo.throughput) (startSwarm spans n) where
  placed := h
  counted i := by
    refine (foldl_add _ _ i).trans ?_
    rw [zero_add]
    exact coverage_perm (List.perm_insertionSort _ _) i
  speeds := rfl

theorem visit_valid {swarm' : Swarm Peer n} {moved : Bool} (h : Valid speeds swarm)
    (hvisit : swarm.visit peerId = .ok (swarm', moved)) :
    Valid speeds swarm' ∧ Progress swarm swarm' [peerId] := by
  have hhas : swarm.Has peerId := by
    rcases hget : swarm.spans.get? peerId with - | span
    · rw [Swarm.visit, hget] at hvisit
      cases hvisit
    · exact ⟨span, hget⟩
  obtain ⟨swarm₁, moved₁, hvisit₁, hvalid, hprogress, -⟩ := visit_progress h hhas
  obtain ⟨rfl, rfl⟩ := Prod.mk.inj (Except.ok.inj (hvisit₁.symm.trans hvisit))
  exact ⟨hvalid, hprogress⟩

theorem visits_valid {swarm' : Swarm Peer n} (h : Valid speeds swarm) (hvisits : Visits swarm swarm') :
    Valid speeds swarm' ∧ Progress swarm swarm' [] := by
  induction hvisits with
  | refl swarm => exact ⟨h, .inr ⟨rfl, fun q hq => hq.resolve_left List.not_mem_nil⟩⟩
  | head hvisit _ ih =>
    obtain ⟨hvalid, hprogress⟩ := visit_valid h hvisit
    obtain ⟨hvalid', hprogress'⟩ := ih hvalid
    refine ⟨hvalid', (hprogress.trans hprogress').imp_right fun ⟨hsame, hkept⟩ => ⟨hsame, ?_⟩⟩
    exact fun q hq => hkept q (.inr (hq.resolve_left List.not_mem_nil))

theorem Progress.min_le {swarm' : Swarm Peer n} {visited : List Peer} {low high : ℚ}
    (h : Progress swarm swarm' visited) (hlow : swarm.throughputs.min? = some low)
    (hhigh : swarm'.throughputs.min? = some high) : low ≤ high := by
  rcases h with hrises | ⟨hsame, -⟩
  · exact min_le_of_ascending_le hrises hlow hhigh
  · rw [hsame, hlow] at hhigh
    exact (Option.some.inj hhigh).le

/-- The move of the local span is a visit of it. -/
theorem moveLocalSpan_eq {spans : Spans Peer} (h : Placed n spans)
    (hspan : spans.get? peerId = some span) :
    moveLocalSpan peerId spans n = .ok none ∨ ∃ initialThroughput swarm,
      moveLocalSpan peerId spans n = .ok (some (initialThroughput, swarm)) ∧
      (computeThroughputs spans n).min? = some initialThroughput ∧
      (startSwarm spans n).visit peerId = .ok (swarm, true) := by
  obtain ⟨hlt, hle, -⟩ := h.of_get? hspan
  have hn : 0 < n := by omega
  obtain ⟨initialThroughput, hinitial⟩ := min?_isSome hn (computeThroughputs spans n)
  obtain ⟨least, hleast⟩ := min?_isSome hn ((computeThroughputs spans n).lowered span)
  obtain ⟨newStart, hbest, hvisit⟩ := visit_eq
    (show Placed n (startSwarm spans n).spans from h) hspan
  have hlowered := lowered_add (computeThroughputs spans n) span
  have hbest' : chooseBestStart ((computeThroughputs spans n).lowered span) span.length =
    some newStart := hbest
  rw [Throughputs.lowered] at hleast hbest' hlowered
  simp only [moveLocalSpan, hinitial, hspan, hleast, hbest', hlowered]
  split_ifs with hdisjoint hstay
  · exact .inl rfl
  · exact .inl rfl
  · refine .inr ⟨_, _, rfl, rfl, ?_⟩
    rw [hvisit, decide_eq_true hstay]
    rfl

theorem shouldChooseOtherBlocks_ok {spans : Spans Peer} (h : Placed n spans)
    (hspan : spans.get? peerId = some span) (shuffles : Shuffles Peer) {fuel : ℕ}
    (hloop : ∀ swarm, Visits (startSwarm spans n) swarm →
      ∃ swarm', swarm.rebalance shuffles fuel 0 = some (.ok swarm')) (balanceQuality : ℚ) :
    ∃ b, shouldChooseOtherBlocks shuffles fuel peerId spans n balanceQuality = some (.ok b) := by
  rw [shouldChooseOtherBlocks]
  by_cases hforced : 1 < balanceQuality
  · exact ⟨true, if_pos hforced⟩
  rw [if_neg hforced]
  rcases moveLocalSpan_eq h hspan with hmove | ⟨initialThroughput, swarm, hmove, -, hvisit⟩
  · rw [hmove]
    exact ⟨false, rfl⟩
  · obtain ⟨swarm', hrebalance⟩ := hloop swarm (.head hvisit (.refl swarm))
    have hmem := OrderedDict.get?_eq_some_iff.mp hspan
    have hn : 0 < n := (Nat.zero_lt_of_lt (h.start_lt _ hmem)).trans_le (h.stop_le _ hmem)
    obtain ⟨newThroughput, hnew⟩ := min?_isSome hn swarm'.throughputs
    rw [hmove]
    simp only [hrebalance, hnew]
    split_ifs
    · exact ⟨false, rfl⟩
    · exact ⟨_, rfl⟩

/-- From spans that are placed in the range of the blocks, with throughputs that are not negative:
whatever visits have been made, each block has the throughputs of the spans that cover it, and a span
with a positive one that moves raises the sorted throughputs; the loop ends after some number of passes
however the servers are shuffled, and the least throughput is no lower than it was; the local span
moves as in a visit, and so the whole decision is made. -/
theorem shouldChooseOtherBlocks_terminates {spans : Spans Peer} (h : Placed n spans) :
    (∀ swarm, Visits (startSwarm spans n) swarm →
      swarm.Counted ∧
      ∀ peerId span swarm', swarm.spans.get? peerId = some span → 0 < span.throughput →
        swarm.visit peerId = .ok (swarm', true) →
        swarm.throughputs.ascending < swarm'.throughputs.ascending) ∧
    (∃ passes, ∀ (shuffles : Shuffles Peer) (fuel : ℕ), passes ≤ fuel →
      (∀ swarm, Visits (startSwarm spans n) swarm → ∀ pass, ∃ swarm',
        swarm.rebalance shuffles fuel pass = some (.ok swarm') ∧ Visits swarm swarm' ∧
        ∀ low high, (startSwarm spans n).throughputs.min? = some low →
          swarm'.throughputs.min? = some high → low ≤ high) ∧
      ∀ localPeerId localSpan balanceQuality, spans.get? localPeerId = some localSpan →
        ∃ b, shouldChooseOtherBlocks shuffles fuel localPeerId spans n balanceQuality =
          some (.ok b)) ∧
    ∀ localPeerId localSpan, spans.get? localPeerId = some localSpan →
      moveLocalSpan localPeerId spans n = .ok none ∨ ∃ initialThroughput swarm,
        moveLocalSpan localPeerId spans n = .ok (some (initialThroughput, swarm)) ∧
        (startSwarm spans n).throughputs.min? = some initialThroughput ∧
        (startSwarm spans n).visit localPeerId = .ok (swarm, true) := by
  obtain ⟨speeds, hstart⟩ : ∃ speeds, Valid speeds (startSwarm spans n) := ⟨_, startSwarm_valid h⟩
  refine ⟨fun swarm hvisits => ?_, ⟨(allThroughputs n speeds).card + 2, fun shuffles fuel hfuel => ?_⟩,
    fun localPeerId localSpan => moveLocalSpan_eq h⟩
  · obtain ⟨hvalid, -⟩ := visits_valid hstart hvisits
    refine ⟨hvalid.counted, fun peerId span swarm' hspan hpositive hvisit => ?_⟩
    obtain ⟨newStart, hbest, hvisit'⟩ := visit_eq hvalid.placed hspan
    obtain ⟨rfl, hmoved⟩ := Prod.mk.inj (Except.ok.inj (hvisit'.symm.trans hvisit))
    exact relocate_rises hvalid.placed hspan hpositive hbest (of_decide_eq_true hmoved)
  · have hloop : ∀ swarm, Visits (startSwarm spans n) swarm → ∀ pass, ∃ swarm',
        swarm.rebalance shuffles fuel pass = some (.ok swarm') ∧ Visits swarm swarm' := by
      intro swarm hvisits pass
      refine rebalance_ok shuffles (visits_valid hstart hvisits).1 pass fuel (le_trans ?_ hfuel)
      exact Nat.add_le_add_right (Finset.card_filter_le _ _) 2
    refine ⟨fun swarm hvisits pass => ?_, fun localPeerId localSpan balanceQuality hspan => ?_⟩
    · obtain ⟨swarm', hrebalance, hrun⟩ := hloop swarm hvisits pass
      exact ⟨swarm', hrebalance, hrun, fun low high =>
        (visits_valid hstart (hvisits.trans hrun)).2.min_le⟩
    · exact shouldChooseOtherBlocks_ok h hspan shuffles
        (fun swarm hvisits => (hloop swarm hvisits 0).imp fun _ => And.left) balanceQuality

/-- A swarm of two servers at the first of three blocks and one without a throughput. -/
def threeServers : Spans ℕ where
  entries := [(0, ⟨0, 0, 1, 2⟩), (1, ⟨1, 0, 2, 1⟩), (2, ⟨2, 1, 2, 0⟩)]
  nodup := by decide

/-- The second server moves behind the first one. -/
theorem shouldChooseOtherBlocks_terminates_threeServers :
    (startSwarm threeServers 3).throughputs.ascending = [0, 1, 3] ∧
      ∃ passes, ∀ (shuffles : Shuffles ℕ) (fuel : ℕ), passes ≤ fuel →
        ∃ b, shouldChooseOtherBlocks shuffles fuel 1 threeServers 3 (3 / 4) = some (.ok b) := by
  have hplaced : Placed 3 threeServers :=
    ⟨by decide, by decide, by decide +kernel⟩
  refine ⟨by decide +kernel, ?_⟩
  obtain ⟨-, ⟨passes, hpasses⟩, -⟩ := shouldChooseOtherBlocks_terminates hplaced
  exact ⟨passes, fun shuffles fuel hfuel => (hpasses shuffles fuel hfuel).2 1 _ (3 / 4) rfl⟩

end BloomBee.BlockSelection

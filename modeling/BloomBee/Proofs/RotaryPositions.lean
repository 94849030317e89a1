import BloomBee.Proofs.VerifyBatch
import BloomBee.Spec.RotaryPositions
import Mathlib.Tactic.IntervalCases

/-! The rotary positions of a tree are those of ordinary decoding only for a tree that looks like
the template, which is a chain of four nodes, and after a round whose accepted slots have no
gaps. -/

set_option autoImplicit false

namespace BloomBee.Speculative

/-! ### Cached slots -/

/-- The tokens of a row that come before the next root: those in the slots before the root of the
last round, that root, and the accepted nodes. The listed slots begin with the root. -/
def committedCount (slots : List ℕ) : ℕ := slots.headD 0 + slots.length

def Contiguous (slots : List ℕ) : Prop := slots = List.range' (slots.headD 0) slots.length

theorem le_getLast {slots : List ℕ} (hinc : slots.Pairwise (· < ·)) (hne : slots ≠ []) :
    ∀ s ∈ slots, s ≤ slots.getLast hne := by
  intro s hs
  rw [← List.dropLast_append_getLast hne] at hs hinc
  rcases List.mem_append.mp hs with h | h
  · exact Nat.le_of_lt ((List.pairwise_append.mp hinc).2.2 s h _ (List.mem_singleton_self _))
  · exact Nat.le_of_eq (List.mem_singleton.mp h)

theorem contiguous_iff_getLast {slots : List ℕ} (hinc : slots.Pairwise (· < ·)) (hne : slots ≠ []) :
    committedCount slots ≤ slots.getLast hne + 1 ∧
      (committedCount slots = slots.getLast hne + 1 ↔ Contiguous slots) := by
  induction slots with
  | nil => exact absurd rfl hne
  | cons a rest ih =>
    rw [committedCount, Contiguous, List.headD_cons, List.length_cons]
    cases rest with
    | nil => exact ⟨Nat.le_refl _, fun _ => rfl, fun _ => rfl⟩
    | cons b rest =>
      obtain ⟨hab, hrest⟩ := List.pairwise_cons.mp hinc
      have hab := hab b List.mem_cons_self
      obtain ⟨hle, hiff⟩ := ih hrest (List.cons_ne_nil _ _)
      rw [committedCount, List.headD_cons, List.length_cons] at hle
      rw [committedCount, Contiguous, List.headD_cons, List.length_cons] at hiff
      rw [List.getLast_cons (List.cons_ne_nil _ _), List.length_cons, List.range'_succ,
        List.cons.injEq]
      refine ⟨by omega, fun h => ⟨rfl, ?_⟩, fun h => ?_⟩
      · obtain rfl : b = a + 1 := by omega
        exact hiff.mp (by omega)
      · obtain ⟨-, htail⟩ := h
        obtain rfl : b = a + 1 := (List.cons.inj htail).1
        have := hiff.mpr htail
        omega

def IdsOf (ids : List ℤ) (slots : List ℕ) : Prop :=
  ∃ k, ids = slots.map (fun s : ℕ => (s : ℤ)) ++ List.replicate k (-1)

theorem basePosition_eq {ids : List ℤ} {slots : List ℕ} (hids : IdsOf ids slots)
    (hinc : slots.Pairwise (· < ·)) (hne : slots ≠ []) :
    basePosition ids = some ((slots.getLast hne + 1 : ℕ) : ℤ) := by
  obtain ⟨k, rfl⟩ := hids
  have hmax : ((slots.map (fun s : ℕ => (s : ℤ)) ++ List.replicate k (-1)).map fun id =>
      if 0 ≤ id then id else -1).max? = some ((slots.getLast hne : ℕ) : ℤ) := by
    rw [List.max?_eq_some_iff]
    constructor
    · refine List.mem_map.mpr ⟨(slots.getLast hne : ℤ), ?_, if_pos (Int.natCast_nonneg _)⟩
      exact List.mem_append_left _ (List.mem_map_of_mem (List.getLast_mem hne))
    · intro x hx
      obtain ⟨id, hid, rfl⟩ := List.mem_map.mp hx
      rcases List.mem_append.mp hid with h | h
      · obtain ⟨s, hs, rfl⟩ := List.mem_map.mp h
        have := le_getLast hinc hne s hs
        rw [if_pos (Int.natCast_nonneg s)]
        omega
      · rw [List.eq_of_mem_replicate h, if_neg (by decide)]
        omega
  rw [basePosition, hmax]
  rfl

/-- The slots that the client sends after it has accepted a path of the tree: they increase, and
the next root comes after the old sequence and the path. -/
theorem slotsOf_cached {tree : Forest ℕ} {kept : List (Node ℕ)} (hpath : IsPathFrom 0 tree kept)
    {actualLen : ℕ} (hlen : 1 ≤ actualLen) :
    ∃ slots : List ℕ, slotsOf actualLen kept = slots.map (fun s : ℕ => (s : ℤ)) ∧ slots ≠ [] ∧
      slots.Pairwise (· < ·) ∧ committedCount slots = actualLen + kept.length := by
  refine ⟨clientSlots actualLen kept, slotsOf_eq hlen kept, List.cons_ne_nil _ _,
    clientSlots_sorted hlen hpath.positions.1, ?_⟩
  rw [committedCount, clientSlots, List.headD_cons, List.length_cons, List.length_map]
  omega

/-! ### The template -/

/-- The template of the call is a chain of four nodes below the root, and later entries repeat the
last one. -/
theorem extendedTemplate_chain {n i : ℕ} (hi : i < n) :
    (extendedTemplate (dfsGenerate 1 4 0) (some n))[i]? = some (min i 4) := by
  have htemplate : dfsGenerate 1 4 0 = [0, 1, 2, 3, 4] := by decide
  have hentry : ∀ i < 5, [0, 1, 2, 3, 4][i]? = some (min i 4) := by decide
  rw [extendedTemplate, htemplate]
  simp only [List.length_cons, List.length_nil, Nat.zero_add, Nat.reduceAdd]
  split_ifs with hlong
  · by_cases hshort : i < 5
    · rw [List.getElem?_append_left (by simpa using hshort), hentry i hshort]
    · rw [List.getElem?_append_right (by simpa using hshort), List.getElem?_replicate,
        if_pos (by simp only [List.length_cons, List.length_nil]; omega)]
      congr 1
      rw [Nat.min_eq_right (by omega)]
      rfl
  · rw [List.getElem?_take_of_lt hi, hentry i (by omega)]

/-! ### The step -/

/-- The positions of ordinary decoding: the root of a row comes after its committed tokens, and a
node at depth `d` is `d` further on. -/
def OrdinaryPositions {α : Type} (slots : List (List ℕ)) (trees : List (Forest α))
    (positions : List (List ℤ)) : Prop :=
  ∀ (b : ℕ) (s : List ℕ) (tree : Forest α), slots[b]? = some s → trees[b]? = some tree →
    ∃ row, positions[b]? = some row ∧ row[0]? = some (committedCount s : ℤ) ∧
      ∀ (path : List (Node α)) (n : Node α), IsPathFrom 0 tree (path ++ [n]) →
        row[n.position + 1]? = some ((committedCount s + (path.length + 1) : ℕ) : ℤ)

/-- The accepted slots of a row have no gap, and each node of its tree is as deep as the template
has it. -/
def FitsTemplate {α : Type} (slots : List (List ℕ)) (trees : List (Forest α)) : Prop :=
  ∀ (b : ℕ) (s : List ℕ) (tree : Forest α), slots[b]? = some s → trees[b]? = some tree →
    Contiguous s ∧ ∀ (path : List (Node α)) (n : Node α), IsPathFrom 0 tree (path ++ [n]) →
      path.length + 1 = min (n.position + 1) 4

theorem alignedRows_forall {α β : Type} {R : α → β → Prop} {l : List α} {l' : List β}
    (h : List.Forall₂ R l l') (batch batchOffset : ℕ) :
    List.Forall₂ R (alignedRows l batch batchOffset) (alignedRows l' batch batchOffset) := by
  rw [alignedRows, alignedRows, h.length_eq]
  split_ifs
  · exact h
  · exact List.forall₂_take _ (List.forall₂_drop _ h)

theorem alignedRows_subset {α : Type} (l : List α) (batch batchOffset : ℕ) :
    ∀ x ∈ alignedRows l batch batchOffset, x ∈ l := by
  intro x hx
  rw [alignedRows] at hx
  split_ifs at hx
  · exact hx
  · exact List.mem_of_mem_drop (List.mem_of_mem_take hx)

def positionsRow (seqLen : ℕ) (slots : List ℕ) : List ℤ :=
  (extendedTemplate (dfsGenerate 1 4 0) (some seqLen)).map fun p : ℕ =>
    ((slots.getLastD 0 + 1 : ℕ) : ℤ) + (p : ℤ)

theorem positionsRow_get {seqLen i : ℕ} (hi : i < seqLen) (slots : List ℕ) :
    (positionsRow seqLen slots)[i]? = some ((slots.getLastD 0 + 1 + min i 4 : ℕ) : ℤ) := by
  rw [positionsRow, List.getElem?_map, extendedTemplate_chain hi, Option.map_some]
  congr 1

theorem rotaryPositionIds_eq {prefillLength : List ℤ} {kv : List (List ℤ)} {batchOffset seqLen : ℕ}
    {slots : List (List ℕ)} (hkv : kv ≠ []) (hids : List.Forall₂ IdsOf kv slots)
    (hslots : ∀ s ∈ slots, s ≠ [] ∧ s.Pairwise (· < ·)) :
    rotaryPositionIds true prefillLength (some kv) batchOffset seqLen =
      some (some ((alignedRows slots prefillLength.length batchOffset).map
        (positionsRow seqLen))) := by
  have hnumel : kv.flatten.isEmpty = false := by
    cases hids with
    | nil => exact absurd rfl hkv
    | @cons ids s kv slots hrow _ =>
      obtain ⟨k, rfl⟩ := hrow
      obtain ⟨hne, -⟩ := hslots s List.mem_cons_self
      cases s with
      | nil => exact absurd rfl hne
      | cons a s => rfl
  have hbases : (alignedRows kv prefillLength.length batchOffset).mapM basePosition =
      some ((alignedRows slots prefillLength.length batchOffset).map
        fun s => ((s.getLastD 0 + 1 : ℕ) : ℤ)) := by
    have hsub := alignedRows_subset slots prefillLength.length batchOffset
    have haligned := alignedRows_forall hids prefillLength.length batchOffset
    rw [Fallible.mapM_eq_some_iff, List.map_map]
    generalize alignedRows kv _ _ = ids at haligned
    generalize alignedRows slots _ _ = aligned at haligned hsub
    induction haligned with
    | nil => rfl
    | @cons ids s idss aligned hrow _ ih =>
      obtain ⟨hne, hinc⟩ := hslots s (hsub s List.mem_cons_self)
      rw [List.map_cons, List.map_cons, basePosition_eq hrow hinc hne,
        ih fun s hs => hsub s (List.mem_cons_of_mem _ hs), Function.comp_apply,
        List.getLastD_eq_getLast?, List.getLast?_eq_some_getLast hne, Option.getD_some]
  rw [rotaryPositionIds, if_pos rfl, createTreePositionIdsWithInvalidCache]
  simp only [Option.getD_some, hnumel, Bool.false_eq_true, if_false, List.length_map, hbases]
  simp only [Option.bind_eq_bind, Option.bind_some, Option.pure_def, Option.map_some, List.map_map]
  rfl

/-- In a generation round the positions are those of ordinary decoding exactly when the slots have
no gaps and the trees look like the template. -/
theorem rotary_positions_iff {α : Type} (prefillLength : List ℤ) (kv : List (List ℤ))
    (batchOffset : ℕ) (slots : List (List ℕ)) (trees : List (Forest α)) (hkv : kv ≠ [])
    (hids : List.Forall₂ IdsOf kv slots)
    (hslots : ∀ s ∈ slots, s ≠ [] ∧ s.Pairwise (· < ·)) :
    ∃ positions, rotaryPositionIds true prefillLength (some kv) batchOffset
        (1 + maxTreeSize trees) = some (some positions) ∧
      (OrdinaryPositions (alignedRows slots prefillLength.length batchOffset) trees positions ↔
        FitsTemplate (alignedRows slots prefillLength.length batchOffset) trees) := by
  refine ⟨_, rotaryPositionIds_eq hkv hids hslots, ?_⟩
  have hsub : ∀ s ∈ alignedRows slots prefillLength.length batchOffset, s ∈ slots :=
    alignedRows_subset slots _ _
  generalize alignedRows slots prefillLength.length batchOffset = aligned at hsub
  have hroot : ∀ s ∈ aligned, committedCount s = s.getLastD 0 + 1 ↔ Contiguous s := by
    intro s hs
    obtain ⟨hne, hinc⟩ := hslots s (hsub s hs)
    rw [List.getLastD_eq_getLast?, List.getLast?_eq_some_getLast hne, Option.getD_some]
    exact (contiguous_iff_getLast hinc hne).2
  have hnode : ∀ (b : ℕ) (tree : Forest α) (path : List (Node α)) (n : Node α),
      trees[b]? = some tree → IsPathFrom 0 tree (path ++ [n]) →
        n.position + 1 < 1 + maxTreeSize trees := by
    intro b tree path n hb hpath
    have hlt := (hpath.positions.2 n (List.mem_append_right _ (List.mem_singleton_self n))).2
    have hle : tree.size ≤ maxTreeSize trees :=
      List.le_max_of_le' 0 (List.mem_map_of_mem (List.mem_of_getElem? hb)) (Nat.le_refl _)
    omega
  constructor
  · intro h b s tree hb htree
    obtain ⟨row, hrow, hfirst, hnodes⟩ := h b s tree hb htree
    rw [List.getElem?_map, hb] at hrow
    obtain rfl := Option.some.inj hrow
    rw [positionsRow_get (by omega), Option.some.injEq, Nat.cast_inj] at hfirst
    refine ⟨(hroot s (List.mem_of_getElem? hb)).mp (by omega), fun path n hpath => ?_⟩
    have hpos := hnodes path n hpath
    rw [positionsRow_get (hnode b tree path n htree hpath), Option.some.injEq, Nat.cast_inj] at hpos
    omega
  · intro h b s tree hb htree
    obtain ⟨hcontiguous, hdepths⟩ := h b s tree hb htree
    have hbase := (hroot s (List.mem_of_getElem? hb)).mpr hcontiguous
    refine ⟨positionsRow (1 + maxTreeSize trees) s, ?_, ?_, fun path n hpath => ?_⟩
    · rw [List.getElem?_map, hb]
      rfl
    · rw [positionsRow_get (by omega), hbase]
      rfl
    · rw [positionsRow_get (hnode b tree path n htree hpath), hbase, hdepths path n hpath]

/-- After a prompt of one token, with a chain of two nodes. -/
theorem rotary_positions_chain : ∃ positions,
    rotaryPositionIds true [1] (some [[0]]) 0 3 = some (some positions) ∧
      OrdinaryPositions [[0]] [Forest.cons 7 (.cons 8 .nil .nil) .nil] positions := by
  obtain ⟨positions, hpositions, hiff⟩ := rotary_positions_iff [1] [[0]] 0 [[0]]
    [Forest.cons 7 (.cons 8 .nil .nil) .nil] (List.cons_ne_nil _ _)
    (.cons ⟨0, rfl⟩ .nil) (by decide)
  refine ⟨positions, hpositions, hiff.mpr fun b s tree hb htree => ?_⟩
  cases b with
  | succ b => cases htree
  | zero =>
    obtain rfl := Option.some.inj hb
    obtain rfl := Option.some.inj htree
    refine ⟨rfl, fun path n hpath => ?_⟩
    rcases path with - | ⟨first, - | ⟨second, path⟩⟩
    · rcases hpath with ⟨rfl, -⟩ | hpath
      · rfl
      · exact hpath.elim
    · rcases hpath with ⟨-, ⟨rfl, -⟩ | hpath⟩ | hpath
      · rfl
      · exact hpath.elim
      · exact hpath.elim
    · rcases hpath with ⟨-, ⟨-, hpath⟩ | hpath⟩ | hpath
      · cases path <;> exact hpath.elim
      · exact hpath.elim
      · exact hpath.elim

/-- The second of two children of the root gets the position of a grandchild. -/
theorem rotary_positions_siblings : ¬ ∀ (prefillLength : List ℤ) (kv : List (List ℤ))
    (batchOffset : ℕ) (slots : List (List ℕ)) (trees : List (Forest ℕ)), kv ≠ [] →
      List.Forall₂ IdsOf kv slots → (∀ s ∈ slots, s ≠ [] ∧ s.Pairwise (· < ·)) →
        ∀ positions, rotaryPositionIds true prefillLength (some kv) batchOffset
            (1 + maxTreeSize trees) = some (some positions) →
          OrdinaryPositions (alignedRows slots prefillLength.length batchOffset) trees
            positions := by
  intro h
  have hpositions : rotaryPositionIds true [1] (some [[0]]) 0 3 = some (some [[1, 2, 3]]) := by
    decide
  obtain ⟨row, hrow, -, hnodes⟩ := h [1] [[0]] 0 [[0]]
    [Forest.cons 7 .nil (.cons 8 .nil .nil)] (List.cons_ne_nil _ _) (.cons ⟨0, rfl⟩ .nil)
    (by decide) _ hpositions 0 [0] _ rfl rfl
  obtain rfl := Option.some.inj hrow
  have hsecond := hnodes [] ⟨8, 1⟩ (.inr (.inl ⟨rfl, trivial⟩))
  exact absurd hsecond (by decide)

end BloomBee.Speculative

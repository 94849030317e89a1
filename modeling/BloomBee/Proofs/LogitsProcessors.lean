import BloomBee.Proofs.SpeculativeModel

/-! Logits processors in greedy speculative decoding. A later round verifies the nodes of the trees
against the raw logits, and processes the logits of the last token with the history from before the
round. So what it commits is the greedy choice with processors if and only if the processors do not
change the choice along the verified path, and the missing part of the history does not change the
last one (`processed_greedy_iff`). -/

set_option autoImplicit false

namespace BloomBee.Speculative

variable {L : Type}

/-- Every token is the argmax of the processed logits, given the tokens before it. -/
def GreedyWith (ops : LogitsOps L) (processors : List (List ℕ → L → L)) (model : List ℕ → L) :
    List ℕ → List ℕ → Prop
  | _, [] => True
  | history, t :: tokens =>
    t = ops.argmax (processed processors history (model history)) ∧
      GreedyWith ops processors model (history ++ [t]) tokens

/-- The processors do not change the argmax before any node of the path. -/
def KeepsArgmax (ops : LogitsOps L) (processors : List (List ℕ → L → L)) (model : List ℕ → L) :
    List ℕ → List (Node ℕ) → Prop
  | _, [] => True
  | history, n :: path =>
    ops.argmax (processed processors history (model history)) = ops.argmax (model history) ∧
      KeepsArgmax ops processors model (history ++ [n.token]) path

/-- A later round reaches a token after the verified path: there is no such path, or its last row
of logits is not pruned. -/
def ReachesLast (ops : LogitsOps L) (model : List ℕ → L) (history : List ℕ)
    (path : List (Node ℕ)) : Prop :=
  path = [] ∨ ops.zero (model (history ++ path.map Node.token)) = false

section

variable {ops : LogitsOps L} {processors : List (List ℕ → L → L)} {model : List ℕ → L}

theorem verifyProcessed_nil {st : SampleState} (r : Round) {b : ℕ} {row : SeqRow}
    (hlater : st.isFirstIteration = false) (hb : st.rows[b]? = some row) :
    greedyOutcome (fun s => ops.row (model s)) st r b = verifyProcessed ops [] model r b row := by
  rw [greedyOutcome, List.getD_eq_getElem?_getD, verifyTrees, verifyProcessed]
  split_ifs
  · rw [List.getElem?_mapIdx, hb]
    rfl
  · rw [List.getElem?_mapIdx, hb, Option.map_some, hlater, verifyRow, if_neg (by decide)]
    rfl

theorem greedyWith_snoc (t : ℕ) (tokens : List ℕ) : ∀ history : List ℕ,
    GreedyWith ops processors model history (tokens ++ [t]) ↔
      GreedyWith ops processors model history tokens ∧
        t = ops.argmax (processed processors (history ++ tokens) (model (history ++ tokens))) := by
  induction tokens with
  | nil =>
    intro history
    rw [List.nil_append, List.append_nil]
    simp only [GreedyWith]
    exact and_comm
  | cons u tokens ih =>
    intro history
    rw [List.cons_append]
    simp only [GreedyWith]
    rw [ih, List.append_cons history u tokens, and_assoc]

theorem greedyWith_path {path : List (Node ℕ)} : ∀ {history : List ℕ},
    Follows (fun s => ops.row (model s)) history path →
      (GreedyWith ops processors model history (path.map Node.token) ↔
        KeepsArgmax ops processors model history path) := by
  induction path with
  | nil => exact fun _ => Iff.rfl
  | cons n path ih =>
    intro history hf
    obtain ⟨htoken, hf⟩ := hf
    have hraw : n.token = ops.argmax (model history) := htoken
    rw [List.map_cons]
    simp only [GreedyWith, KeepsArgmax]
    rw [ih hf, ← hraw]
    exact and_congr_left fun _ => eq_comm

/-- The verified path follows the raw argmax, and it is a path of the tree. -/
theorem laterBest_follows {row : SeqRow} (hne : row.sequence ≠ []) (maxSize : ℕ)
    (tree : Forest ℕ) :
    Follows (fun s => ops.row (model s)) row.sequence (laterBest ops model row maxSize tree) ∧
      IsPathFrom 0 tree (laterBest ops model row maxSize tree) := by
  have hrows := @rowsOf_later (fun s => ops.row (model s)) tree maxSize row hne
  have hbest : laterBest ops model row maxSize tree = bestVerified (1 + maxSize)
      (fun i => (laterLogits (fun s => ops.row (model s)) row maxSize tree i).argmax)
      tree.leafNodePaths := rfl
  rcases bestVerified_mem (1 + maxSize)
    (fun i => (laterLogits (fun s => ops.row (model s)) row maxSize tree i).argmax)
    tree.leafNodePaths with hnil | ⟨path, hpath, hverified⟩
  · rw [hbest, hnil]
    exact ⟨trivial, isPathFrom_nil 0 tree⟩
  · have hp := leafNodePaths_isPath tree path hpath
    have hf := verifyPath_follows hrows (1 + maxSize) path [] 0 hp (by
      rw [List.map_nil, List.append_nil]
      exact hrows.root)
    rw [List.map_nil, List.append_nil] at hf
    rw [hbest, hverified]
    exact ⟨hf, hp.shorten (verifyPath_isPrefix _ _ _ _)⟩

theorem extractProcessed_tokens {row : SeqRow} (hne : row.sequence ≠ []) (maxSize : ℕ)
    (tree : Forest ℕ) {path : List (Node ℕ)} (hpath : path = laterBest ops model row maxSize tree) :
    (ReachesLast ops model row.sequence path →
      extractProcessed ops processors model row maxSize tree =
        (path.map Node.token, ops.argmax (processed processors row.ids
          (model (row.sequence ++ path.map Node.token))))) ∧
    (¬ReachesLast ops model row.sequence path →
      (extractProcessed ops processors model row maxSize tree).1 ++
        [(extractProcessed ops processors model row maxSize tree).2] = path.map Node.token) := by
  have htree := (@laterBest_follows L ops model row hne maxSize tree).2
  rw [extractProcessed, ← hpath]
  rw [← hpath] at htree
  cases hlast : path.getLast? with
  | none =>
    rw [List.getLast?_eq_none_iff] at hlast
    subst hlast
    refine ⟨fun _ => ?_, fun h => absurd (.inl rfl) h⟩
    simp only [laterContext_root hne, List.map_nil, List.append_nil]
  | some last =>
    obtain ⟨q, rfl⟩ := List.getLast?_eq_some_iff.mp hlast
    simp only [laterContext_node hne htree]
    split_ifs with hzero
    · refine ⟨fun h => ?_, fun _ => ?_⟩
      · rcases h with hnil | hlive
        · exact absurd hnil (by simp)
        · rw [hzero] at hlive
          cases hlive
      · rw [List.dropLast_concat, List.map_append, List.map_singleton]
    · refine ⟨fun _ => rfl, fun h => absurd (.inr ?_) h⟩
      rwa [Bool.not_eq_true] at hzero

/-- The tokens of a row that the trees of its batch are verified for. -/
theorem extractProcessed_greedy_iff {row : SeqRow} (hne : row.sequence ≠ []) (maxSize : ℕ)
    (tree : Forest ℕ) :
    GreedyWith ops processors model row.sequence
        ((extractProcessed ops processors model row maxSize tree).1 ++
          [(extractProcessed ops processors model row maxSize tree).2]) ↔
      KeepsArgmax ops processors model row.sequence (laterBest ops model row maxSize tree) ∧
        ∀ history, history = row.sequence ++ (laterBest ops model row maxSize tree).map Node.token →
          ReachesLast ops model row.sequence (laterBest ops model row maxSize tree) →
          ops.argmax (processed processors row.ids (model history)) =
            ops.argmax (processed processors history (model history)) := by
  obtain ⟨hlive, hpruned⟩ :=
    @extractProcessed_tokens L ops processors model row hne maxSize tree _ rfl
  have hfollows := (@laterBest_follows L ops model row hne maxSize tree).1
  generalize laterBest ops model row maxSize tree = path at *
  by_cases hlast : ReachesLast ops model row.sequence path
  · rw [hlive hlast, greedyWith_snoc, greedyWith_path hfollows]
    refine and_congr_right fun _ => ⟨?_, ?_⟩
    · rintro h history rfl _
      exact h
    · exact fun h => h _ rfl hlast
  · rw [hpruned hlast, greedyWith_path hfollows]
    exact ⟨fun h => ⟨h, fun _ _ h' => absurd h' hlast⟩, fun h => h.1⟩

/-- Whatever the fallback draws, a later round commits for the row what greedy decoding with the
same processors would choose. -/
def CommitsGreedy (ops : LogitsOps L) (processors : List (List ℕ → L → L)) (model : List ℕ → L)
    (trees : List (Forest ℕ)) (b : ℕ) (row : SeqRow) : Prop :=
  ∀ drawn, GreedyWith ops processors model row.sequence
    ((verifyProcessed ops processors model ⟨trees, drawn⟩ b row).1 ++
      [(verifyProcessed ops processors model ⟨trees, drawn⟩ b row).2])

/-- Greedy decoding with processors. A later round commits the tokens that greedy decoding with the
same processors would choose if and only if the batch has a drafted node, the processors keep the
raw argmax before every node of the verified path, and, unless the last row of logits is pruned,
they choose the same last token with the ids of the row from before the round as with the history
up to that token. -/
theorem processed_greedy_iff {row : SeqRow} (hne : row.sequence ≠ []) (trees : List (Forest ℕ))
    (b : ℕ) :
    CommitsGreedy ops processors model trees b row ↔
      (∃ tree ∈ trees, tree.size ≠ 0) ∧
        ∀ path, path = laterBest ops model row (maxTreeSize trees) (trees.getD b .nil) →
          KeepsArgmax ops processors model row.sequence path ∧
          ∀ history, history = row.sequence ++ path.map Node.token →
            ReachesLast ops model row.sequence path →
            ops.argmax (processed processors row.ids (model history)) =
              ops.argmax (processed processors history (model history)) := by
  by_cases hdraft : ∀ tree ∈ trees, tree.size = 0
  · constructor
    · intro h
      -- a draw of another token
      have hdrawn := h (List.replicate (b + 1)
        (ops.argmax (processed processors row.sequence (model row.sequence)) + 1))
      rw [verifyProcessed, if_pos hdraft] at hdrawn
      obtain ⟨htoken, -⟩ := hdrawn
      rw [List.getD_eq_getElem?_getD, List.getElem?_replicate, if_pos (Nat.lt_succ_self b)]
        at htoken
      exact absurd htoken (Nat.succ_ne_self _)
    · rintro ⟨⟨tree, htree, hne⟩, -⟩
      exact absurd (hdraft tree htree) hne
  · have hsome := hdraft
    push Not at hsome
    rw [CommitsGreedy]
    simp only [verifyProcessed, if_neg hdraft]
    rw [forall_const, extractProcessed_greedy_iff hne]
    constructor
    · rintro h
      refine ⟨hsome, ?_⟩
      rintro path rfl
      exact h
    · exact fun h => h.2 _ rfl

end

def scores : LogitsOps (List ℕ) where
  argmax row := row.idxOf (row.foldr max 0)
  zero row := row.all (· == 0)

def noRepeat (history row : List ℕ) : List ℕ :=
  row.mapIdx fun t score => if history.contains t then 0 else score

/-- A drafted token that is not the raw argmax: only the last token is processed. -/
theorem processed_greedy_iff_rejected :
    (∀ drawn, verifyProcessed scores [noRepeat] (fun _ => [0, 3, 2, 1])
        ⟨[.cons 2 .nil .nil], drawn⟩ 0 ⟨[5], 1, true⟩ = ([], 1)) ∧
      CommitsGreedy scores [noRepeat] (fun _ => [0, 3, 2, 1]) [.cons 2 .nil .nil] 0
        ⟨[5], 1, true⟩ := by
  refine ⟨fun drawn => rfl, (@processed_greedy_iff (List ℕ) scores [noRepeat]
    (fun _ => [0, 3, 2, 1]) ⟨[5], 1, true⟩ (by decide) [.cons 2 .nil .nil] 0).mpr
    ⟨⟨_, List.mem_cons_self, by decide⟩, ?_⟩⟩
  rintro path rfl
  refine ⟨trivial, ?_⟩
  rintro history rfl _
  decide

/-- Token 1 is repeated, because the node is verified without the processor. -/
theorem processor_ignored :
    verifyProcessed scores [noRepeat] (fun _ => [0, 3, 2, 1]) ⟨[.cons 1 .nil .nil], []⟩ 0
        ⟨[1], 1, true⟩ = ([1], 2) ∧
      ¬CommitsGreedy scores [noRepeat] (fun _ => [0, 3, 2, 1]) [.cons 1 .nil .nil] 0
        ⟨[1], 1, true⟩ := by
  refine ⟨by decide, fun h => ?_⟩
  obtain ⟨hfirst, -⟩ := h []
  exact absurd hfirst (by decide)

end BloomBee.Speculative

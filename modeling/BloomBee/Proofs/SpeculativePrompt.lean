import BloomBee.Proofs.SpeculativeModel

/-! The prompt in the rows of `_sample_with_session`, whatever verifies the trees: greedily or by
sampling, with or without logits processors. A round extends what a row holds by the tokens that
it commits (`holds_round`), whatever the row holds. What a row holds at the start is cut at the
number of tokens that are not ignored, so a row keeps its prompt in all rounds if that number is
the length of the prompt, and in none if it is not. -/

set_option autoImplicit false

namespace BloomBee.Speculative

variable {model : List ℕ → LogitsRow} {cfg : SampleConfig} {st : SampleState} {b initialLen : ℕ}

theorem sample_eq_sampleWith (rounds : List Round) : ∀ st : SampleState,
    ∃ outcomes, sample cfg model initialLen st rounds = sampleWith cfg initialLen st outcomes := by
  induction rounds with
  | nil => exact fun st => ⟨[], rfl⟩
  | cons r rounds ih =>
    intro st
    obtain ⟨outcomes, h⟩ := ih (sampleRound cfg model st r)
    refine ⟨greedyOutcome model st r :: outcomes, ?_⟩
    rw [sample, sampleWith, h, sampleRound]

/-! ### What a row holds -/

/-- The tokens that a round commits for a row, after the stopping conditions. -/
def committedTokens (cfg : SampleConfig) (row : SeqRow) (outcome : List ℕ × ℕ) : List ℕ :=
  if cfg.hasEos && !row.unfinished then
    outcome.1.map (fun _ => cfg.padTokenId) ++ [cfg.padTokenId]
  else outcome.1 ++ [outcome.2]

theorem extend_eq (row : SeqRow) (outcome : List ℕ × ℕ) :
    row.extend cfg outcome.1 outcome.2 = row.sequence ++ committedTokens cfg row outcome := by
  unfold SeqRow.extend committedTokens
  split_ifs
  · rw [List.append_assoc]
  · rw [List.append_assoc]

def committed (cfg : SampleConfig) (initialLen b : ℕ) : SampleState → List Outcome → List ℕ
  | _, [] => []
  | st, outcome :: outcomes =>
    if running cfg initialLen st then
      (st.rows[b]?.elim [] fun row => committedTokens cfg row (outcome b)) ++
        committed cfg initialLen b (updateRows cfg st outcome) outcomes
    else []

/-- The row holds the tokens `s`, and `rest` after them. -/
structure Holds (row : SeqRow) (s rest : List ℕ) : Prop where
  ids : row.ids = s ++ rest
  seqLength : row.seqLength = s.length

theorem Holds.sequence {row : SeqRow} {s rest : List ℕ} (h : Holds row s rest) :
    row.sequence = s := by
  rw [SeqRow.sequence, h.ids, h.seqLength, List.take_left]

/-- A round extends a row by the tokens committed for it, and pads it. -/
theorem holds_round {row : SeqRow} {s rest : List ℕ} (hb : st.rows[b]? = some row)
    (h : Holds row s rest) (outcome : Outcome) :
    ∃ row' n, (updateRows cfg st outcome).rows[b]? = some row' ∧
      Holds row' (s ++ committedTokens cfg row (outcome b))
        (List.replicate n cfg.padTokenId) := by
  obtain ⟨n, hrow⟩ := @updateRows_getElem cfg st b row hb outcome
  rw [extend_eq, h.sequence] at hrow
  exact ⟨_, n, hrow, rfl, rfl⟩

/-- The padding of the input before the first round, and that of the configuration later. -/
def IsPadding (cfg : SampleConfig) (fill : ℕ) (st : SampleState) (rest : List ℕ) : Prop :=
  ∃ n, rest = List.replicate n (if st.isFirstIteration then fill else cfg.padTokenId)

/-- A run extends a row by the tokens committed for it. -/
theorem holds_run {fill : ℕ} (outcomes : List Outcome) :
    ∀ {st : SampleState} {row : SeqRow} {s rest : List ℕ}, st.rows[b]? = some row →
      Holds row s rest →
      ∃ row' rest', (sampleWith cfg initialLen st outcomes).rows[b]? = some row' ∧
        Holds row' (s ++ committed cfg initialLen b st outcomes) rest' ∧
        (IsPadding cfg fill st rest →
          IsPadding cfg fill (sampleWith cfg initialLen st outcomes) rest') := by
  induction outcomes with
  | nil =>
    intro st row s rest hb h
    refine ⟨row, rest, hb, ?_, id⟩
    rwa [committed, List.append_nil]
  | cons outcome outcomes ih =>
    intro st row s rest hb h
    rw [sampleWith, committed]
    split_ifs with hrun
    · obtain ⟨row', n, hb', h'⟩ := @holds_round cfg st b row s rest hb h outcome
      obtain ⟨last, rest', hlast, hholds, hpad⟩ := ih hb' h'
      rw [List.append_assoc] at hholds
      rw [hb]
      exact ⟨last, rest', hlast, hholds, fun _ => hpad ⟨n, rfl⟩⟩
    · refine ⟨row, rest, hb, ?_, id⟩
      rwa [List.append_nil]

/-! ### Prompts -/

/-- Row `b` of a state is its prompt, the tokens committed for it, and padding, and its entry of
`seq_lengths` counts the prompt and the committed tokens. -/
def KeepsPrompt (cfg : SampleConfig) (fill b : ℕ) (prompt tokens : List ℕ) (st : SampleState) :
    Prop :=
  ∃ row rest, st.rows[b]? = some row ∧ IsPadding cfg fill st rest ∧
    row.ids = prompt ++ tokens ++ rest ∧ row.seqLength = prompt.length + tokens.length

/-- After any rounds, a row of a batch keeps its prompt if and only if as many tokens of the
padded row are neither 0 nor 2 as the prompt is long. -/
theorem keepsPrompt_iff {inputIds : List (List ℕ)} {prompt : List ℕ} {n fill : ℕ}
    (hb : inputIds[b]? = some (prompt ++ List.replicate n fill)) (initialLen : ℕ)
    (outcomes : List Outcome) :
    KeepsPrompt cfg fill b prompt (committed cfg initialLen b (startRows inputIds) outcomes)
        (sampleWith cfg initialLen (startRows inputIds) outcomes) ↔
      ((prompt ++ List.replicate n fill).countP fun t => t ∉ ignoreTokenIds) = prompt.length := by
  set padded := prompt ++ List.replicate n fill with hpadded
  have hstart : (startRows inputIds).rows[b]? =
      some ⟨padded, padded.countP fun t => t ∉ ignoreTokenIds, true⟩ := by
    rw [startRows, List.getElem?_map, hb]
    rfl
  have hle : (padded.countP fun t => t ∉ ignoreTokenIds) ≤ padded.length := List.countP_le_length
  generalize (padded.countP fun t => t ∉ ignoreTokenIds) = count at *
  have hholds : Holds ⟨padded, count, true⟩ (padded.take count) (padded.drop count) := by
    constructor
    · exact (List.take_append_drop count padded).symm
    · rw [List.length_take, Nat.min_eq_left hle]
  obtain ⟨row, rest, hrow, h, hpad⟩ :=
    @holds_run cfg b initialLen fill outcomes _ _ _ _ hstart hholds
  constructor
  · rintro ⟨row', rest', hrow', -, -, hlen⟩
    rw [hrow, Option.some.injEq] at hrow'
    subst hrow'
    rw [h.seqLength, List.length_append, List.length_take, Nat.min_eq_left hle] at hlen
    omega
  · intro hfull
    have htake : padded.take count = prompt := by rw [hpadded, hfull, List.take_left]
    have hdrop : padded.drop count = List.replicate n fill := by
      rw [hpadded, hfull, List.drop_left]
    rw [htake] at h
    refine ⟨row, rest, hrow, hpad ⟨n, hdrop⟩, h.ids, ?_⟩
    rw [h.seqLength, List.length_append]

/-- A batch of two prompts, the second one padded, and a round that verifies a token of each. -/
theorem keepsPrompt_iff_two :
    KeepsPrompt tenTokens 0 1 [6]
      (committed tenTokens 2 1 (startRows [[5, 7], [6, 0]]) [fun _ => ([8], 9)])
      (sampleWith tenTokens 2 (startRows [[5, 7], [6, 0]]) [fun _ => ([8], 9)]) :=
  (@keepsPrompt_iff tenTokens 1 [[5, 7], [6, 0]] [6] 1 0 rfl 2 _).mpr (by decide)

/-- The prompt `[5, 0, 6]` beside one without a token 0: the first round overwrites its last
token. -/
theorem prompt_overwritten :
    ¬KeepsPrompt tenTokens 0 0 [5, 0, 6]
      (committed tenTokens 3 0 (startRows [[5, 0, 6], [5, 7, 6]]) [fun _ => ([], 9)])
      (sampleWith tenTokens 3 (startRows [[5, 0, 6], [5, 7, 6]]) [fun _ => ([], 9)]) := by
  have hrun : (sampleWith tenTokens 3 (startRows [[5, 0, 6], [5, 7, 6]])
      [fun _ => ([], 9)]).rows[0]? = some ⟨[5, 0, 9, 0], 3, true⟩ := by
    decide
  rintro ⟨row, rest, hrow, -, hids, -⟩
  rw [hrun, Option.some.injEq] at hrow
  subst hrow
  rw [List.append_assoc] at hids
  have hlast : some 9 = some 6 := congrArg (fun l => l[2]?) hids
  exact absurd hlast (by decide)

end BloomBee.Speculative

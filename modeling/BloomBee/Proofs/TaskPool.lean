import BloomBee.Spec.TaskPool

/-! When the priority of a pool is that of its most important task. It is not recomputed when the
pool runs empty, nor does the runtime look at the tasks that are still in the submission queue. -/

set_option autoImplicit false

namespace BloomBee.TaskPool

variable {s s' : Pool} {e : Event} {task : Task} {tasks : List Task}

/-- If the pool has tasks that are not dispatched, its priority is that of the first of them. -/
def Truthful (s : Pool) : Prop := s.undispatched ≠ [] → s.priority = least s.undispatched

/-- A task that goes into an empty pool is at least as important as the priority that was left
there. No submitted task is more important than all the ordered ones that a load leaves behind;
and if it leaves none, some submitted task is at least as important as the one it takes. -/
def Keeps (s : Pool) : Event → Prop
  | .submitTask task => getTaskSize task ≤ s.maxBatchSize → s.undispatched = [] →
      (task.key : WithTop (ℚ ×ₗ ℚ)) ≤ s.priority
  | .move => True
  | .load i => ∀ task ∈ s.orderedTasks[i]?,
      if s.orderedTasks.eraseIdx i = [] then
        s.submittedTasks = [] ∨ ∃ other ∈ s.submittedTasks, other.key ≤ task.key
      else
        ∀ other ∈ s.submittedTasks, ∃ first ∈ s.orderedTasks.eraseIdx i, first.key ≤ other.key

/-! ### The least key -/

@[simp] theorem least_nil : least [] = ⊤ := rfl

@[simp] theorem least_cons (task : Task) (tasks : List Task) :
    least (task :: tasks) = min (task.key : WithTop (ℚ ×ₗ ℚ)) (least tasks) := rfl

@[simp] theorem least_append (tasks others : List Task) :
    least (tasks ++ others) = min (least tasks) (least others) := by
  induction tasks with
  | nil => rw [List.nil_append, least_nil, top_inf_eq]
  | cons task tasks ih => rw [List.cons_append, least_cons, least_cons, ih, min_assoc]

theorem le_least_iff {k : WithTop (ℚ ×ₗ ℚ)} : k ≤ least tasks ↔ ∀ task ∈ tasks, k ≤ task.key := by
  induction tasks with
  | nil => simp
  | cons task tasks ih => rw [least_cons, le_min_iff, ih, List.forall_mem_cons]

theorem least_le_iff {k : ℚ ×ₗ ℚ} : least tasks ≤ k ↔ ∃ task ∈ tasks, task.key ≤ k := by
  induction tasks with
  | nil => simp
  | cons task tasks ih =>
    rw [least_cons, min_le_iff, ih, WithTop.coe_le_coe, List.exists_mem_cons_iff]

theorem least_perm {others : List Task} (h : tasks.Perm others) : least tasks = least others := by
  refine eq_of_forall_le_iff fun k => ?_
  rw [le_least_iff, le_least_iff]
  exact ⟨fun hk task ht => hk task (h.mem_iff.mpr ht), fun hk task ht => hk task (h.mem_iff.mp ht)⟩

/-! ### The steps -/

theorem truthful_submitTask (h : Truthful s) (task : Task) :
    Truthful (submitTask s task) ↔ Keeps s (.submitTask task) := by
  unfold submitTask
  by_cases hsize : s.maxBatchSize < getTaskSize task
  · rw [if_pos hsize]
    exact iff_of_true h fun hle => absurd hsize (Nat.not_lt_of_le hle)
  rw [if_neg hsize]
  have hpriority : (if (task.key : WithTop (ℚ ×ₗ ℚ)) < s.priority then
      (task.key : WithTop (ℚ ×ₗ ℚ)) else s.priority) =
        min (task.key : WithTop (ℚ ×ₗ ℚ)) s.priority := by
    split_ifs with hlt
    · exact (min_eq_left (le_of_lt hlt)).symm
    · exact (min_eq_right (not_lt.mp hlt)).symm
  have hleast : least ((s.submittedTasks ++ [task]) ++ s.orderedTasks) =
      min (task.key : WithTop (ℚ ×ₗ ℚ)) (least s.undispatched) := by
    rw [← least_cons]
    exact least_perm (by simp [Pool.undispatched, List.perm_middle])
  have hne : (s.submittedTasks ++ [task]) ++ s.orderedTasks ≠ [] := by simp
  unfold Truthful
  dsimp only [Pool.undispatched] at hleast ⊢
  rw [hpriority, hleast]
  by_cases hempty : s.undispatched = []
  · -- the task is the only one
    have hnil : s.submittedTasks ++ s.orderedTasks = [] := hempty
    rw [hnil, least_nil, min_top_right, min_eq_left_iff]
    exact ⟨fun hle _ _ => hle hne, fun hkeeps _ => hkeeps (Nat.le_of_not_lt hsize) hempty⟩
  · rw [h hempty]
    exact iff_of_true (fun _ => rfl) fun _ hnil => absurd hnil hempty

theorem truthful_load (h : Truthful s) {i : ℕ} (hs : step s (.load i) = some s') :
    Truthful s' ↔ Keeps s (.load i) := by
  unfold step at hs
  dsimp only at hs
  split at hs
  swap
  · cases hs
  rename_i task htask
  by_cases hfirst : ∀ other ∈ s.orderedTasks, task.key ≤ other.key
  swap
  · rw [if_neg hfirst] at hs
    cases hs
  rw [if_pos hfirst] at hs
  obtain rfl := Option.some.inj hs
  have hmem := List.mem_of_getElem? htask
  have hordered : least s.orderedTasks = task.key :=
    le_antisymm (least_le_iff.mpr ⟨task, hmem, le_refl _⟩)
      (le_least_iff.mpr fun other hother => WithTop.coe_le_coe.mpr (hfirst other hother))
  have hpriority : s.priority = min (least s.submittedTasks) task.key := by
    rw [h (List.append_ne_nil_of_right_ne_nil _ (List.ne_nil_of_mem hmem)), Pool.undispatched,
      least_append, hordered]
  have hkeeps : Keeps s (.load i) ↔
      if s.orderedTasks.eraseIdx i = [] then
        s.submittedTasks = [] ∨ least s.submittedTasks ≤ task.key
      else least (s.orderedTasks.eraseIdx i) ≤ least s.submittedTasks := by
    unfold Keeps
    simp only [htask, Option.mem_some_iff, forall_eq', least_le_iff, le_least_iff]
  rw [hkeeps]
  unfold Truthful Pool.undispatched
  dsimp only
  split_ifs with hnil
  · rw [hnil, List.append_nil, hpriority, min_eq_left_iff, or_iff_not_imp_left]
  · rw [least_append, eq_comm, min_eq_right_iff]
    exact ⟨fun hle => hle (by simp [hnil]), fun hle _ => hle⟩

theorem truthful_step (h : Truthful s) (hs : step s e = some s') : Truthful s' ↔ Keeps s e := by
  cases e with
  | submitTask task =>
    obtain rfl := Option.some.inj hs
    exact truthful_submitTask h task
  | move =>
    unfold step at hs
    dsimp only at hs
    split at hs
    · rename_i task submittedTasks hsubmitted
      obtain rfl := Option.some.inj hs
      refine iff_of_true ?_ trivial
      have hperm : (submittedTasks ++ (s.orderedTasks ++ [task])).Perm s.undispatched := by
        unfold Pool.undispatched
        rw [hsubmitted, ← List.append_assoc]
        exact List.perm_append_singleton task _
      intro hne
      show s.priority = _
      rw [h fun hnil => hne (List.perm_nil.mp (hnil ▸ hperm))]
      exact (least_perm hperm).symm
    · cases hs
  | load i => exact truthful_load h hs

/-- The priority of a pool is that of its most important undispatched task in every state of a
run, however its calls interleave, if and only if every step of the run keeps it so. -/
theorem priority_truthful_iff (maxBatchSize : ℕ) (events : List Event) :
    Runs.Always step Truthful (new maxBatchSize) events ↔
      Runs.Along step Keeps (new maxBatchSize) events :=
  Runs.always_iff_along (fun h => absurd rfl h) fun _ _ _ h hs => truthful_step h hs

/-- The second task comes when the first one is dispatched: the pool goes on with the time of the
first. And where the third is still in the submission queue when the first is dispatched, the pool
goes on with the priority of the second, which is less important. -/
theorem priority_stale :
    let task (priority timeSubmitted : ℚ) : Task := ⟨priority, timeSubmitted, none⟩
    (∃ s, Runs.run step (new 1)
        [.submitTask (task 1 1), .move, .load 0, .submitTask (task 1 2)] = some s ∧
      s.undispatched = [task 1 2] ∧ s.priority = (task 1 1).key ∧
      s.priority ≠ least s.undispatched) ∧
    ∃ s, Runs.run step (new 1) [.submitTask (task 1 1), .submitTask (task 2 2), .move, .move,
        .submitTask (task 1 3), .load 0] = some s ∧
      s.undispatched = [task 1 3, task 2 2] ∧ s.priority = (task 2 2).key ∧
      s.priority ≠ least s.undispatched := by
  intro task
  refine ⟨⟨_, rfl, rfl, ?_, ?_⟩, ⟨_, rfl, rfl, ?_, ?_⟩⟩
  · rfl
  · decide
  · rfl
  · decide

end BloomBee.TaskPool

import JaxFs.Runs

/-!
# Interleavings

Tasks that take turns on a shared state.  A turn takes one task from the point where it
last let go of the state to the next one, so a run is a list of turns and every order of
them is a run.  How far a task has come with its job is a stage, an assertion about the
shared state and the task.  The tasks are at their stages all along a run when each of
them keeps its own stage in its turns, and those of the jobs that are apart from its own.
-/

/-- A shared state, and the tasks on it at the points where they have stopped. -/
structure Interleaved (σ τ : Type*) where
  shared : σ
  tasks : List τ

namespace Interleaved

variable {σ τ ι : Type*} {move : σ → τ → σ × τ}

/-- One turn; a task that is not there does nothing. -/
def turn (move : σ → τ → σ × τ) (system : Interleaved σ τ) (number : ℕ) :
    Interleaved σ τ :=
  match system.tasks[number]? with
  | none => system
  | some task =>
      ⟨(move system.shared task).1, system.tasks.set number (move system.shared task).2⟩

/-- The condition holds of the task whose turn it is. -/
def Allows (allowed : σ → τ → Prop) (system : Interleaved σ τ) (number : ℕ) : Prop :=
  ∀ task, system.tasks[number]? = some task → allowed system.shared task

/-- Every task is at a stage of its job. -/
structure AtStages (stage : σ → ι → τ → Prop) (jobs : List ι) (system : Interleaved σ τ) :
    Prop where
  length : system.tasks.length = jobs.length
  stages : ∀ (number : ℕ) job task, jobs[number]? = some job →
    system.tasks[number]? = some task → stage system.shared job task

/-- A turn keeps the stage of its own job and those of the jobs apart from it. -/
structure StageRules (move : σ → τ → σ × τ) (allowed : σ → τ → Prop)
    (stage : σ → ι → τ → Prop) (apart : ι → ι → Prop) : Prop where
  own : ∀ shared job task, stage shared job task → allowed shared task →
    stage (move shared task).1 job (move shared task).2
  other : ∀ shared job task job' task', apart job job' → stage shared job task →
    allowed shared task → stage shared job' task' → stage (move shared task).1 job' task'

theorem turn_of_some {system : Interleaved σ τ} {number : ℕ} {task : τ}
    (h : system.tasks[number]? = some task) : system.turn move number =
      ⟨(move system.shared task).1,
        system.tasks.set number (move system.shared task).2⟩ := by
  rw [turn, h]

theorem turn_of_none {system : Interleaved σ τ} {number : ℕ}
    (h : system.tasks[number]? = none) : system.turn move number = system := by
  rw [turn, h]

/-- A task that has come to its end stays. -/
theorem mem_tasks_turn {system : Interleaved σ τ} {task : τ}
    (hend : ∀ shared, (move shared task).2 = task) (h : task ∈ system.tasks)
    (number : ℕ) : task ∈ (system.turn move number).tasks := by
  cases hturn : system.tasks[number]? with
  | none =>
      rw [turn_of_none hturn]
      exact h
  | some moved =>
      rw [turn_of_some hturn]
      obtain ⟨place, hplace⟩ := List.mem_iff_getElem?.mp h
      apply List.mem_iff_getElem?.mpr
      refine ⟨place, ?_⟩
      by_cases hsame : number = place
      · subst hsame
        rw [hturn] at hplace
        cases hplace
        rw [List.getElem?_set_self (List.getElem?_eq_some_iff.mp hturn).1, hend]
      · rw [List.getElem?_set_ne hsame]
        exact hplace

/-- What every turn keeps of the shared state and of its own task holds after a turn. -/
theorem forall_turn {good : σ → Prop} {fine : τ → Prop}
    (hmove : ∀ shared task, good shared → fine task →
      good (move shared task).1 ∧ fine (move shared task).2)
    {system : Interleaved σ τ} (hshared : good system.shared)
    (htasks : ∀ task ∈ system.tasks, fine task) (number : ℕ) :
    good (system.turn move number).shared ∧
      ∀ task ∈ (system.turn move number).tasks, fine task := by
  cases hturn : system.tasks[number]? with
  | none =>
      rw [turn_of_none hturn]
      exact ⟨hshared, htasks⟩
  | some moved =>
      rw [turn_of_some hturn]
      obtain ⟨hgood, hfine⟩ :=
        hmove system.shared moved hshared (htasks moved (List.mem_of_getElem? hturn))
      constructor
      · exact hgood
      · intro task htask
        rcases List.mem_or_eq_of_mem_set htask with hmem | rfl
        · exact htasks task hmem
        · exact hfine

section

variable {allowed : σ → τ → Prop} {stage : σ → ι → τ → Prop} {apart : ι → ι → Prop}
  {jobs : List ι}

/-- The task whose turn it is has a job. -/
theorem AtStages.job {system : Interleaved σ τ} (h : system.AtStages stage jobs)
    {number : ℕ} {task : τ} (htask : system.tasks[number]? = some task) :
    ∃ job, jobs[number]? = some job ∧ stage system.shared job task := by
  have hbound := (List.getElem?_eq_some_iff.mp htask).1
  rw [h.length] at hbound
  have hjob : jobs[number]? = some jobs[number] := List.getElem?_eq_getElem hbound
  exact ⟨_, hjob, h.stages number _ task hjob htask⟩

theorem AtStages.turn {system : Interleaved σ τ} (h : system.AtStages stage jobs)
    (hrules : StageRules move allowed stage apart)
    (hapart : ∀ (number number' : ℕ) job job', number ≠ number' →
      jobs[number]? = some job → jobs[number']? = some job' → apart job job')
    {number : ℕ} (hallowed : system.Allows allowed number) :
    (system.turn move number).AtStages stage jobs := by
  cases hturn : system.tasks[number]? with
  | none =>
      rw [turn_of_none hturn]
      exact h
  | some task =>
      rw [turn_of_some hturn]
      obtain ⟨job, hjob, hstage⟩ := h.job hturn
      refine ⟨by rw [List.length_set, h.length], ?_⟩
      intro place job' task' hjob' htask'
      by_cases hsame : number = place
      · subst hsame
        rw [List.getElem?_set_self (List.getElem?_eq_some_iff.mp hturn).1] at htask'
        cases htask'
        rw [hjob] at hjob'
        cases hjob'
        exact hrules.own _ _ _ hstage (hallowed task hturn)
      · rw [List.getElem?_set_ne hsame] at htask'
        exact hrules.other _ _ _ _ _ (hapart _ _ _ _ hsame hjob hjob') hstage
          (hallowed task hturn) (h.stages _ _ _ hjob' htask')

end

end Interleaved

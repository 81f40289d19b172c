import Mathlib.Tactic

/-!
# Queues that may refuse

A queue is a list that is added to at its end, by whoever is accepted, and taken from at
its front.  What a program does to its queue by adding is described by a relation that
holds of every accepted addition and can be iterated; that nothing but jobs of one kind
is added and that a bound is kept are two such relations.  A queue that is also taken
from serves its elements in the order in which they came.
-/

namespace Queue

variable {α : Type*}

/-- A relation on queues that every sequence of accepted additions of the kind keeps. -/
structure Rules (accepts : List α → α → Bool) (kind : α → Prop)
    (rel : List α → List α → Prop) : Prop where
  refl : ∀ queue, rel queue queue
  trans : ∀ queue queue' queue'', rel queue queue' → rel queue' queue'' → rel queue queue''
  accepted : ∀ queue job, kind job → accepts queue job = true → rel queue (queue ++ [job])

theorem Rules.of_kind {accepts : List α → α → Bool} {kind kind' : α → Prop}
    {rel : List α → List α → Prop} (h : Rules accepts kind rel)
    (hkind : ∀ job, kind' job → kind job) : Rules accepts kind' rel :=
  ⟨h.refl, h.trans, fun queue job hjob => h.accepted queue job (hkind job hjob)⟩

/-- The queue has more elements at its end, all of one kind. -/
def Enqueues (kind : α → Prop) (queue queue' : List α) : Prop :=
  ∃ added, queue' = queue ++ added ∧ ∀ job ∈ added, kind job

section

variable {kind kind' : α → Prop} {queue queue' queue'' : List α}

theorem Enqueues.refl (queue : List α) : Enqueues kind queue queue :=
  ⟨[], by simp, by simp⟩

theorem Enqueues.trans (h : Enqueues kind queue queue') (h' : Enqueues kind queue' queue'') :
    Enqueues kind queue queue'' := by
  obtain ⟨added, rfl, hadded⟩ := h
  obtain ⟨added', rfl, hadded'⟩ := h'
  refine ⟨added ++ added', by simp, ?_⟩
  intro job hjob
  rcases List.mem_append.mp hjob with hjob | hjob
  · exact hadded job hjob
  · exact hadded' job hjob

theorem Enqueues.mono (h : Enqueues kind queue queue') (hkind : ∀ job, kind job → kind' job) :
    Enqueues kind' queue queue' := by
  obtain ⟨added, hqueue, hadded⟩ := h
  exact ⟨added, hqueue, fun job hjob => hkind job (hadded job hjob)⟩

theorem Enqueues.mem (h : Enqueues kind queue queue') {job : α} (hjob : job ∈ queue') :
    job ∈ queue ∨ kind job := by
  obtain ⟨added, rfl, hadded⟩ := h
  rcases List.mem_append.mp hjob with hold | hnew
  · exact Or.inl hold
  · exact Or.inr (hadded job hnew)

theorem enqueues_rules (accepts : List α → α → Bool) (kind : α → Prop) :
    Rules accepts kind (Enqueues kind) where
  refl := Enqueues.refl
  trans _ _ _ h h' := h.trans h'
  accepted queue job hjob _ := ⟨[job], rfl, by simpa using hjob⟩

end

/-! ## Bounds -/

/-- A queue within the bound stays within it. -/
def StaysWithin (limit : ℕ) (queue queue' : List α) : Prop :=
  queue.length ≤ limit → queue'.length ≤ limit

theorem staysWithin_rules {accepts : List α → α → Bool} {limit : ℕ}
    (hlimit : ∀ queue job, accepts queue job = true → queue.length < limit) :
    Rules accepts (fun _ => True) (StaysWithin limit) where
  refl _ h := h
  trans _ _ _ h h' hqueue := h' (h hqueue)
  accepted queue job _ haccepts _ := by
    have hlt := hlimit queue job haccepts
    simp
    omega

/-! ## Order -/

/-- The elements were taken from the front while others may have been added at the end. -/
def Serves (taken queue queue' : List α) : Prop :=
  ∃ added, queue ++ added = taken ++ queue'

section

variable {taken taken' queue queue' queue'' : List α}

theorem Enqueues.serves {kind : α → Prop} (h : Enqueues kind queue queue') :
    Serves [] queue queue' := by
  obtain ⟨added, rfl, -⟩ := h
  exact ⟨added, rfl⟩

theorem Serves.cons {job : α} (h : Serves [] queue queue') :
    Serves [job] (job :: queue) queue' := by
  obtain ⟨added, hadded⟩ := h
  exact ⟨added, by simpa using hadded⟩

theorem Serves.trans (h : Serves taken queue queue') (h' : Serves taken' queue' queue'') :
    Serves (taken ++ taken') queue queue'' := by
  obtain ⟨added, hadded⟩ := h
  obtain ⟨added', hadded'⟩ := h'
  refine ⟨added ++ added', ?_⟩
  rw [← List.append_assoc, hadded, List.append_assoc, hadded', List.append_assoc]

/-- As many elements as were taken have been served, from the front on. -/
theorem Serves.take_eq (h : Serves taken queue queue') :
    queue.take taken.length = taken.take queue.length := by
  obtain ⟨added, hadded⟩ := h
  have hsame := congrArg (List.take (min queue.length taken.length)) hadded
  rw [List.take_append_of_le_length (min_le_left _ _),
    List.take_append_of_le_length (min_le_right _ _)] at hsame
  rcases le_total queue.length taken.length with hle | hle
  · rw [min_eq_left hle, List.take_length] at hsame
    rw [List.take_of_length_le hle]
    exact hsame
  · rw [min_eq_right hle, List.take_length] at hsame
    rw [hsame, List.take_of_length_le hle]

end

end Queue

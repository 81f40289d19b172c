import JaxFs.ConflictCopies
import JaxFs.Folds

/-!
# The names of conflict copies

`ConflictFile` puts a renamed file where its name says, and looks neither for what is there
already nor for what still comes.  The name ends in a prefix of the content hash, which the
derived default takes to be empty.  Copies stay alone as long as no iteration of the merge
puts one where an operation is, or an operation where one is.
-/

namespace JaxFs

namespace PathOpLog

/-- The report has the operation as renamed. -/
def IsCopy (result : MergeResult) (copy : PathOperation) : Prop :=
  ∃ entry ∈ result.conflictsResolved, ∃ newPath, entry.resolution = .renameIncoming newPath ∧
    copy = { entry.conflict.incoming with path := newPath }

/-- The first operation that conflicts with the incoming `Add` is an `Add` too. -/
def RenamesAdd (log : PathOpLog) (op : PathOperation) : Prop :=
  op.opType = .add ∧ ∃ base, base.opType = .add ∧ log.operations.toList.find?
    (fun existing => operationsConflict existing op) = some base

/-- No operation conflicts with the incoming one, or the first that does is older, and they
are not both an `Add`. -/
def EntersAsIs (log : PathOpLog) (op : PathOperation) : Prop :=
  ∀ base, log.operations.toList.find? (fun existing => operationsConflict existing op) =
    some base → ¬ (base.opType = .add ∧ op.opType = .add) ∧ base.id < op.id

/-- Nothing is at the path where a renamed operation goes, and no copy where another goes. -/
def LeavesAlone (hashLength : ℕ) (state : PathOpLog × MergeResult) (op : PathOperation) : Prop :=
  state.1.IsNew op →
    (RenamesAdd state.1 op →
        ∀ existing ∈ state.1, existing.path ≠ (conflictCopy hashLength op).path) ∧
      (EntersAsIs state.1 op → ∀ copy, IsCopy state.2 copy → copy.path ≠ op.path)

section

variable {hashLength : ℕ} {localPeer : PublicKey} {state : PathOpLog × MergeResult}
  {op : PathOperation}

theorem resolveOperation_of_not_isNew {resolver : ConflictResolver} (hold : ¬ state.1.IsNew op) :
    resolveOperation resolver localPeer state op = state := by
  unfold resolveOperation
  rw [if_pos (by simpa [IsNew] using hold)]

/-- Everything an iteration can do with a new operation under `ConflictFile`. -/
theorem resolveOperation_conflictFile_cases (localPeer : PublicKey) (hnew : state.1.IsNew op) :
    (RenamesAdd state.1 op ∧ ∃ base clock,
      resolveOperation (conflictFile hashLength) localPeer state op =
        (⟨state.1.operations.insert (conflictCopy hashLength op), clock⟩,
          { state.2 with
            operationsAdded := state.2.operationsAdded + 1
            conflictsResolved := state.2.conflictsResolved ++
              [⟨⟨op.path, base, op⟩, .renameIncoming (conflictCopy hashLength op).path⟩] })) ∨
    (EntersAsIs state.1 op ∧ ∃ clock result,
      resolveOperation (conflictFile hashLength) localPeer state op =
        (⟨state.1.operations.insert op, clock⟩, result) ∧
      ∀ copy, IsCopy result copy ↔ IsCopy state.2 copy) ∨
    (¬ RenamesAdd state.1 op ∧ ¬ EntersAsIs state.1 op ∧ ∃ clock result,
      resolveOperation (conflictFile hashLength) localPeer state op =
        (⟨state.1.operations, clock⟩, result) ∧
      ∀ copy, IsCopy result copy ↔ IsCopy state.2 copy) := by
  have hcopies : ∀ (entry : ResolvedConflict) (added : ℕ) copy,
      (∀ newPath, entry.resolution ≠ .renameIncoming newPath) →
      (IsCopy { state.2 with
          operationsAdded := added
          conflictsResolved := state.2.conflictsResolved ++ [entry] } copy ↔
        IsCopy state.2 copy) := by
    intro entry added copy hother
    simp [IsCopy, hother, or_and_right, exists_or]
  rcases resolveOperation_cases (conflictFile hashLength) localPeer state op with
    ⟨hold, -⟩ | ⟨-, hfree, clock, hrun⟩ | ⟨-, base, clock, hfind, hrun⟩
  · exact absurd hnew hold
  · refine Or.inr (Or.inl ⟨?_, clock, _, hrun, fun _ => Iff.rfl⟩)
    intro base hfind
    have hconflict := hfree base (List.mem_of_find?_eq_some hfind)
    rw [show operationsConflict base op = true by simpa using List.find?_some hfind] at hconflict
    contradiction
  · by_cases hadds : base.opType = .add ∧ op.opType = .add
    · rw [conflictFile_of_add hadds.1 hadds.2] at hrun
      exact Or.inl ⟨⟨hadds.2, base, hadds.1, hfind⟩, base, clock, hrun⟩
    · rw [conflictFile_of_not_add (not_and_or.mp hadds)] at hrun
      by_cases hlt : base.id < op.id
      · rw [if_pos hlt] at hrun
        refine Or.inr (Or.inl ⟨?_, clock, _, hrun, fun copy => hcopies _ _ copy nofun⟩)
        intro base' hfind'
        rw [hfind] at hfind'
        cases hfind'
        exact ⟨hadds, hlt⟩
      · rw [if_neg hlt] at hrun
        refine Or.inr (Or.inr ⟨?_, ?_, clock, _, hrun, fun copy => hcopies _ _ copy nofun⟩)
        · rintro ⟨hop, base', hbase', hfind'⟩
          rw [hfind] at hfind'
          cases hfind'
          exact hadds ⟨hbase', hop⟩
        · exact fun henters => hlt (henters base hfind).2

/-- Each copy is in the log, and nothing else is at its path. -/
def CopiesAlone (state : PathOpLog × MergeResult) : Prop :=
  ∀ copy, IsCopy state.2 copy →
    copy ∈ state.1 ∧ ∀ existing ∈ state.1, existing.path = copy.path → existing = copy

theorem isCopy_append_iff {result : MergeResult} {added : ℕ} {base copy : PathOperation} :
    IsCopy { result with
        operationsAdded := added
        conflictsResolved := result.conflictsResolved ++
          [⟨⟨op.path, base, op⟩, .renameIncoming (conflictCopy hashLength op).path⟩] } copy ↔
      IsCopy result copy ∨ copy = conflictCopy hashLength op := by
  simp [IsCopy, or_and_right, exists_or, conflictCopy]

theorem IsCopy.resolveOperation {copy : PathOperation} (h : IsCopy state.2 copy) :
    IsCopy (resolveOperation (conflictFile hashLength) localPeer state op).2 copy := by
  by_cases hnew : state.1.IsNew op
  · rcases @resolveOperation_conflictFile_cases hashLength state op localPeer hnew with
      ⟨-, base, clock, hrun⟩ | ⟨-, clock, result, hrun, hsame⟩ | ⟨-, -, clock, result, hrun, hsame⟩
    · rw [hrun]
      exact isCopy_append_iff.mpr (Or.inl h)
    · rw [hrun]
      exact (hsame copy).mpr h
    · rw [hrun]
      exact (hsame copy).mpr h
  · rw [resolveOperation_of_not_isNew hnew]
    exact h

theorem IsCopy.resolveOperations {copy : PathOperation} (h : IsCopy state.2 copy)
    (ops : List PathOperation) :
    IsCopy (resolveOperations (conflictFile hashLength) localPeer state ops).2 copy := by
  induction ops generalizing state with
  | nil => exact h
  | cons op rest ih => exact ih h.resolveOperation

/-- A copy is put into the log as it is reported. -/
theorem mem_of_isCopy_step (h : ∀ copy, IsCopy state.2 copy → copy ∈ state.1)
    {copy : PathOperation}
    (hcopy : IsCopy (resolveOperation (conflictFile hashLength) localPeer state op).2 copy) :
    copy ∈ (resolveOperation (conflictFile hashLength) localPeer state op).1 := by
  by_cases hnew : state.1.IsNew op
  · rcases @resolveOperation_conflictFile_cases hashLength state op localPeer hnew with
      ⟨-, base, clock, hrun⟩ | ⟨-, clock, result, hrun, hsame⟩ | ⟨-, -, clock, result, hrun, hsame⟩
    · rcases isCopy_append_iff.mp (by rw [hrun] at hcopy; exact hcopy) with hold | rfl
      · exact mem_resolveOperation_of_mem _ _ (h copy hold)
      · rw [hrun]
        exact KeyedMap.mem_insert.mpr (Or.inl rfl)
    · rw [hrun] at hcopy
      exact mem_resolveOperation_of_mem _ _ (h copy ((hsame copy).mp hcopy))
    · rw [hrun] at hcopy
      exact mem_resolveOperation_of_mem _ _ (h copy ((hsame copy).mp hcopy))
  · rw [resolveOperation_of_not_isNew hnew] at hcopy ⊢
    exact h copy hcopy

/-- What an iteration preserves that keeps the copies apart. -/
theorem CopiesAlone.step (h : CopiesAlone state) (hapart : LeavesAlone hashLength state op) :
    CopiesAlone (resolveOperation (conflictFile hashLength) localPeer state op) := by
  intro copy hcopy
  refine ⟨mem_of_isCopy_step (fun _ hold => (h _ hold).1) hcopy, ?_⟩
  intro existing hexisting hpath
  by_cases hnew : state.1.IsNew op
  · obtain ⟨hrenames, henters⟩ := hapart hnew
    rcases @resolveOperation_conflictFile_cases hashLength state op localPeer hnew with
      ⟨hrename, base, clock, hrun⟩ | ⟨henter, clock, result, hrun, hsame⟩ |
        ⟨-, -, clock, result, hrun, hsame⟩
    · rw [hrun] at hcopy hexisting
      have hfree := hrenames hrename
      rcases (KeyedMap.mem_insert.mp hexisting) with rfl | ⟨hold, -⟩
      · rcases isCopy_append_iff.mp hcopy with hearlier | rfl
        · exact absurd hpath.symm (hfree copy (h copy hearlier).1)
        · rfl
      · rcases isCopy_append_iff.mp hcopy with hearlier | rfl
        · exact (h copy hearlier).2 existing hold hpath
        · exact absurd hpath (hfree existing hold)
    · rw [hrun] at hcopy hexisting
      have hearlier := (hsame copy).mp hcopy
      rcases (KeyedMap.mem_insert.mp hexisting) with rfl | ⟨hold, -⟩
      · exact absurd hpath.symm (henters henter copy hearlier)
      · exact (h copy hearlier).2 existing hold hpath
    · rw [hrun] at hcopy hexisting
      exact (h copy ((hsame copy).mp hcopy)).2 existing hexisting hpath
  · rw [resolveOperation_of_not_isNew hnew] at hcopy hexisting
    exact (h copy hcopy).2 existing hexisting hpath

end

section

variable {hashLength : ℕ} {localPeer : PublicKey} {log : PathOpLog}

end

end PathOpLog

end JaxFs

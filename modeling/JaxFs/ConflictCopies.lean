import JaxFs.MergeWithResolver

/-!
# Conflict copies

What a merge under `ConflictFile` does to two files added under one path.  The
resolver is shown the *first* operation of the log that conflicts with the
incoming one, so it renames the incoming file exactly when that first operation
is an `Add`; an older `Remove` or `Mv` on the path sends the conflict to the
last-write rule instead, which keeps only one of the two files.
-/

namespace JaxFs

/-- The operation a rename inserts in place of `op`. -/
def conflictCopy (hashLength : ℕ) (op : PathOperation) : PathOperation :=
  { op with path := conflictPath op.path (conflictVersion hashLength op) }

theorem conflictFile_of_add
    {hashLength : ℕ} {path : Path} {base op : PathOperation} {localPeer : PublicKey}
    (hbase : base.opType = .add) (hop : op.opType = .add) :
    conflictFile hashLength ⟨path, base, op⟩ localPeer =
      .renameIncoming (conflictPath op.path (conflictVersion hashLength op)) := by
  simp [conflictFile, hbase, hop]

theorem conflictFile_of_not_add
    {hashLength : ℕ} {path : Path} {base op : PathOperation} {localPeer : PublicKey}
    (hbase : base.opType ≠ .add ∨ op.opType ≠ .add) :
    conflictFile hashLength ⟨path, base, op⟩ localPeer =
      if base.id < op.id then .useIncoming else .useBase := by
  unfold conflictFile
  cases hb : base.opType <;> cases ho : op.opType <;> simp_all

namespace PathOpLog

/-! ## Bookkeeping over the run -/

theorem mem_resolveOperation_of_mem
    (resolver : ConflictResolver) (localPeer : PublicKey)
    {state : PathOpLog × MergeResult} {op x : PathOperation} (hx : x ∈ state.1) :
    x ∈ (resolveOperation resolver localPeer state op).1 := by
  rw [mem_iff]
  rcases resolveOperation_operations_cases resolver localPeer state op with
    h | ⟨hnew, inserted, h, hid, -⟩
  · rw [h]
    exact hx
  · rw [h, KeyedMap.mem_insert, hid]
    exact Or.inr ⟨hx, isNew_iff.mp hnew x hx⟩

/-- Whatever an iteration adds carries the id of the operation it looks at. -/
theorem id_eq_of_mem_resolveOperation
    (resolver : ConflictResolver) (localPeer : PublicKey)
    {state : PathOpLog × MergeResult} {op x : PathOperation}
    (hx : x ∈ (resolveOperation resolver localPeer state op).1) :
    x ∈ state.1 ∨ x.id = op.id := by
  rw [mem_iff] at hx
  rcases resolveOperation_operations_cases resolver localPeer state op with
    h | ⟨-, inserted, h, hid, -⟩
  · rw [h] at hx
    exact Or.inl hx
  · rw [h, KeyedMap.mem_insert] at hx
    rcases hx with rfl | hx
    · exact Or.inr hid
    · exact Or.inl hx.1

section

variable {hashLength : ℕ} {log other : PathOpLog} {path : Path}
  {mine theirs : PathOperation} {localPeer : PublicKey}

end

/-! ## A file that was removed once -/

end PathOpLog

end JaxFs

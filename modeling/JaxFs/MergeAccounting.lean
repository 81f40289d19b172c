import JaxFs.ConflictCopies
import JaxFs.Folds

/-!
# The accounts of a merge

What a merge reports is what it did, whatever the resolver: the count is the growth of the
log, and an incoming operation that the log lacked is either in the log afterwards, as it was
or under the new path the resolver gave it, or it is the incoming side of one reported
refusal.
-/

namespace JaxFs

namespace PathOpLog

/-- The entry says that the operation was left out. -/
def isRefusal (op : PathOperation) (entry : ResolvedConflict) : Bool :=
  decide (entry.conflict.incoming = op) &&
    (decide (entry.resolution = .useBase) || decide (entry.resolution = .skipBoth))

def refusals (result : MergeResult) (op : PathOperation) : ℕ :=
  result.conflictsResolved.countP (isRefusal op)

/-- The log has the operation, or a copy of it under the path that the resolver gave it. -/
def Takes (resolver : ConflictResolver) (localPeer : PublicKey)
    (state : PathOpLog × MergeResult) (op : PathOperation) : Prop :=
  op ∈ state.1 ∨ ∃ base newPath, resolver ⟨op.path, base, op⟩ localPeer = .renameIncoming newPath ∧
    ⟨⟨op.path, base, op⟩, .renameIncoming newPath⟩ ∈ state.2.conflictsResolved ∧
    { op with path := newPath } ∈ state.1

/-- The log and the report after some incoming operations. -/
structure Accounted (resolver : ConflictResolver) (localPeer : PublicKey) (log : PathOpLog)
    (seen : List PathOperation) (state : PathOpLog × MergeResult) : Prop where
  keeps : ∀ op ∈ log, op ∈ state.1
  size : state.1.operations.toList.length =
    log.operations.toList.length + state.2.operationsAdded
  origin : ∀ op ∈ state.1, op ∈ log ∨ ∃ newcomer ∈ seen, log.IsNew newcomer ∧ op.id = newcomer.id
  settled : ∀ op ∈ seen, log.IsNew op →
    (Takes resolver localPeer state op ∧ refusals state.2 op = 0) ∨
      (state.1.IsNew op ∧ refusals state.2 op = 1)
  reported : ∀ entry ∈ state.2.conflictsResolved, entry.conflict.incoming ∈ seen

section

variable {resolver : ConflictResolver} {localPeer : PublicKey} {log : PathOpLog}
  {seen : List PathOperation} {state : PathOpLog × MergeResult} {op : PathOperation}

theorem accounted_start (resolver : ConflictResolver) (localPeer : PublicKey) (log : PathOpLog) :
    Accounted resolver localPeer log [] (log, MergeResult.new) where
  keeps := fun _ hop => hop
  size := rfl
  origin := fun _ hop => Or.inl hop
  settled := fun _ hop => absurd hop List.not_mem_nil
  reported := fun _ hentry => absurd hentry List.not_mem_nil

theorem Accounted.isNew_iff (h : Accounted resolver localPeer log seen state)
    (hbefore : ∀ earlier ∈ seen, earlier.id < op.id) : state.1.IsNew op ↔ log.IsNew op := by
  apply isNew_iff_of_grown h.keeps
  intro existing hexisting
  rcases h.origin existing hexisting with hold | ⟨newcomer, hnewcomer, -, hid⟩
  · exact Or.inl hold
  · rw [hid]
    exact Or.inr (hbefore newcomer hnewcomer).ne

theorem Accounted.refusals_eq_zero (h : Accounted resolver localPeer log seen state)
    (hbefore : ∀ earlier ∈ seen, earlier.id < op.id) : refusals state.2 op = 0 := by
  rw [refusals, List.countP_eq_zero]
  intro entry hentry hrefusal
  have hincoming : entry.conflict.incoming = op := by
    simp only [isRefusal, Bool.and_eq_true, decide_eq_true_eq] at hrefusal
    exact hrefusal.1
  have hlt := hbefore _ (h.reported entry hentry)
  rw [hincoming] at hlt
  exact lt_irrefl _ hlt

/-- Entries about one operation refuse no other one. -/
theorem countP_isRefusal_of_ne {entries : List ResolvedConflict} {other : PathOperation}
    (hentries : ∀ entry ∈ entries, entry.conflict.incoming = op) (hne : op ≠ other) :
    entries.countP (isRefusal other) = 0 := by
  rw [List.countP_eq_zero]
  intro entry hentry hrefusal
  simp only [isRefusal, Bool.and_eq_true, decide_eq_true_eq] at hrefusal
  exact hne ((hentries entry hentry).symm.trans hrefusal.1)

theorem Accounted.origin_append (h : Accounted resolver localPeer log seen state)
    (op : PathOperation) {existing : PathOperation} (hexisting : existing ∈ state.1) :
    existing ∈ log ∨ ∃ newcomer ∈ seen ++ [op], log.IsNew newcomer ∧ existing.id = newcomer.id := by
  rcases h.origin existing hexisting with hold | ⟨newcomer, hnewcomer, hrest⟩
  · exact Or.inl hold
  · exact Or.inr ⟨newcomer, List.mem_append_left _ hnewcomer, hrest⟩

/-- What was settled before stays so when a later operation enters or is refused. -/
theorem Accounted.settled_before (h : Accounted resolver localPeer log seen state)
    (hbefore : ∀ earlier ∈ seen, earlier.id < op.id) {state' : PathOpLog × MergeResult}
    (hkeeps : ∀ existing ∈ state.1, existing ∈ state'.1)
    (horigin : ∀ existing ∈ state'.1, existing ∈ state.1 ∨ existing.id = op.id)
    {entries : List ResolvedConflict}
    (hresolved : state'.2.conflictsResolved = state.2.conflictsResolved ++ entries)
    (hentries : ∀ entry ∈ entries, entry.conflict.incoming = op) {other : PathOperation}
    (hother : other ∈ seen) (hnew : log.IsNew other) :
    (Takes resolver localPeer state' other ∧ refusals state'.2 other = 0) ∨
      (state'.1.IsNew other ∧ refusals state'.2 other = 1) := by
  have hlt := hbefore other hother
  have hcount : refusals state'.2 other = refusals state.2 other := by
    have hnone := countP_isRefusal_of_ne hentries
      (fun heq => hlt.ne' (congrArg PathOperation.id heq) : op ≠ other)
    rw [refusals, hresolved, List.countP_append, hnone]
    rfl
  rw [hcount]
  rcases h.settled other hother hnew with ⟨htakes, hnone⟩ | ⟨hstill, hone⟩
  · refine Or.inl ⟨?_, hnone⟩
    rcases htakes with hmember | ⟨base, newPath, hdecides, hentry, hcopy⟩
    · exact Or.inl (hkeeps other hmember)
    · refine Or.inr ⟨base, newPath, hdecides, ?_, hkeeps _ hcopy⟩
      rw [hresolved]
      exact List.mem_append_left _ hentry
  · refine Or.inr ⟨(isNew_iff_of_grown hkeeps ?_).mpr hstill, hone⟩
    intro existing hexisting
    refine (horigin existing hexisting).imp_right (fun hid => ?_)
    rw [hid]
    exact hlt.ne'

theorem Accounted.reported_append (h : Accounted resolver localPeer log seen state)
    {result : MergeResult} {entries : List ResolvedConflict}
    (hresolved : result.conflictsResolved = state.2.conflictsResolved ++ entries)
    (hentries : ∀ entry ∈ entries, entry.conflict.incoming = op) :
    ∀ entry ∈ result.conflictsResolved, entry.conflict.incoming ∈ seen ++ [op] := by
  intro entry hentry
  rw [hresolved] at hentry
  rcases List.mem_append.mp hentry with hold | hnow
  · exact List.mem_append_left _ (h.reported entry hold)
  · rw [hentries entry hnow]
    simp

/-- The operation was there already. -/
theorem Accounted.known (h : Accounted resolver localPeer log seen state)
    (hold : ¬ log.IsNew op) : Accounted resolver localPeer log (seen ++ [op]) state where
  keeps := h.keeps
  size := h.size
  origin := fun _ hexisting => h.origin_append op hexisting
  settled := by
    intro other hother hnew
    rcases List.mem_append.mp hother with hseen | hlast
    · exact h.settled other hseen hnew
    · rw [List.mem_singleton.mp hlast] at hnew
      exact absurd hnew hold
  reported := fun entry hentry => List.mem_append_left _ (h.reported entry hentry)

/-- An operation of its id was inserted, and the report grew by entries about it that are no
refusals. -/
theorem Accounted.taken (h : Accounted resolver localPeer log seen state)
    (hbefore : ∀ earlier ∈ seen, earlier.id < op.id) (hnew : log.IsNew op)
    {inserted : PathOperation} (hid : inserted.id = op.id) {clock : ℕ} {result : MergeResult}
    {entries : List ResolvedConflict}
    (hadded : result.operationsAdded = state.2.operationsAdded + 1)
    (hresolved : result.conflictsResolved = state.2.conflictsResolved ++ entries)
    (hentries : ∀ entry ∈ entries, entry.conflict.incoming = op ∧ isRefusal op entry = false)
    (htakes : Takes resolver localPeer (⟨state.1.operations.insert inserted, clock⟩, result) op) :
    Accounted resolver localPeer log (seen ++ [op])
      (⟨state.1.operations.insert inserted, clock⟩, result) := by
  have hfresh : state.1.operations.contains inserted.id = false := by
    rw [hid]
    exact (h.isNew_iff hbefore).mpr hnew
  have hmem : ∀ existing, existing ∈ (⟨state.1.operations.insert inserted, clock⟩ : PathOpLog) ↔
      existing = inserted ∨ existing ∈ state.1 :=
    fun existing => KeyedMap.mem_insert_of_contains_eq_false hfresh
  have hkeeps : ∀ existing ∈ state.1,
      existing ∈ (⟨state.1.operations.insert inserted, clock⟩ : PathOpLog) :=
    fun existing hexisting => (hmem existing).mpr (Or.inr hexisting)
  have habout : ∀ entry ∈ entries, entry.conflict.incoming = op :=
    fun entry hentry => (hentries entry hentry).1
  constructor
  · exact fun existing hexisting => hkeeps existing (h.keeps existing hexisting)
  · have hsize := h.size
    have hlength := KeyedMap.length_insert hfresh
    dsimp only
    omega
  · intro existing hexisting
    rcases (hmem existing).mp hexisting with rfl | hold
    · exact Or.inr ⟨op, by simp, hnew, hid⟩
    · exact h.origin_append op hold
  · intro other hother hotherNew
    rcases List.mem_append.mp hother with hseen | hlast
    · refine h.settled_before hbefore hkeeps ?_ hresolved habout hseen hotherNew
      intro existing hexisting
      rcases (hmem existing).mp hexisting with rfl | hold
      · exact Or.inr hid
      · exact Or.inl hold
    · rw [List.mem_singleton.mp hlast]
      refine Or.inl ⟨htakes, ?_⟩
      have hnone : entries.countP (isRefusal op) = 0 := by
        rw [List.countP_eq_zero]
        intro entry hentry hrefusal
        rw [(hentries entry hentry).2] at hrefusal
        contradiction
      have hzero := h.refusals_eq_zero hbefore
      unfold refusals at hzero ⊢
      rw [hresolved, List.countP_append, hzero, hnone]
  · exact h.reported_append hresolved habout

/-- The operation was left out, with one entry that says so. -/
theorem Accounted.refused (h : Accounted resolver localPeer log seen state)
    (hbefore : ∀ earlier ∈ seen, earlier.id < op.id) (hnew : log.IsNew op) {clock : ℕ}
    {entry : ResolvedConflict} (hincoming : entry.conflict.incoming = op)
    (hrefusal : isRefusal op entry = true) :
    Accounted resolver localPeer log (seen ++ [op])
      (⟨state.1.operations, clock⟩,
        { state.2 with conflictsResolved := state.2.conflictsResolved ++ [entry] }) := by
  have habout : ∀ found ∈ [entry], found.conflict.incoming = op := by
    intro found hfound
    rw [List.mem_singleton.mp hfound, hincoming]
  have hresolved : ({ state.2 with
      conflictsResolved := state.2.conflictsResolved ++ [entry] } : MergeResult).conflictsResolved =
        state.2.conflictsResolved ++ [entry] := rfl
  constructor
  · exact h.keeps
  · exact h.size
  · exact fun _ hexisting => h.origin_append op hexisting
  · intro other hother hotherNew
    rcases List.mem_append.mp hother with hseen | hlast
    · refine h.settled_before hbefore ?_ ?_ hresolved habout hseen hotherNew
      · exact fun _ hexisting => hexisting
      · exact fun _ hexisting => Or.inl hexisting
    · rw [List.mem_singleton.mp hlast]
      have hzero := h.refusals_eq_zero hbefore
      unfold refusals at hzero
      refine Or.inr ⟨(h.isNew_iff hbefore).mpr hnew, ?_⟩
      rw [refusals, List.countP_append, hzero]
      simp [hrefusal]
  · exact h.reported_append hresolved habout

/-- What one incoming operation preserves, for each of the five resolutions. -/
theorem Accounted.step (h : Accounted resolver localPeer log seen state)
    (hbefore : ∀ earlier ∈ seen, earlier.id < op.id) :
    Accounted resolver localPeer log (seen ++ [op])
      (resolveOperation resolver localPeer state op) := by
  have hself : ∀ clock, op ∈ (⟨state.1.operations.insert op, clock⟩ : PathOpLog) :=
    fun _ => KeyedMap.mem_insert.mpr (Or.inl rfl)
  rcases resolveOperation_cases resolver localPeer state op with
    ⟨hold, hrun⟩ | ⟨hnew, -, clock, hrun⟩ | ⟨hnew, base, clock, -, hrun⟩
  · rw [hrun]
    rw [h.isNew_iff hbefore] at hold
    exact h.known hold
  · rw [hrun]
    exact h.taken hbefore ((h.isNew_iff hbefore).mp hnew) rfl rfl (List.append_nil _).symm
      (fun _ hentry => absurd hentry List.not_mem_nil) (Or.inl (hself clock))
  · have hlogNew := (h.isNew_iff hbefore).mp hnew
    rw [hrun]
    cases hresolution : resolver ⟨op.path, base, op⟩ localPeer with
    | useBase => exact h.refused hbefore hlogNew rfl (by simp [isRefusal])
    | skipBoth => exact h.refused hbefore hlogNew rfl (by simp [isRefusal])
    | useIncoming =>
        refine h.taken hbefore hlogNew rfl rfl rfl ?_ (Or.inl (hself clock))
        intro entry hentry
        rw [List.mem_singleton.mp hentry]
        simp [isRefusal]
    | keepBoth =>
        exact h.taken hbefore hlogNew rfl rfl (List.append_nil _).symm
          (fun _ hentry => absurd hentry List.not_mem_nil) (Or.inl (hself clock))
    | renameIncoming newPath =>
        refine @Accounted.taken resolver localPeer log seen state op h hbefore hlogNew
          { op with path := newPath } rfl _ _ _ rfl rfl ?_ ?_
        · intro entry hentry
          rw [List.mem_singleton.mp hentry]
          simp [isRefusal]
        · right
          refine ⟨base, newPath, hresolution, by simp, ?_⟩
          exact KeyedMap.mem_insert.mpr (Or.inl rfl)

end

theorem accounted_mergeWithResolver (log other : PathOpLog) (resolver : ConflictResolver)
    (localPeer : PublicKey) :
    Accounted resolver localPeer log other.operations.toList
      (log.mergeWithResolver other resolver localPeer) :=
  foldl_seen (motive := Accounted resolver localPeer log) other.operations.sorted
    (accounted_start resolver localPeer log)
    (fun _ _ _ _ hbefore hseen => hseen.step hbefore)

/-- The loop over the logs after the first one. -/
theorem foldl_mergeWithResolver_accounts (resolver : ConflictResolver) (localPeer : PublicKey)
    (size : ℕ) (rest : List PathOpLog) (state : PathOpLog × List MergeResult)
    (hstate : state.1.operations.toList.length =
      size + (state.2.map MergeResult.operationsAdded).sum) :
    let merged := rest.foldl (fun state log =>
      let (merged, result) := state.1.mergeWithResolver log resolver localPeer
      (merged, state.2 ++ [result])) state
    merged.2.length = state.2.length + rest.length ∧
      merged.1.operations.toList.length =
        size + (merged.2.map MergeResult.operationsAdded).sum := by
  induction rest generalizing state with
  | nil => exact ⟨rfl, hstate⟩
  | cons log rest ih =>
      have hmerged := (accounted_mergeWithResolver state.1 log resolver localPeer).size
      obtain ⟨hlength, hsize⟩ := ih
        ((state.1.mergeWithResolver log resolver localPeer).1,
          state.2 ++ [(state.1.mergeWithResolver log resolver localPeer).2])
        (by simp only [List.map_append, List.sum_append, List.map_cons, List.map_nil,
              List.sum_singleton]; omega)
      refine ⟨?_, hsize⟩
      rw [List.foldl_cons]
      simp only [List.length_append, List.length_singleton] at hlength
      rw [List.length_cons]
      exact hlength.trans (by omega)

/-- One result for each log but the first, whose growth they report. -/
theorem mergeLogs_accounts (logs : List PathOpLog) (resolver : ConflictResolver)
    (localPeer : PublicKey) :
    (mergeLogs logs resolver localPeer).2.length = logs.length - 1 ∧
      (mergeLogs logs resolver localPeer).1.operations.toList.length =
        ((logs.head?.map (fun first => first.operations.toList.length)).getD 0) +
          ((mergeLogs logs resolver localPeer).2.map MergeResult.operationsAdded).sum := by
  cases logs with
  | nil => exact ⟨rfl, rfl⟩
  | cons first rest =>
      obtain ⟨hlength, hsize⟩ := foldl_mergeWithResolver_accounts resolver localPeer
        first.operations.toList.length rest (first, []) rfl
      exact ⟨hlength.trans (Nat.zero_add _), hsize⟩

/-- Whatever the resolver, a merge keeps the operations of the log and adds as many as it
reports, all under ids of the other log that the log lacked; an operation with such an id is
added, as it is or under the path the resolver gave it, or reported once as left out.  A merge
of many logs has a result for each but the first, and they add up to its growth. -/
theorem merge_accounts (resolver : ConflictResolver) (localPeer : PublicKey) :
    (∀ log other : PathOpLog,
      let merged := log.mergeWithResolver other resolver localPeer
      (∀ op ∈ log, op ∈ merged.1) ∧
        merged.1.operations.toList.length =
          log.operations.toList.length + merged.2.operationsAdded ∧
        (∀ op ∈ merged.1, op ∈ log ∨
          ∃ newcomer ∈ other, log.IsNew newcomer ∧ op.id = newcomer.id) ∧
        ∀ op ∈ other, log.IsNew op →
          (Takes resolver localPeer merged op ∧ refusals merged.2 op = 0) ∨
            (merged.1.IsNew op ∧ refusals merged.2 op = 1)) ∧
      ∀ logs : List PathOpLog,
        (mergeLogs logs resolver localPeer).2.length = logs.length - 1 ∧
          (mergeLogs logs resolver localPeer).1.operations.toList.length =
            ((logs.head?.map (fun first => first.operations.toList.length)).getD 0) +
              ((mergeLogs logs resolver localPeer).2.map MergeResult.operationsAdded).sum := by
  constructor
  · intro log other merged
    have haccounted := accounted_mergeWithResolver log other resolver localPeer
    exact ⟨haccounted.keeps, haccounted.size, haccounted.origin, haccounted.settled⟩
  · exact fun logs => mergeLogs_accounts logs resolver localPeer

end PathOpLog

end JaxFs

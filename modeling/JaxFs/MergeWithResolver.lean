import JaxFs.Conflict

/-!
# Merging with a resolver

`PathOpLog::merge_with_resolver` walks the incoming operations in id order and
searches every one against the log it is building, incoming operations already
inserted included.  The step lemma below says once what one incoming operation
can do; the run lemmas follow by induction on the incoming list.  The first,
collecting loop of the source fills a map that nothing reads and is not
modelled.
-/

namespace JaxFs

namespace PathOpLog

/-- Effect of a resolution on the log and on the report. -/
def applyResolution (operations : KeyedMap PathOperation.id) (clock : ℕ)
    (result : MergeResult) (conflict : Conflict) (resolution : Resolution) :
    PathOpLog × MergeResult :=
  match resolution with
  | .useBase | .skipBoth =>
      (⟨operations, clock⟩,
        { result with
          conflictsResolved :=
            result.conflictsResolved ++ [⟨conflict, resolution⟩] })
  | .useIncoming =>
      (⟨operations.insert conflict.incoming, clock⟩,
        { result with
          operationsAdded := result.operationsAdded + 1
          conflictsResolved :=
            result.conflictsResolved ++ [⟨conflict, resolution⟩] })
  | .keepBoth =>
      (⟨operations.insert conflict.incoming, clock⟩,
        { result with
          operationsAdded := result.operationsAdded + 1
          unresolvedConflicts := result.unresolvedConflicts ++ [conflict] })
  | .renameIncoming newPath =>
      (⟨operations.insert { conflict.incoming with path := newPath }, clock⟩,
        { result with
          operationsAdded := result.operationsAdded + 1
          conflictsResolved :=
            result.conflictsResolved ++ [⟨conflict, resolution⟩] })

/-- One iteration of the processing loop. -/
def resolveOperation (resolver : ConflictResolver) (localPeer : PublicKey)
    (state : PathOpLog × MergeResult) (op : PathOperation) :
    PathOpLog × MergeResult :=
  if state.1.operations.contains op.id then state
  else
    let clock :=
      if state.1.localClock ≤ op.id.timestamp then u64Succ op.id.timestamp
      else state.1.localClock
    match state.1.operations.toList.find?
        (fun existing => operationsConflict existing op) with
    | some base =>
        let conflict : Conflict := ⟨op.path, base, op⟩
        applyResolution state.1.operations clock state.2 conflict
          (resolver conflict localPeer)
    | none =>
        (⟨state.1.operations.insert op, clock⟩,
          { state.2 with operationsAdded := state.2.operationsAdded + 1 })

def resolveOperations (resolver : ConflictResolver) (localPeer : PublicKey)
    (state : PathOpLog × MergeResult) (ops : List PathOperation) :
    PathOpLog × MergeResult :=
  ops.foldl (resolveOperation resolver localPeer) state

@[simp] theorem resolveOperations_cons
    (resolver : ConflictResolver) (localPeer : PublicKey)
    (state : PathOpLog × MergeResult) (op : PathOperation)
    (rest : List PathOperation) :
    resolveOperations resolver localPeer state (op :: rest) =
      resolveOperations resolver localPeer
        (resolveOperation resolver localPeer state op) rest := rfl

theorem resolveOperations_append
    (resolver : ConflictResolver) (localPeer : PublicKey)
    (state : PathOpLog × MergeResult) (ops rest : List PathOperation) :
    resolveOperations resolver localPeer state (ops ++ rest) =
      resolveOperations resolver localPeer
        (resolveOperations resolver localPeer state ops) rest :=
  List.foldl_append

def mergeWithResolver (log other : PathOpLog) (resolver : ConflictResolver)
    (localPeer : PublicKey) : PathOpLog × MergeResult :=
  resolveOperations resolver localPeer (log, MergeResult.new)
    other.operations.toList

/-- `merge_logs`: the first log is the base, the others are merged in turn. -/
def mergeLogs (logs : List PathOpLog) (resolver : ConflictResolver)
    (localPeer : PublicKey) : PathOpLog × List MergeResult :=
  match logs with
  | [] => (PathOpLog.new, [])
  | first :: rest =>
      rest.foldl
        (fun state log =>
          let (merged, result) := state.1.mergeWithResolver log resolver localPeer
          (merged, state.2 ++ [result]))
        (first, [])

/-! ## What one incoming operation can do -/

/-- The log holds no operation with the id of `op`. -/
def IsNew (log : PathOpLog) (op : PathOperation) : Prop :=
  log.operations.contains op.id = false

instance (log : PathOpLog) (op : PathOperation) : Decidable (log.IsNew op) :=
  inferInstanceAs (Decidable (_ = _))

theorem isNew_iff {log : PathOpLog} {op : PathOperation} :
    log.IsNew op ↔ ∀ existing ∈ log, existing.id ≠ op.id := by
  unfold IsNew
  rw [← Bool.not_eq_true, KeyedMap.contains_iff]
  simp [mem_iff]

/-- A log that has only taken in operations of other ids finds the same operations new. -/
theorem isNew_iff_of_grown {base log : PathOpLog} {op : PathOperation}
    (hkeeps : ∀ existing ∈ base, existing ∈ log)
    (horigin : ∀ existing ∈ log, existing ∈ base ∨ existing.id ≠ op.id) :
    log.IsNew op ↔ base.IsNew op := by
  rw [isNew_iff, isNew_iff]
  constructor
  · intro hnew existing hexisting
    exact hnew existing (hkeeps existing hexisting)
  · intro hnew existing hexisting
    rcases horigin existing hexisting with hbase | hother
    · exact hnew existing hbase
    · exact hother

/-- Everything an iteration can do. -/
theorem resolveOperation_cases
    (resolver : ConflictResolver) (localPeer : PublicKey)
    (state : PathOpLog × MergeResult) (op : PathOperation) :
    (¬ state.1.IsNew op ∧
      resolveOperation resolver localPeer state op = state) ∨
    (state.1.IsNew op ∧
      (∀ existing ∈ state.1, operationsConflict existing op = false) ∧
      ∃ clock,
        resolveOperation resolver localPeer state op =
          (⟨state.1.operations.insert op, clock⟩,
            { state.2 with operationsAdded := state.2.operationsAdded + 1 })) ∨
    (state.1.IsNew op ∧
      ∃ base clock,
        state.1.operations.toList.find?
          (fun existing => operationsConflict existing op) = some base ∧
        resolveOperation resolver localPeer state op =
          applyResolution state.1.operations clock state.2 ⟨op.path, base, op⟩
            (resolver ⟨op.path, base, op⟩ localPeer)) := by
  unfold resolveOperation IsNew
  cases hcontains : state.1.operations.contains op.id with
  | true => exact Or.inl ⟨by simp, rfl⟩
  | false =>
      right
      cases hfind : state.1.operations.toList.find?
          (fun existing => operationsConflict existing op) with
      | none =>
          left
          refine ⟨rfl, ?_, _, rfl⟩
          intro existing hexisting
          have h := List.find?_eq_none.mp hfind existing hexisting
          simpa using h
      | some base =>
          right
          exact ⟨rfl, base, _, rfl, rfl⟩

/-- The log after an iteration: as before, or with one operation inserted that
carries the id of `op` and is `op` unless the resolver renamed it. -/
theorem resolveOperation_operations_cases
    (resolver : ConflictResolver) (localPeer : PublicKey)
    (state : PathOpLog × MergeResult) (op : PathOperation) :
    (resolveOperation resolver localPeer state op).1.operations =
        state.1.operations ∨
    (state.1.IsNew op ∧ ∃ inserted,
      (resolveOperation resolver localPeer state op).1.operations =
        state.1.operations.insert inserted ∧ inserted.id = op.id ∧
      (inserted = op ∨ ∃ base newPath,
        state.1.operations.toList.find?
          (fun existing => operationsConflict existing op) = some base ∧
        resolver ⟨op.path, base, op⟩ localPeer = .renameIncoming newPath ∧
        inserted = { op with path := newPath })) := by
  rcases resolveOperation_cases resolver localPeer state op with
    ⟨-, h⟩ | ⟨hnew, -, clock, h⟩ | ⟨hnew, base, clock, hfind, h⟩
  · rw [h]
    exact Or.inl rfl
  · rw [h]
    exact Or.inr ⟨hnew, op, rfl, rfl, Or.inl rfl⟩
  · rw [h]
    cases hresolution : resolver ⟨op.path, base, op⟩ localPeer with
    | useBase => exact Or.inl rfl
    | skipBoth => exact Or.inl rfl
    | useIncoming => exact Or.inr ⟨hnew, op, rfl, rfl, Or.inl rfl⟩
    | keepBoth => exact Or.inr ⟨hnew, op, rfl, rfl, Or.inl rfl⟩
    | renameIncoming newPath =>
        exact Or.inr ⟨hnew, { op with path := newPath }, rfl, rfl,
          Or.inr ⟨base, newPath, hfind, hresolution, rfl⟩⟩

/-- A conflict adds one entry to one of the two lists. -/
theorem totalConflicts_applyResolution
    (operations : KeyedMap PathOperation.id) (clock : ℕ)
    (result : MergeResult) (conflict : Conflict) (resolution : Resolution) :
    (applyResolution operations clock result conflict
        resolution).2.totalConflicts = result.totalConflicts + 1 := by
  unfold applyResolution MergeResult.totalConflicts
  cases resolution <;> simp <;> omega

theorem totalConflicts_le_resolveOperation
    (resolver : ConflictResolver) (localPeer : PublicKey)
    (state : PathOpLog × MergeResult) (op : PathOperation) :
    state.2.totalConflicts ≤
      (resolveOperation resolver localPeer state op).2.totalConflicts := by
  rcases resolveOperation_cases resolver localPeer state op with
    ⟨-, h⟩ | ⟨-, -, clock, h⟩ | ⟨-, base, clock, -, h⟩
  · rw [h]
  · rw [h]
    simp [MergeResult.totalConflicts]
  · rw [h, totalConflicts_applyResolution]
    omega

theorem totalConflicts_le_resolveOperations
    (resolver : ConflictResolver) (localPeer : PublicKey)
    (state : PathOpLog × MergeResult) (ops : List PathOperation) :
    state.2.totalConflicts ≤
      (resolveOperations resolver localPeer state ops).2.totalConflicts := by
  induction ops generalizing state with
  | nil => exact le_rfl
  | cons op rest ih =>
      calc
        state.2.totalConflicts ≤
            (resolveOperation resolver localPeer state op).2.totalConflicts :=
          totalConflicts_le_resolveOperation resolver localPeer state op
        _ ≤ _ := ih (resolveOperation resolver localPeer state op)

/-! ## Runs that report no conflict -/

/-- No incoming operation that is new to the log conflicts with an operation of
the log or with an earlier new one. -/
def NoConflicts (log : PathOpLog) (ops : List PathOperation) : Prop :=
  (∀ op ∈ ops, log.IsNew op →
    ∀ existing ∈ log, operationsConflict existing op = false) ∧
  ops.Pairwise (fun op later => log.IsNew op → log.IsNew later →
    operationsConflict op later = false)

/-- Inserting one new operation does not change which later ones are new. -/
theorem isNew_insert_iff {log : PathOpLog} {op later : PathOperation} {clock : ℕ}
    (hlt : op.id < later.id) :
    IsNew ⟨log.operations.insert op, clock⟩ later ↔ log.IsNew later := by
  rw [isNew_iff, isNew_iff]
  constructor
  · intro h existing hexisting
    by_cases hid : existing.id = op.id
    · rw [hid]
      exact hlt.ne
    · exact h existing (KeyedMap.mem_insert.mpr (Or.inr ⟨hexisting, hid⟩))
  · intro h existing hexisting
    rcases KeyedMap.mem_insert.mp hexisting with rfl | ⟨hexisting, -⟩
    · exact hlt.ne
    · exact h existing hexisting

theorem noConflicts_cons_of_not_isNew
    {log : PathOpLog} {op : PathOperation} {rest : List PathOperation}
    (hold : ¬ log.IsNew op) :
    NoConflicts log (op :: rest) ↔ NoConflicts log rest := by
  unfold NoConflicts
  rw [List.pairwise_cons]
  simp [hold]

theorem noConflicts_cons_of_isNew
    {log : PathOpLog} {op : PathOperation} {rest : List PathOperation} (clock : ℕ)
    (hnew : log.IsNew op) (hsorted : ∀ later ∈ rest, op.id < later.id)
    (hfree : ∀ existing ∈ log, operationsConflict existing op = false) :
    NoConflicts log (op :: rest) ↔
      NoConflicts ⟨log.operations.insert op, clock⟩ rest := by
  have hpairwise :
      rest.Pairwise (fun earlier later => log.IsNew earlier → log.IsNew later →
        operationsConflict earlier later = false) ↔
      rest.Pairwise (fun earlier later =>
        IsNew ⟨log.operations.insert op, clock⟩ earlier →
        IsNew ⟨log.operations.insert op, clock⟩ later →
        operationsConflict earlier later = false) := by
    apply List.Pairwise.iff_of_mem
    intro earlier later hearlier hlater
    rw [isNew_insert_iff (hsorted earlier hearlier),
      isNew_insert_iff (hsorted later hlater)]
  unfold NoConflicts
  rw [List.pairwise_cons, ← hpairwise]
  constructor
  · intro h
    refine ⟨?_, h.2.2⟩
    intro later hlater hlaterNew existing hexisting
    rw [isNew_insert_iff (hsorted later hlater)] at hlaterNew
    rcases KeyedMap.mem_insert.mp hexisting with rfl | ⟨hexisting, -⟩
    · exact h.2.1 later hlater hnew hlaterNew
    · exact h.1 later (List.mem_cons_of_mem _ hlater) hlaterNew existing hexisting
  · intro h
    refine ⟨?_, ?_, h.2⟩
    · intro later hlater hlaterNew existing hexisting
      rcases List.mem_cons.mp hlater with rfl | hlater
      · exact hfree existing hexisting
      · apply h.1 later hlater
        · exact (isNew_insert_iff (hsorted later hlater)).mpr hlaterNew
        · refine KeyedMap.mem_insert.mpr (Or.inr ⟨hexisting, ?_⟩)
          exact isNew_iff.mp hnew existing hexisting
    · intro later hlater _ hlaterNew
      apply h.1 later hlater
      · exact (isNew_insert_iff (hsorted later hlater)).mpr hlaterNew
      · exact KeyedMap.mem_insert.mpr (Or.inl rfl)

/-- The run reports no conflict exactly when there is none to find. -/
theorem totalConflicts_resolveOperations_iff
    (resolver : ConflictResolver) (localPeer : PublicKey)
    (state : PathOpLog × MergeResult) {ops : List PathOperation}
    (hsorted : ops.Pairwise (fun op later => op.id < later.id)) :
    (resolveOperations resolver localPeer state ops).2.totalConflicts =
        state.2.totalConflicts ↔ NoConflicts state.1 ops := by
  induction ops generalizing state with
  | nil => simp [resolveOperations, NoConflicts]
  | cons op rest ih =>
      obtain ⟨hhead, hrest⟩ := List.pairwise_cons.mp hsorted
      rw [resolveOperations_cons]
      rcases resolveOperation_cases resolver localPeer state op with
        ⟨hold, h⟩ | ⟨hnew, hfree, clock, h⟩ | ⟨hnew, base, clock, hfind, h⟩
      · rw [h, noConflicts_cons_of_not_isNew hold]
        exact ih state hrest
      · rw [h, noConflicts_cons_of_isNew clock hnew hhead hfree]
        exact ih _ hrest
      · -- the conflict just reported stays in the report
        have hmono := totalConflicts_le_resolveOperations resolver localPeer
          (resolveOperation resolver localPeer state op) rest
        rw [h, totalConflicts_applyResolution] at hmono
        have hbase : base ∈ state.1 := List.mem_of_find?_eq_some hfind
        have hconflict : operationsConflict base op = true := by
          simpa using List.find?_some hfind
        constructor
        · intro htotal
          rw [h] at htotal
          omega
        · intro hnone
          have hfalse := hnone.1 op List.mem_cons_self hnew base hbase
          rw [hconflict] at hfalse
          contradiction

/-- A run that reports no conflict inserts exactly the new operations. -/
theorem mem_resolveOperations_of_noConflicts
    (resolver : ConflictResolver) (localPeer : PublicKey)
    (state : PathOpLog × MergeResult) {ops : List PathOperation}
    (hsorted : ops.Pairwise (fun op later => op.id < later.id))
    (hnone : NoConflicts state.1 ops) (x : PathOperation) :
    x ∈ (resolveOperations resolver localPeer state ops).1 ↔
      x ∈ state.1 ∨ (x ∈ ops ∧ state.1.IsNew x) := by
  induction ops generalizing state with
  | nil => simp [resolveOperations]
  | cons op rest ih =>
      obtain ⟨hhead, hrest⟩ := List.pairwise_cons.mp hsorted
      rw [resolveOperations_cons, List.mem_cons]
      rcases resolveOperation_cases resolver localPeer state op with
        ⟨hold, h⟩ | ⟨hnew, hfree, clock, h⟩ | ⟨hnew, base, clock, hfind, h⟩
      · rw [h, ih state hrest ((noConflicts_cons_of_not_isNew hold).mp hnone)]
        constructor
        · intro hx
          exact hx.imp id (fun hx => ⟨Or.inr hx.1, hx.2⟩)
        · rintro (hx | ⟨rfl | hx, hxNew⟩)
          · exact Or.inl hx
          · exact absurd hxNew hold
          · exact Or.inr ⟨hx, hxNew⟩
      · rw [h, ih _ hrest
          ((noConflicts_cons_of_isNew clock hnew hhead hfree).mp hnone)]
        have hinsert : x ∈ (⟨state.1.operations.insert op, clock⟩ : PathOpLog) ↔
            x = op ∨ x ∈ state.1 :=
          KeyedMap.mem_insert_of_contains_eq_false hnew
        rw [hinsert]
        constructor
        · rintro ((rfl | hx) | ⟨hx, hxNew⟩)
          · exact Or.inr ⟨Or.inl rfl, hnew⟩
          · exact Or.inl hx
          · rw [isNew_insert_iff (hhead x hx)] at hxNew
            exact Or.inr ⟨Or.inr hx, hxNew⟩
        · rintro (hx | ⟨rfl | hx, hxNew⟩)
          · exact Or.inl (Or.inr hx)
          · exact Or.inl (Or.inl rfl)
          · exact Or.inr ⟨hx, (isNew_insert_iff (hhead x hx)).mpr hxNew⟩
      · have hbase : base ∈ state.1 := List.mem_of_find?_eq_some hfind
        have hconflict : operationsConflict base op = true := by
          simpa using List.find?_some hfind
        rw [hnone.1 op List.mem_cons_self hnew base hbase] at hconflict
        contradiction

/-! ## Incoming logs that avoid the local paths -/

/-- The merge reports nothing, inserts every new operation of `other` as it is,
and leaves each path `other` touches as `other` has it. -/
def MergesCleanly (log other : PathOpLog) (resolver : ConflictResolver)
    (localPeer : PublicKey) : Prop :=
  let merged := log.mergeWithResolver other resolver localPeer
  merged.2.conflictsResolved = [] ∧ merged.2.unresolvedConflicts = [] ∧
  (∀ op ∈ other, log.IsNew op → op ∈ merged.1) ∧
  ∀ op ∈ other, log.IsNew op →
    merged.1.resolvePath op.path = other.resolvePath op.path

theorem noConflicts_iff_of_disjoint {log other : PathOpLog}
    (hdisjoint : ∀ op ∈ other, log.IsNew op →
      ∀ existing ∈ log, existing.path ≠ op.path) :
    NoConflicts log other.operations.toList ↔
      ∀ op ∈ other, ∀ later ∈ other, log.IsNew op → log.IsNew later →
        operationsConflict op later = false := by
  constructor
  · intro hnone op hop later hlater hopNew hlaterNew
    by_cases heq : op = later
    · subst later
      simp [operationsConflict]
    · -- the pairwise statement is about ordered pairs; conflicts are symmetric
      have hsymm : Std.Symm (fun x y : PathOperation =>
          log.IsNew x → log.IsNew y → operationsConflict x y = false) :=
        ⟨fun x y h hy hx => by rw [operationsConflict_comm]; exact h hx hy⟩
      exact hnone.2.forall hop hlater heq hopNew hlaterNew
  · intro hfree
    constructor
    · intro op hop hopNew existing hexisting
      by_contra hconflict
      rw [Bool.not_eq_false] at hconflict
      exact hdisjoint op hop hopNew existing hexisting
        (operationsConflict_path hconflict)
    · apply List.Pairwise.imp_of_mem _ other.operations.sorted
      intro op later hop hlater _ hopNew hlaterNew
      exact hfree op hop later hlater hopNew hlaterNew

/-- When the new operations of `other` avoid every path of the log, the merge is
clean exactly if no two of them conflict with each other and, on every path they
touch, the operation that wins in `other` is itself new.  The second condition
holds whenever the two logs agree on the operations they share. -/
theorem mergesCleanly_iff_of_disjoint_paths
    (log other : PathOpLog) (resolver : ConflictResolver) (localPeer : PublicKey)
    (hdisjoint : ∀ op ∈ other, log.IsNew op →
      ∀ existing ∈ log, existing.path ≠ op.path) :
    MergesCleanly log other resolver localPeer ↔
      (∀ op ∈ other, ∀ later ∈ other, log.IsNew op → log.IsNew later →
        operationsConflict op later = false) ∧
      ∀ op ∈ other, log.IsNew op →
        ∀ winner, other.resolvePath op.path = some winner → log.IsNew winner := by
  have hquiet := totalConflicts_resolveOperations_iff resolver localPeer
    (log, MergeResult.new) other.operations.sorted
  have hmem := mem_resolveOperations_of_noConflicts resolver localPeer
    (log, MergeResult.new) other.operations.sorted
  rw [MergeResult.totalConflicts_new, MergeResult.totalConflicts_eq_zero_iff,
    noConflicts_iff_of_disjoint hdisjoint] at hquiet
  rw [noConflicts_iff_of_disjoint hdisjoint] at hmem
  constructor
  · intro hclean
    obtain ⟨hresolved, hunresolved, -, hwinners⟩ := hclean
    have hfree := hquiet.mp ⟨hresolved, hunresolved⟩
    refine ⟨hfree, ?_⟩
    intro op hop hopNew winner hwinner
    have hmerged := (hwinners op hop hopNew).trans hwinner
    obtain ⟨hwinnerMem, hwinnerPath, -⟩ := resolvePath_eq_some_iff.mp hmerged
    rcases (hmem hfree winner).mp hwinnerMem with hlocal | hincoming
    · exact absurd hwinnerPath (hdisjoint op hop hopNew winner hlocal)
    · exact hincoming.2
  · intro h
    obtain ⟨hfree, hwinners⟩ := h
    obtain ⟨hresolved, hunresolved⟩ := hquiet.mpr hfree
    refine ⟨hresolved, hunresolved, ?_, ?_⟩
    · intro op hop hopNew
      exact (hmem hfree op).mpr (Or.inr ⟨hop, hopNew⟩)
    · intro op hop hopNew
      cases hwinner : other.resolvePath op.path with
      | none => exact absurd rfl (resolvePath_eq_none_iff.mp hwinner op hop)
      | some winner =>
          have hwinnerNew := hwinners op hop hopNew winner hwinner
          obtain ⟨hwinnerMem, hwinnerPath, hmax⟩ :=
            resolvePath_eq_some_iff.mp hwinner
          apply resolvePath_eq_some_iff.mpr
          refine ⟨(hmem hfree winner).mpr (Or.inr ⟨hwinnerMem, hwinnerNew⟩),
            hwinnerPath, ?_⟩
          intro x hx hxPath
          rcases (hmem hfree x).mp hx with hlocal | hincoming
          · exact absurd hxPath (hdisjoint op hop hopNew x hlocal)
          · exact hmax x hincoming.1 hxPath

/-- A file that one peer adds and then removes. -/
def addThenRemove : PathOpLog :=
  let peer : PublicKey := ⟨List.replicate 32 1⟩
  let added := (PathOpLog.new.record peer .add (relPath ["notes".toList])
    (some Link.default) false).2
  (added.record peer .remove (relPath ["notes".toList]) none false).2

theorem addThenRemove_not_mergesCleanly :
    (∀ op ∈ addThenRemove, PathOpLog.new.IsNew op →
      ∀ existing ∈ PathOpLog.new, existing.path ≠ op.path) ∧
    ∀ resolver ∈ builtinResolvers,
      ¬ MergesCleanly PathOpLog.new addThenRemove resolver ⟨List.replicate 32 2⟩ := by
  refine ⟨fun op _ _ existing hexisting => absurd hexisting not_mem_new, ?_⟩
  intro resolver hresolver hclean
  have hconflict : ∀ r ∈ builtinResolvers,
      (PathOpLog.new.mergeWithResolver addThenRemove r
        ⟨List.replicate 32 2⟩).2.totalConflicts = 1 := by
    decide
  have hone := hconflict resolver hresolver
  rw [MergeResult.totalConflicts_eq_zero_iff.mpr ⟨hclean.1, hclean.2.1⟩] at hone
  contradiction

theorem addThenRemove_prefix_mergesCleanly :
    MergesCleanly PathOpLog.new
      (PathOpLog.new.record ⟨List.replicate 32 1⟩ .add (relPath ["notes".toList])
        (some Link.default) false).2 lastWriteWins ⟨List.replicate 32 2⟩ := by
  apply (mergesCleanly_iff_of_disjoint_paths _ _ _ _ ?_).mpr
  · constructor
    · decide
    · decide
  · intro op _ _ existing hexisting
    exact absurd hexisting not_mem_new

end PathOpLog

end JaxFs

import JaxFs.ConflictCopies
import JaxFs.Folds
import JaxFs.Unsigned

/-!
# The clock of an operation log

A log takes its next id from a clock that every merge moves past the operations it
examines, whether it keeps them or not.  The clock is a `u64`: an incoming timestamp at the
top of the range overflows it, at once or at the next record.
-/

namespace JaxFs

namespace PathOpLog

/-! ## What a merge examines -/

/-- The clock, and the numbers that follow the new incoming timestamps. -/
def clockValues (log : PathOpLog) (incoming : List PathOperation) : Set ℕ :=
  insert log.localClock {next | ∃ op ∈ incoming, log.IsNew op ∧ next = op.id.timestamp + 1}

/-- The log after it has examined the incoming operations. -/
structure Examined (log : PathOpLog) (incoming : List PathOperation) (log' : PathOpLog) :
    Prop where
  keeps : ∀ op ∈ log, op ∈ log'
  origin : ∀ op ∈ log', op ∈ log ∨ ∃ newcomer ∈ incoming, log.IsNew newcomer ∧ op.id = newcomer.id
  clock : IsGreatest (clockValues log incoming) log'.localClock

section

variable {log mid log' : PathOpLog} {seen : List PathOperation} {op : PathOperation}

theorem clockValues_nil (log : PathOpLog) : clockValues log [] = {log.localClock} := by
  simp [clockValues]

theorem Examined.refl (log : PathOpLog) : log.Examined [] log := by
  refine ⟨fun op hop => hop, fun op hop => Or.inl hop, ?_⟩
  rw [clockValues_nil]
  exact isGreatest_singleton

/-- Operations of other ids stay as new as they were. -/
theorem Examined.isNew_iff (h : log.Examined seen mid)
    (hbefore : ∀ earlier ∈ seen, earlier.id < op.id) : mid.IsNew op ↔ log.IsNew op := by
  apply isNew_iff_of_grown h.keeps
  intro existing hexisting
  rcases h.origin existing hexisting with hold | ⟨newcomer, hnewcomer, -, hid⟩
  · exact Or.inl hold
  · rw [hid]
    exact Or.inr (hbefore newcomer hnewcomer).ne

theorem Examined.append (h : log.Examined seen mid) (hstep : mid.Examined [op] log')
    (hbefore : ∀ earlier ∈ seen, earlier.id < op.id) : log.Examined (seen ++ [op]) log' := by
  have hnew := h.isNew_iff hbefore
  constructor
  · intro existing hexisting
    exact hstep.keeps existing (h.keeps existing hexisting)
  · intro existing hexisting
    rcases hstep.origin existing hexisting with hmid | ⟨newcomer, hnewcomer, hfresh, hid⟩
    · rcases h.origin existing hmid with hold | ⟨newcomer, hnewcomer, hfresh, hid⟩
      · exact Or.inl hold
      · exact Or.inr ⟨newcomer, List.mem_append_left _ hnewcomer, hfresh, hid⟩
    · rw [List.mem_singleton.mp hnewcomer] at hfresh hid
      exact Or.inr ⟨op, by simp, hnew.mp hfresh, hid⟩
  · have hvalues : clockValues mid [op] =
        insert mid.localClock {next | log.IsNew op ∧ next = op.id.timestamp + 1} := by
      simp [clockValues, hnew]
    have hclock := hstep.clock
    rw [hvalues] at hclock
    constructor
    · rcases hclock.1 with hsame | ⟨hfresh, hnext⟩
      · rw [hsame]
        rcases h.clock.1 with hfirst | ⟨newcomer, hnewcomer, hfresh, hnext⟩
        · exact Or.inl hfirst
        · exact Or.inr ⟨newcomer, List.mem_append_left _ hnewcomer, hfresh, hnext⟩
      · exact Or.inr ⟨op, by simp, hfresh, hnext⟩
    · have hmid : mid.localClock ≤ log'.localClock := hclock.2 (Or.inl rfl)
      rintro next (hfirst | ⟨newcomer, hnewcomer, hfresh, hnext⟩)
      · exact (h.clock.2 (Or.inl hfirst)).trans hmid
      · rcases List.mem_append.mp hnewcomer with hseen | hlast
        · exact (h.clock.2 (Or.inr ⟨newcomer, hseen, hfresh, hnext⟩)).trans hmid
        · rw [List.mem_singleton.mp hlast] at hfresh hnext
          exact hclock.2 (Or.inr ⟨hfresh, hnext⟩)

/-- The clock is not behind what was examined if it was not behind the log. -/
theorem Examined.ahead (h : log.Examined seen log')
    (hahead : ∀ op ∈ log, op.id.timestamp ≤ log.localClock) :
    (∀ op ∈ log', op.id.timestamp ≤ log'.localClock) ∧
      ∀ op ∈ seen, op.id.timestamp ≤ log'.localClock := by
  have hclock : log.localClock ≤ log'.localClock := h.clock.2 (Or.inl rfl)
  have hnewcomer : ∀ op ∈ seen, log.IsNew op → op.id.timestamp < log'.localClock :=
    fun op hop hfresh => h.clock.2 (Or.inr ⟨op, hop, hfresh, rfl⟩)
  constructor
  · intro op hop
    rcases h.origin op hop with hold | ⟨newcomer, hmem, hfresh, hid⟩
    · exact (hahead op hold).trans hclock
    · rw [hid]
      exact (hnewcomer newcomer hmem hfresh).le
  · intro op hop
    by_cases hfresh : log.IsNew op
    · exact (hnewcomer op hop hfresh).le
    · rw [PathOpLog.isNew_iff] at hfresh
      push Not at hfresh
      obtain ⟨existing, hexisting, hid⟩ := hfresh
      rw [← hid]
      exact (hahead existing hexisting).trans hclock

end

/-! ## Builds with overflow checks -/

section

variable (checks : Bool)

/-- The clock moved past a timestamp that it is not ahead of. -/
def advanceClock (clock timestamp : ℕ) : Option ℕ :=
  if clock ≤ timestamp then unsigned checks 64 (timestamp + 1) else some clock

def mergeOperationIn (state : PathOpLog × ℕ) (op : PathOperation) : Option (PathOpLog × ℕ) :=
  if state.1.operations.contains op.id then some state
  else do
    let clock ← advanceClock checks state.1.localClock op.id.timestamp
    some (⟨state.1.operations.insert op, clock⟩, state.2 + 1)

def mergeIn (log other : PathOpLog) : Option (PathOpLog × ℕ) :=
  other.operations.toList.foldlM (mergeOperationIn checks) (log, 0)

def resolveOperationIn (resolver : ConflictResolver) (localPeer : PublicKey)
    (state : PathOpLog × MergeResult) (op : PathOperation) : Option (PathOpLog × MergeResult) :=
  if state.1.operations.contains op.id then some state
  else do
    let clock ← advanceClock checks state.1.localClock op.id.timestamp
    match state.1.operations.toList.find?
        (fun existing => operationsConflict existing op) with
    | some base =>
        let conflict : Conflict := ⟨op.path, base, op⟩
        some (applyResolution state.1.operations clock state.2 conflict
          (resolver conflict localPeer))
    | none =>
        some (⟨state.1.operations.insert op, clock⟩,
          { state.2 with operationsAdded := state.2.operationsAdded + 1 })

def mergeWithResolverIn (log other : PathOpLog) (resolver : ConflictResolver)
    (localPeer : PublicKey) : Option (PathOpLog × MergeResult) :=
  other.operations.toList.foldlM (resolveOperationIn checks resolver localPeer)
    (log, MergeResult.new)

end

/-! ## What the checks let pass -/

section

variable {checks : Bool} {clock timestamp clock' : ℕ} {log : PathOpLog} {op : PathOperation}

theorem advanceClock_false : advanceClock false clock timestamp =
    some (if clock ≤ timestamp then u64Succ timestamp else clock) := by
  unfold advanceClock
  rw [unsigned_false]
  split_ifs <;> rfl

theorem advanceClock_of_true (h : advanceClock true clock timestamp = some clock') :
    advanceClock checks clock timestamp = some clock' := by
  unfold advanceClock at h ⊢
  split_ifs at h ⊢
  · exact unsigned_of_true h
  · exact h

theorem isGreatest_of_advanceClock (h : advanceClock true clock timestamp = some clock') :
    IsGreatest {clock, timestamp + 1} clock' := by
  unfold advanceClock at h
  split_ifs at h with hle
  · obtain ⟨-, rfl⟩ := unsigned_true_eq_some_iff.mp h
    simp [IsGreatest, upperBounds]
    omega
  · cases h
    simp [IsGreatest, upperBounds]
    omega

theorem exists_advanceClock (h : timestamp + 1 < 2 ^ 64) :
    ∃ clock', advanceClock checks clock timestamp = some clock' := by
  unfold advanceClock
  split_ifs
  · exact ⟨_, unsigned_of_lt h⟩
  · exact ⟨_, rfl⟩

theorem Examined.of_known (hold : ¬ log.IsNew op) : log.Examined [op] log := by
  refine ⟨fun existing hexisting => hexisting, fun existing hexisting => Or.inl hexisting, ?_⟩
  simp [clockValues, hold]

theorem Examined.of_new {log' : PathOpLog} (hnew : log.IsNew op)
    (hclock : IsGreatest {log.localClock, op.id.timestamp + 1} log'.localClock)
    (hkeeps : ∀ existing ∈ log, existing ∈ log')
    (horigin : ∀ existing ∈ log', existing ∈ log ∨ existing.id = op.id) :
    log.Examined [op] log' := by
  refine ⟨hkeeps, fun existing hexisting => (horigin existing hexisting).imp_right
    (fun hid => ⟨op, by simp, hnew, hid⟩), ?_⟩
  have hvalues : clockValues log [op] = {log.localClock, op.id.timestamp + 1} := by
    simp [clockValues, hnew]
  rw [hvalues]
  exact hclock

end

/-! ## One incoming operation -/

/-- A step with checks examines the operation, and it goes through unless the successor of a
new timestamp is too large. -/
structure Examines {β : Type} (step : PathOpLog × β → PathOperation → Option (PathOpLog × β)) :
    Prop where
  examined : ∀ state op state', step state op = some state' → state.1.Examined [op] state'.1
  goesThrough : ∀ state op, (state.1.IsNew op → op.id.timestamp + 1 < 2 ^ 64) →
    ∃ state', step state op = some state'

theorem examines_mergeOperationIn : Examines (mergeOperationIn true) := by
  constructor
  · intro state op state' h
    unfold mergeOperationIn at h
    by_cases hknown : state.1.operations.contains op.id = true
    · rw [if_pos hknown] at h
      cases h
      exact Examined.of_known (by simpa [IsNew] using hknown)
    · rw [if_neg hknown] at h
      have hnew : state.1.IsNew op := Bool.eq_false_of_not_eq_true hknown
      obtain ⟨clock, hclock, h⟩ := Option.bind_eq_some_iff.mp h
      cases h
      apply Examined.of_new hnew (isGreatest_of_advanceClock hclock)
      · intro existing hexisting
        exact (KeyedMap.mem_insert_of_contains_eq_false hnew).mpr (Or.inr hexisting)
      · intro existing hexisting
        rcases (KeyedMap.mem_insert_of_contains_eq_false hnew).mp hexisting with rfl | hold
        · exact Or.inr rfl
        · exact Or.inl hold
  · intro state op hroom
    unfold mergeOperationIn
    by_cases hknown : state.1.operations.contains op.id = true
    · rw [if_pos hknown]
      exact ⟨state, rfl⟩
    · rw [if_neg hknown]
      obtain ⟨clock, hclock⟩ := @exists_advanceClock true state.1.localClock _
        (hroom (Bool.eq_false_of_not_eq_true hknown))
      rw [hclock]
      exact ⟨_, rfl⟩

theorem mergeOperationIn_false (state : PathOpLog × ℕ) (op : PathOperation) :
    mergeOperationIn false state op = some (mergeOperation state op) := by
  unfold mergeOperationIn mergeOperation
  rw [advanceClock_false]
  split_ifs <;> rfl

theorem mergeOperationIn_of_true {checks : Bool} (state : PathOpLog × ℕ) (op : PathOperation)
    (state' : PathOpLog × ℕ) (h : mergeOperationIn true state op = some state') :
    mergeOperationIn checks state op = some state' := by
  unfold mergeOperationIn at h ⊢
  split_ifs at h ⊢
  · exact h
  · obtain ⟨clock, hclock, h⟩ := Option.bind_eq_some_iff.mp h
    rw [advanceClock_of_true hclock]
    exact h

theorem localClock_applyResolution (operations : KeyedMap PathOperation.id) (clock : ℕ)
    (result : MergeResult) (conflict : Conflict) (resolution : Resolution) :
    (applyResolution operations clock result conflict resolution).1.localClock = clock := by
  cases resolution <;> rfl

section

variable (resolver : ConflictResolver) (localPeer : PublicKey)

theorem resolveOperationIn_false (state : PathOpLog × MergeResult) (op : PathOperation) :
    resolveOperationIn false resolver localPeer state op =
      some (resolveOperation resolver localPeer state op) := by
  unfold resolveOperationIn resolveOperation
  rw [advanceClock_false]
  split_ifs
  · rfl
  · cases state.1.operations.toList.find? (fun existing => operationsConflict existing op) <;> rfl
  · cases state.1.operations.toList.find? (fun existing => operationsConflict existing op) <;> rfl

theorem resolveOperationIn_of_true {checks : Bool} (state : PathOpLog × MergeResult)
    (op : PathOperation) (state' : PathOpLog × MergeResult)
    (h : resolveOperationIn true resolver localPeer state op = some state') :
    resolveOperationIn checks resolver localPeer state op = some state' := by
  unfold resolveOperationIn at h ⊢
  split_ifs at h ⊢
  · exact h
  · obtain ⟨clock, hclock, h⟩ := Option.bind_eq_some_iff.mp h
    rw [advanceClock_of_true hclock]
    exact h

theorem examines_resolveOperationIn : Examines (resolveOperationIn true resolver localPeer) := by
  constructor
  · intro state op state' h
    have hsame : resolveOperation resolver localPeer state op = state' := by
      have hunchecked := @resolveOperationIn_of_true resolver localPeer false _ _ _ h
      rw [resolveOperationIn_false] at hunchecked
      exact Option.some.inj hunchecked
    unfold resolveOperationIn at h
    by_cases hknown : state.1.operations.contains op.id = true
    · rw [if_pos hknown] at h
      cases h
      exact Examined.of_known (by simpa [IsNew] using hknown)
    · rw [if_neg hknown] at h
      obtain ⟨clock, hclock, h⟩ := Option.bind_eq_some_iff.mp h
      have hstate : state'.1.localClock = clock := by
        split at h
        · cases h
          exact localClock_applyResolution _ _ _ _ _
        · cases h
          rfl
      apply Examined.of_new (Bool.eq_false_of_not_eq_true hknown)
      · rw [hstate]
        exact isGreatest_of_advanceClock hclock
      · intro existing hexisting
        rw [← hsame]
        exact mem_resolveOperation_of_mem resolver localPeer hexisting
      · intro existing hexisting
        rw [← hsame] at hexisting
        exact id_eq_of_mem_resolveOperation resolver localPeer hexisting
  · intro state op hroom
    unfold resolveOperationIn
    by_cases hknown : state.1.operations.contains op.id = true
    · rw [if_pos hknown]
      exact ⟨state, rfl⟩
    · rw [if_neg hknown]
      obtain ⟨clock, hclock⟩ := @exists_advanceClock true state.1.localClock _
        (hroom (Bool.eq_false_of_not_eq_true hknown))
      rw [hclock]
      cases hbase : state.1.operations.toList.find?
          (fun existing => operationsConflict existing op) with
      | none => exact ⟨_, rfl⟩
      | some base => exact ⟨_, rfl⟩

end

/-! ## Whole merges -/

section

variable {β : Type} {step : PathOpLog × β → PathOperation → Option (PathOpLog × β)}
  {start result : PathOpLog × β} {other : PathOpLog}

theorem Examines.examined_foldlM (h : Examines step)
    (hresult : other.operations.toList.foldlM step start = some result) :
    start.1.Examined other.operations.toList result.1 :=
  foldlM_seen (motive := fun seen state => start.1.Examined seen state.1)
    other.operations.sorted (Examined.refl start.1)
    (fun _ op state state' _ hbefore hseen hstep =>
      hseen.append (h.examined state op state' hstep) hbefore) hresult

theorem Examines.exists_foldlM (h : Examines step)
    (hroom : ∀ op ∈ other, start.1.IsNew op → op.id.timestamp + 1 < 2 ^ 64) :
    ∃ result, other.operations.toList.foldlM step start = some result := by
  have hrun : ∃ result, other.operations.toList.foldlM step start = some result ∧
      start.1.Examined other.operations.toList result.1 := by
    apply exists_foldlM_seen
      (motive := fun seen (state : PathOpLog × β) => start.1.Examined seen state.1)
      other.operations.sorted (Examined.refl start.1)
    intro seen op state hop hbefore hseen
    obtain ⟨state', hstep⟩ := h.goesThrough state op
      (fun hnew => hroom op hop ((hseen.isNew_iff hbefore).mp hnew))
    exact ⟨state', hstep, hseen.append (h.examined state op state' hstep) hbefore⟩
  exact hrun.imp (fun _ hresult => hresult.1)

end

theorem mergeIn_false (log other : PathOpLog) :
    mergeIn false log other = some (log.merge other) := by
  unfold mergeIn merge
  rw [funext₂ mergeOperationIn_false]
  exact List.foldlM_pure

theorem mergeWithResolverIn_false (log other : PathOpLog) (resolver : ConflictResolver)
    (localPeer : PublicKey) : mergeWithResolverIn false log other resolver localPeer =
      some (log.mergeWithResolver other resolver localPeer) := by
  unfold mergeWithResolverIn mergeWithResolver
  rw [funext₂ (resolveOperationIn_false resolver localPeer)]
  exact List.foldlM_pure

/-- Where nothing overflows, the two builds merge alike. -/
theorem mergeIn_of_true {checks : Bool} {log other : PathOpLog} {merged : PathOpLog × ℕ}
    (h : mergeIn true log other = some merged) : mergeIn checks log other = some merged :=
  foldlM_mono mergeOperationIn_of_true h

theorem mergeWithResolverIn_of_true {checks : Bool} {log other : PathOpLog}
    {resolver : ConflictResolver} {localPeer : PublicKey} {merged : PathOpLog × MergeResult}
    (h : mergeWithResolverIn true log other resolver localPeer = some merged) :
    mergeWithResolverIn checks log other resolver localPeer = some merged :=
  foldlM_mono (resolveOperationIn_of_true resolver localPeer) h

/-! ## A record after a merge -/

section

variable {peerId : PublicKey} {opType : OpType} {path : Path} {contentLink : Option Link}
  {isDir : Bool}

/-- There is a number after the clock and after those that follow the new timestamps, and
the peer has not used it yet. -/
def LeavesRoom (log : PathOpLog) (incoming : List PathOperation) (peerId : PublicKey) : Prop :=
  (∀ value ∈ clockValues log incoming, value + 1 < 2 ^ 64) ∧
    ∀ value, IsGreatest (clockValues log incoming) value →
      ∀ op ∈ log, op.id ≠ ⟨value + 1, peerId⟩

/-- A clock that is not behind its log is not caught up by a number it comes to. -/
theorem leavesRoom_iff_of_ahead {log : PathOpLog} {incoming : List PathOperation}
    (hahead : ∀ op ∈ log, op.id.timestamp ≤ log.localClock) :
    LeavesRoom log incoming peerId ↔
      ∀ value ∈ clockValues log incoming, value + 1 < 2 ^ 64 := by
  constructor
  · exact fun h => h.1
  · intro hroom
    refine ⟨hroom, ?_⟩
    intro value hgreatest op hop hid
    have hle := hahead op hop
    have hclock := hgreatest.2 (Or.inl rfl)
    rw [hid] at hle
    dsimp only at hle
    omega

end

/-- The calls that change a log or make a new one. -/
inductive LogAction where
  | record (peerId : PublicKey) (opType : OpType) (path : Path) (contentLink : Option Link)
      (isDir : Bool)
  | merge (other : PathOpLog)
  | mergeWithResolver (other : PathOpLog) (resolver : ConflictResolver) (localPeer : PublicKey)
  | clearPreservingClock
  | fromOperation (op : PathOperation)
  /-- A decoded log has no clock until `rebuild_clock`. -/
  | decode (operations : KeyedMap PathOperation.id)

def LogAction.incoming : LogAction → List PathOperation
  | .record .. => []
  | .merge other => other.operations.toList
  | .mergeWithResolver other _ _ => other.operations.toList
  | .clearPreservingClock => []
  | .fromOperation op => [op]
  | .decode operations => operations.toList

/-- A log, and the incoming operations that it has examined since it was made. -/
structure LogHistory where
  log : PathOpLog
  examined : List PathOperation

namespace LogHistory

def new : LogHistory := ⟨PathOpLog.new, []⟩

def step (history : LogHistory) : LogAction → LogHistory
  | .record peerId opType path contentLink isDir =>
      { history with log := (history.log.record peerId opType path contentLink isDir).2 }
  | .merge other =>
      ⟨(history.log.merge other).1, history.examined ++ other.operations.toList⟩
  | .mergeWithResolver other resolver localPeer =>
      ⟨(history.log.mergeWithResolver other resolver localPeer).1,
        history.examined ++ other.operations.toList⟩
  | .clearPreservingClock => { history with log := history.log.clearPreservingClock }
  | .fromOperation op => ⟨PathOpLog.fromOperation op, [op]⟩
  | .decode operations => ⟨rebuildClock ⟨operations, 0⟩, operations.toList⟩

def run (history : LogHistory) (actions : List LogAction) : LogHistory :=
  actions.foldl step history

/-- The timestamps of the incoming operations and of the log are below the bound, at every
call. -/
def StaysBelow (bound : ℕ) (history : LogHistory) : List LogAction → Prop
  | [] => True
  | action :: rest =>
      (∀ op ∈ action.incoming, op.id.timestamp < bound) ∧
        (∀ op ∈ (history.step action).log, op.id.timestamp < bound) ∧
        StaysBelow bound (history.step action) rest

/-- The clock is not behind anything that the log has or has examined. -/
structure Fresh (history : LogHistory) : Prop where
  ahead : ∀ op ∈ history.log, op.id.timestamp ≤ history.log.localClock
  examined : ∀ op ∈ history.examined, op.id.timestamp ≤ history.log.localClock
  bound : history.log.localClock ≤ 2 ^ 64 - 2

theorem Fresh.of_examined {history : LogHistory} (h : history.Fresh)
    {incoming : List PathOperation} {log : PathOpLog}
    (hexamined : history.log.Examined incoming log)
    (hincoming : ∀ op ∈ incoming, op.id.timestamp < 2 ^ 64 - 2) :
    Fresh ⟨log, history.examined ++ incoming⟩ := by
  obtain ⟨hahead, hseen⟩ := hexamined.ahead h.ahead
  refine ⟨hahead, ?_, ?_⟩
  · intro op hop
    rcases List.mem_append.mp hop with hbefore | hnow
    · exact (h.examined op hbefore).trans (hexamined.clock.2 (Or.inl rfl))
    · exact hseen op hnow
  · rcases hexamined.clock.1 with hsame | ⟨op, hop, -, hnext⟩
    · dsimp only
      rw [hsame]
      exact h.bound
    · have hlt := hincoming op hop
      dsimp only
      omega

/-- What a call preserves. -/
theorem Fresh.step {history : LogHistory} (h : history.Fresh) (action : LogAction)
    (hincoming : ∀ op ∈ action.incoming, op.id.timestamp < 2 ^ 64 - 2)
    (hafter : ∀ op ∈ (history.step action).log, op.id.timestamp < 2 ^ 64 - 2) :
    (history.step action).Fresh := by
  have hbound := h.bound
  have hroom : ∀ op ∈ action.incoming, history.log.IsNew op → op.id.timestamp + 1 < 2 ^ 64 := by
    intro op hop _
    have hlt := hincoming op hop
    omega
  cases action with
  | record peerId opType path contentLink isDir =>
      have hclock : u64Succ history.log.localClock = history.log.localClock + 1 :=
        u64Succ_of_lt (by omega)
      have hlt := hafter _ (KeyedMap.mem_insert.mpr (Or.inl rfl))
      refine ⟨?_, ?_, hlt.le⟩
      · intro op hop
        rcases KeyedMap.mem_insert.mp hop with rfl | ⟨hold, -⟩
        · exact le_rfl
        · exact (h.ahead op hold).trans (by
            change _ ≤ u64Succ history.log.localClock
            omega)
      · intro op hop
        exact (h.examined op hop).trans (by
          change _ ≤ u64Succ history.log.localClock
          omega)
  | merge other =>
      obtain ⟨merged, hmerged⟩ :=
        @Examines.exists_foldlM _ _ (history.log, 0) other examines_mergeOperationIn hroom
      have hsame : history.log.merge other = merged := by
        have hunchecked := @mergeIn_of_true false _ _ _ hmerged
        rw [mergeIn_false] at hunchecked
        exact Option.some.inj hunchecked
      have hexamined := examines_mergeOperationIn.examined_foldlM hmerged
      rw [← hsame] at hexamined
      exact h.of_examined hexamined hincoming
  | mergeWithResolver other resolver localPeer =>
      have hexamines := examines_resolveOperationIn resolver localPeer
      obtain ⟨merged, hmerged⟩ :=
        @Examines.exists_foldlM _ _ (history.log, MergeResult.new) other hexamines hroom
      have hsame : history.log.mergeWithResolver other resolver localPeer = merged := by
        have hunchecked := @mergeWithResolverIn_of_true false _ _ _ _ _ hmerged
        rw [mergeWithResolverIn_false] at hunchecked
        exact Option.some.inj hunchecked
      have hexamined := hexamines.examined_foldlM hmerged
      rw [← hsame] at hexamined
      exact h.of_examined hexamined hincoming
  | clearPreservingClock =>
      exact ⟨fun op hop => absurd hop not_mem_clearPreservingClock, h.examined, h.bound⟩
  | fromOperation op =>
      have hlt := hincoming op (List.mem_singleton.mpr rfl)
      refine ⟨?_, ?_, hlt.le⟩
      · intro existing hexisting
        rw [mem_fromOperation.mp hexisting]
        exact le_rfl
      · intro existing hexisting
        rw [List.mem_singleton.mp hexisting]
        exact le_rfl
  | decode operations =>
      have hahead : ∀ op ∈ operations.toList,
          op.id.timestamp ≤ (rebuildClock ⟨operations, 0⟩).localClock := by
        intro op hop
        exact le_foldl_max (Or.inl (List.mem_map.mpr ⟨op, hop, rfl⟩))
      refine ⟨hahead, hahead, foldl_max_le (Nat.zero_le _) ?_⟩
      intro value hvalue
      obtain ⟨op, hop, rfl⟩ := List.mem_map.mp hvalue
      exact (hincoming op hop).le

/-- What a run preserves. -/
theorem Fresh.run {history : LogHistory} (h : history.Fresh) {actions : List LogAction}
    (hbelow : history.StaysBelow (2 ^ 64 - 2) actions) : (history.run actions).Fresh := by
  induction actions generalizing history with
  | nil => exact h
  | cons action rest ih =>
      obtain ⟨hincoming, hafter, hrest⟩ := hbelow
      exact ih (h.step action hincoming hafter) hrest

end LogHistory

end PathOpLog

end JaxFs

import JaxFs.LogJoin
import JaxFs.Runs

/-!
# Replicas that exchange their logs

Any number of peers, each with one log in which it records under its own key.  A
log that is sent stays available, so that it can arrive late, twice or never.  Two
replicas that know an id must know the same operation under it, since merges skip
the ids they know.  The renaming of `ConflictFile` breaks this: the renamed
operation keeps its id.
-/

namespace JaxFs

open PathOpLog

/-! ## The system -/

/-- The strategies of the crate, `ConflictFile` with any length. -/
inductive BuiltinResolver where
  | lastWriteWins
  | baseWins
  | forkOnConflict
  | conflictFile (hashLength : ℕ)

def BuiltinResolver.resolve : BuiltinResolver → ConflictResolver
  | .lastWriteWins => JaxFs.lastWriteWins
  | .baseWins => JaxFs.baseWins
  | .forkOnConflict => JaxFs.forkOnConflict
  | .conflictFile hashLength => JaxFs.conflictFile hashLength

structure Replicas where
  logs : PublicKey → PathOpLog
  sent : List PathOpLog

inductive ReplicaAction where
  | record (peer : PublicKey) (opType : OpType) (path : Path) (contentLink : Option Link)
      (isDir : Bool)
  | send (peer : PublicKey)
  | merge (peer : PublicKey) (message : ℕ)
  | mergeWithResolver (peer : PublicKey) (message : ℕ) (resolver : BuiltinResolver)

namespace Replicas

def initial : Replicas := ⟨fun _ => PathOpLog.new, []⟩

def setLog (state : Replicas) (peer : PublicKey) (log : PathOpLog) : Replicas :=
  { state with logs := Function.update state.logs peer log }

/-- One action; a message that was not sent is not received. -/
def step (state : Replicas) : ReplicaAction → Replicas
  | .record peer opType path contentLink isDir =>
      state.setLog peer
        ((state.logs peer).record peer opType path contentLink isDir).2
  | .send peer => { state with sent := state.sent ++ [state.logs peer] }
  | .merge peer message =>
      match state.sent[message]? with
      | some log => state.setLog peer ((state.logs peer).merge log).1
      | none => state
  | .mergeWithResolver peer message resolver =>
      match state.sent[message]? with
      | some log => state.setLog peer
          ((state.logs peer).mergeWithResolver log resolver.resolve peer).1
      | none => state

def run (state : Replicas) (actions : List ReplicaAction) : Replicas :=
  actions.foldl step state

/-- A log that a replica has or that is on its way. -/
def Holds (state : Replicas) (log : PathOpLog) : Prop :=
  (∃ peer, state.logs peer = log) ∨ log ∈ state.sent

/-- Ids identify operations across all logs, and no clock is behind an operation of
its peer. -/
structure Consistent (state : Replicas) : Prop where
  agree : ∀ log other, state.Holds log → state.Holds other → Agree log other
  clock : ∀ log, state.Holds log → ∀ op ∈ log,
    op.id.timestamp ≤ (state.logs op.id.peerId).localClock

theorem consistent_initial : Consistent initial := by
  have hempty : ∀ log, initial.Holds log → log = PathOpLog.new := by
    intro log hlog
    rcases hlog with ⟨peer, rfl⟩ | hsent
    · rfl
    · exact absurd hsent List.not_mem_nil
  constructor
  · intro log other hlog hother op hop
    rw [hempty log hlog] at hop
    exact absurd hop not_mem_new
  · intro log hlog op hop
    rw [hempty log hlog] at hop
    exact absurd hop not_mem_new

end Replicas

/-! ## Merges of one log -/

namespace PathOpLog

/-- An incoming operation is renamed when it is its turn. -/
def Renames (resolver : ConflictResolver) (localPeer : PublicKey) (log other : PathOpLog) :
    Prop :=
  ∃ before op after, other.operations.toList = before ++ op :: after ∧
    (resolveOperations resolver localPeer (log, MergeResult.new) before).1.IsNew op ∧
    ∃ base newPath,
      (resolveOperations resolver localPeer (log, MergeResult.new)
        before).1.operations.toList.find? (fun existing => operationsConflict existing op) =
          some base ∧
      resolver ⟨op.path, base, op⟩ localPeer = .renameIncoming newPath

/-- The operations of the log stem from the two logs, and its clock has not gone
back. -/
structure Extends (log other merged : PathOpLog) : Prop where
  sources : ∀ op ∈ merged, op ∈ log ∨ op ∈ other
  clock : log.localClock ≤ merged.localClock

theorem clock_le_mergeOperation {state : PathOpLog × ℕ} {op : PathOperation}
    (hop : op.id.timestamp + 1 < 2 ^ 64) :
    state.1.localClock ≤ (mergeOperation state op).1.localClock := by
  unfold mergeOperation
  by_cases hknown : state.1.operations.contains op.id = true
  · rw [if_pos hknown]
  · rw [if_neg hknown]
    dsimp only
    split_ifs with hclock
    · rw [u64Succ_of_lt hop]
      omega
    · exact le_rfl

theorem extends_merge {log other : PathOpLog}
    (hbound : ∀ op ∈ other, op.id.timestamp + 1 < 2 ^ 64) :
    Extends log other (log.merge other).1 := by
  constructor
  · intro op hop
    rcases mem_merge.mp hop with hold | ⟨hother, -⟩
    · exact Or.inl hold
    · exact Or.inr hother
  · unfold merge
    have hfold : ∀ (incoming : List PathOperation),
        (∀ op ∈ incoming, op.id.timestamp + 1 < 2 ^ 64) → ∀ state : PathOpLog × ℕ,
        state.1.localClock ≤ (incoming.foldl mergeOperation state).1.localClock := by
      intro incoming
      induction incoming with
      | nil => exact fun _ _ => le_rfl
      | cons first rest ih =>
          intro hall state
          have hfirst := @clock_le_mergeOperation state first (hall first List.mem_cons_self)
          have hrest := ih (fun op hop => hall op (List.mem_cons_of_mem _ hop))
            (mergeOperation state first)
          exact hfirst.trans hrest
    exact hfold other.operations.toList hbound (log, 0)

theorem clock_le_resolveOperation (resolver : ConflictResolver) (localPeer : PublicKey)
    {state : PathOpLog × MergeResult} {op : PathOperation}
    (hop : op.id.timestamp + 1 < 2 ^ 64) :
    state.1.localClock ≤ (resolveOperation resolver localPeer state op).1.localClock := by
  have hclock : state.1.localClock ≤
      if state.1.localClock ≤ op.id.timestamp then u64Succ op.id.timestamp
      else state.1.localClock := by
    split_ifs with hle
    · rw [u64Succ_of_lt hop]
      omega
    · exact le_rfl
  unfold resolveOperation
  by_cases hknown : state.1.operations.contains op.id = true
  · rw [if_pos hknown]
  · rw [if_neg hknown]
    dsimp only
    cases state.1.operations.toList.find?
        (fun existing => operationsConflict existing op) with
    | none => exact hclock
    | some base =>
        dsimp only
        unfold applyResolution
        cases resolver ⟨op.path, base, op⟩ localPeer with
        | _ => exact hclock

theorem extends_mergeWithResolver {resolver : ConflictResolver} {localPeer : PublicKey}
    {log other : PathOpLog} (hbound : ∀ op ∈ other, op.id.timestamp + 1 < 2 ^ 64)
    (hkeeps : ¬ Renames resolver localPeer log other) :
    Extends log other (log.mergeWithResolver other resolver localPeer).1 := by
  unfold mergeWithResolver
  -- the operations that have had their turn, and those that have not
  have hrun : ∀ before after, other.operations.toList = before ++ after →
      Extends log other (resolveOperations resolver localPeer (log, MergeResult.new)
        before).1 := by
    intro before
    induction before using List.reverseRecOn with
    | nil => exact fun _ _ => ⟨fun _ hop => Or.inl hop, le_rfl⟩
    | append_singleton before op ih =>
        intro after hsplit
        rw [List.append_assoc, List.singleton_append] at hsplit
        have hbefore := ih (op :: after) hsplit
        have hop : op ∈ other := by
          change op ∈ other.operations.toList
          rw [hsplit]
          simp
        rw [resolveOperations_append]
        change Extends log other (resolveOperation resolver localPeer
          (resolveOperations resolver localPeer (log, MergeResult.new) before) op).1
        refine ⟨?_, hbefore.clock.trans
          (clock_le_resolveOperation resolver localPeer (hbound op hop))⟩
        intro x hx
        rw [mem_iff] at hx
        rcases resolveOperation_operations_cases resolver localPeer
          (resolveOperations resolver localPeer (log, MergeResult.new) before) op with
          hsame | ⟨hnew, inserted, hinserted, -, horigin⟩
        · rw [hsame] at hx
          exact hbefore.sources x hx
        · rw [hinserted] at hx
          rcases KeyedMap.mem_insert.mp hx with rfl | ⟨hold, -⟩
          · rcases horigin with rfl | ⟨base, newPath, hfind, hrename, -⟩
            · exact Or.inr hop
            · exact absurd ⟨before, op, after, hsplit, hnew, base, newPath, hfind, hrename⟩
                hkeeps
          · exact hbefore.sources x hold
  exact hrun other.operations.toList [] (by simp)

/-- Only `ConflictFile` renames. -/
theorem not_renames {resolver : BuiltinResolver}
    (hresolver : ∀ hashLength, resolver ≠ .conflictFile hashLength)
    (localPeer : PublicKey) (log other : PathOpLog) :
    ¬ Renames resolver.resolve localPeer log other := by
  rintro ⟨before, op, rest, -, -, base, newPath, -, hrename⟩
  cases resolver with
  | lastWriteWins =>
      simp only [BuiltinResolver.resolve, lastWriteWins] at hrename
      split_ifs at hrename
  | baseWins => simp [BuiltinResolver.resolve, baseWins] at hrename
  | forkOnConflict => simp [BuiltinResolver.resolve, forkOnConflict] at hrename
  | conflictFile hashLength => exact hresolver hashLength rfl

end PathOpLog

/-! ## Runs -/

namespace Replicas

/-- The clock does not overflow in the action, and no operation is renamed. -/
def Faithful (state : Replicas) : ReplicaAction → Prop
  | .record peer _ _ _ _ => (state.logs peer).localClock + 1 < 2 ^ 64
  | .send _ => True
  | .merge _ message => ∀ log, state.sent[message]? = some log →
      ∀ op ∈ log, op.id.timestamp + 1 < 2 ^ 64
  | .mergeWithResolver peer message resolver => ∀ log, state.sent[message]? = some log →
      (∀ op ∈ log, op.id.timestamp + 1 < 2 ^ 64) ∧
        ¬ Renames resolver.resolve peer (state.logs peer) log

section

variable {state : Replicas}

theorem logs_setLog_self (peer : PublicKey) (log : PathOpLog) :
    (state.setLog peer log).logs peer = log := Function.update_self _ _ _

theorem logs_setLog_of_ne {peer other : PublicKey} (hne : other ≠ peer) (log : PathOpLog) :
    (state.setLog peer log).logs other = state.logs other := Function.update_of_ne hne _ _

theorem holds_setLog {peer : PublicKey} {log held : PathOpLog}
    (h : (state.setLog peer log).Holds held) : held = log ∨ state.Holds held := by
  rcases h with ⟨other, hother⟩ | hsent
  · by_cases heq : other = peer
    · rw [heq, logs_setLog_self] at hother
      exact Or.inl hother.symm
    · rw [logs_setLog_of_ne heq] at hother
      exact Or.inr (Or.inl ⟨other, hother⟩)
  · exact Or.inr (Or.inr hsent)

/-- The clock of a peer does not go back. -/
theorem clock_le_setLog {peer : PublicKey} {log : PathOpLog}
    (hclock : (state.logs peer).localClock ≤ log.localClock) (other : PublicKey) :
    (state.logs other).localClock ≤ ((state.setLog peer log).logs other).localClock := by
  by_cases heq : other = peer
  · rw [heq, logs_setLog_self]
    exact hclock
  · rw [logs_setLog_of_ne heq]

/-- A log that is made of operations in the system fits into it. -/
theorem Consistent.setLog (h : state.Consistent) {peer : PublicKey} {message merged : PathOpLog}
    (hmessage : state.Holds message) (hmerged : Extends (state.logs peer) message merged) :
    (state.setLog peer merged).Consistent := by
  have hsource : ∀ op ∈ merged, ∃ log, state.Holds log ∧ op ∈ log := by
    intro op hop
    rcases hmerged.sources op hop with hown | hreceived
    · exact ⟨state.logs peer, Or.inl ⟨peer, rfl⟩, hown⟩
    · exact ⟨message, hmessage, hreceived⟩
  have hheld : ∀ log, (state.setLog peer merged).Holds log → ∀ op ∈ log,
      ∃ old, state.Holds old ∧ op ∈ old := by
    intro log hlog op hop
    rcases holds_setLog hlog with rfl | hold
    · exact hsource op hop
    · exact ⟨log, hold, hop⟩
  constructor
  · intro log other hlog hother op hop op' hop' hid
    obtain ⟨old, hold, hmem⟩ := hheld log hlog op hop
    obtain ⟨old', hold', hmem'⟩ := hheld other hother op' hop'
    exact h.agree old old' hold hold' op hmem op' hmem' hid
  · intro log hlog op hop
    obtain ⟨old, hold, hmem⟩ := hheld log hlog op hop
    exact (h.clock old hold op hmem).trans (clock_le_setLog hmerged.clock _)

/-- A recorded operation has an id that no log has. -/
theorem Consistent.record (h : state.Consistent) {peer : PublicKey} {opType : OpType}
    {path : Path} {contentLink : Option Link} {isDir : Bool}
    (hclock : (state.logs peer).localClock + 1 < 2 ^ 64) :
    (state.setLog peer ((state.logs peer).record peer opType path contentLink
      isDir).2).Consistent := by
  let recorded := (state.logs peer).record peer opType path contentLink isDir
  let op : PathOperation := ⟨⟨(state.logs peer).localClock + 1, peer⟩, opType, path,
    contentLink, isDir⟩
  have hop : recorded.2 = ⟨(state.logs peer).operations.insert op,
      (state.logs peer).localClock + 1⟩ := by
    simp only [recorded, op, PathOpLog.record, u64Succ_of_lt hclock]
  have hrecorded : recorded.2.localClock = (state.logs peer).localClock + 1 := by
    rw [hop]
  have hfresh : ∀ log, state.Holds log → ∀ x ∈ log, x.id ≠ op.id := by
    intro log hlog x hx hid
    have hbound := h.clock log hlog x hx
    rw [hid] at hbound
    exact absurd hbound (by simp [op])
  have hheld : ∀ log, (state.setLog peer recorded.2).Holds log → ∀ x ∈ log,
      x = op ∨ ∃ old, state.Holds old ∧ x ∈ old := by
    intro log hlog x hx
    rcases holds_setLog hlog with rfl | hold
    · rw [hop, mem_iff] at hx
      rcases KeyedMap.mem_insert.mp hx with rfl | ⟨hown, -⟩
      · exact Or.inl rfl
      · exact Or.inr ⟨state.logs peer, Or.inl ⟨peer, rfl⟩, hown⟩
    · exact Or.inr ⟨log, hold, hx⟩
  constructor
  · intro log other hlog hother x hx y hy hid
    rcases hheld log hlog x hx with rfl | ⟨old, hold, hmem⟩
    · rcases hheld other hother y hy with rfl | ⟨old', hold', hmem'⟩
      · rfl
      · exact absurd hid.symm (hfresh old' hold' y hmem')
    · rcases hheld other hother y hy with rfl | ⟨old', hold', hmem'⟩
      · exact absurd hid (hfresh old hold x hmem)
      · exact h.agree old old' hold hold' x hmem y hmem' hid
  · intro log hlog x hx
    have hle : (state.logs peer).localClock ≤ recorded.2.localClock := by
      rw [hrecorded]
      omega
    rcases hheld log hlog x hx with rfl | ⟨old, hold, hmem⟩
    · change (state.logs peer).localClock + 1 ≤ _
      rw [← hrecorded]
      exact (congrArg localClock (logs_setLog_self peer recorded.2)).ge
    · exact (h.clock old hold x hmem).trans (clock_le_setLog hle _)

theorem Consistent.step (h : state.Consistent) {action : ReplicaAction}
    (hfaithful : state.Faithful action) : (state.step action).Consistent := by
  cases action with
  | record peer opType path contentLink isDir => exact h.record hfaithful
  | send peer =>
      have hholds : ∀ log, (state.step (.send peer)).Holds log → state.Holds log := by
        intro log hlog
        rcases hlog with hown | hsent
        · exact Or.inl hown
        · rcases List.mem_append.mp hsent with hold | hnew
          · exact Or.inr hold
          · rw [List.mem_singleton] at hnew
            exact Or.inl ⟨peer, hnew.symm⟩
      exact ⟨fun log other hlog hother => h.agree log other (hholds log hlog)
        (hholds other hother), fun log hlog => h.clock log (hholds log hlog)⟩
  | merge peer message =>
      rw [Replicas.step]
      cases hmessage : state.sent[message]? with
      | none => exact h
      | some log =>
          exact h.setLog (Or.inr (List.mem_of_getElem? hmessage))
            (extends_merge (hfaithful log hmessage))
  | mergeWithResolver peer message resolver =>
      rw [Replicas.step]
      cases hmessage : state.sent[message]? with
      | none => exact h
      | some log =>
          obtain ⟨hbound, hkeeps⟩ := hfaithful log hmessage
          exact h.setLog (Or.inr (List.mem_of_getElem? hmessage))
            (extends_mergeWithResolver hbound hkeeps)

end

/-- In every run in which no operation is renamed and no clock overflows, two logs
that contain an id contain the same operation under it. -/
theorem agree_of_faithfulRun (actions : List ReplicaAction)
    (hfaithful : AlongRun step Faithful initial actions) (peer other : PublicKey) :
    Agree ((initial.run actions).logs peer) ((initial.run actions).logs other) := by
  have hconsistent : (initial.run actions).Consistent :=
    hfaithful.invariant (fun _ _ h hstep => h.step hstep) consistent_initial
  exact hconsistent.agree _ _ (Or.inl ⟨peer, rfl⟩) (Or.inl ⟨other, rfl⟩)

/-- Two peers add the file `notes`; the second merges the first's log with the
resolver. -/
def concurrentAdds (resolver : BuiltinResolver) : List ReplicaAction :=
  [.record ⟨[1]⟩ .add (relPath ["notes".toList]) (some Link.default) false,
    .send ⟨[1]⟩,
    .record ⟨[2]⟩ .add (relPath ["notes".toList]) (some ⟨ldRawCodec, ⟨[7]⟩⟩) false,
    .mergeWithResolver ⟨[2]⟩ 0 resolver]

/-- The renamed copy has the id of the original. -/
theorem concurrentAdds_not_agree :
    ¬ Agree ((initial.run (concurrentAdds (.conflictFile 8))).logs ⟨[1]⟩)
      ((initial.run (concurrentAdds (.conflictFile 8))).logs ⟨[2]⟩) := by
  decide

theorem concurrentAdds_agree :
    AlongRun step Faithful initial (concurrentAdds .forkOnConflict) ∧
      Agree ((initial.run (concurrentAdds .forkOnConflict)).logs ⟨[1]⟩)
        ((initial.run (concurrentAdds .forkOnConflict)).logs ⟨[2]⟩) := by
  have hfaithful : AlongRun step Faithful initial (concurrentAdds .forkOnConflict) := by
    have hclock : ∀ clock, clock ≤ 1 → clock + 1 < 2 ^ 64 := by omega
    refine ⟨hclock _ (by decide), trivial, hclock _ (by decide), ?_, trivial⟩
    intro log hlog
    refine ⟨?_, not_renames (by simp) _ _ _⟩
    cases hlog
    decide
  exact ⟨hfaithful, agree_of_faithfulRun _ hfaithful _ _⟩

end Replicas

end JaxFs

import JaxFs.KeyedMap
import JaxFs.Paths
import Mathlib.Data.List.MinMax

/-!
# The path operation log

`mount/path_ops.rs`: a grow-only set of path operations, ordered by their
operation ids, together with the Lamport clock from which the next id is taken.
The log is a `KeyedMap` over the operations' own ids, so an operation is always
filed under the id it carries.  Clock arithmetic is that of `u64`.
-/

namespace JaxFs

inductive OpType where
  | add
  | remove
  | mkdir
  | mv (source : Path)
  deriving DecidableEq

structure OpId where
  timestamp : ℕ
  peerId : PublicKey
  deriving DecidableEq

/-- Timestamps first, then peers. -/
instance : LinearOrder OpId :=
  LinearOrder.lift' (fun id => toLex (id.timestamp, id.peerId)) (fun a b h => by
    cases a
    cases b
    simpa using h)

structure PathOperation where
  id : OpId
  opType : OpType
  path : Path
  contentLink : Option Link
  isDir : Bool
  deriving DecidableEq

structure PathOpLog where
  operations : KeyedMap PathOperation.id
  localClock : ℕ
  deriving DecidableEq

/-- `n + 1` on `u64`. -/
def u64Succ (n : ℕ) : ℕ := (n + 1) % 2 ^ 64

namespace PathOpLog

instance : Membership PathOperation PathOpLog :=
  ⟨fun log op => op ∈ log.operations⟩

instance (op : PathOperation) (log : PathOpLog) : Decidable (op ∈ log) :=
  inferInstanceAs (Decidable (op ∈ log.operations.toList))

def new : PathOpLog := ⟨KeyedMap.empty, 0⟩

def fromOperation (op : PathOperation) : PathOpLog :=
  ⟨KeyedMap.empty.insert op, op.id.timestamp⟩

def isEmpty (log : PathOpLog) : Bool := log.operations.isEmpty

/-- Greatest timestamp of the operations, zero for an empty log. -/
def rebuildClock (log : PathOpLog) : PathOpLog :=
  { log with
    localClock :=
      (log.operations.toList.map (fun op => op.id.timestamp)).foldl max 0 }

def record (log : PathOpLog) (peerId : PublicKey) (opType : OpType) (path : Path)
    (contentLink : Option Link) (isDir : Bool) : OpId × PathOpLog :=
  let clock := u64Succ log.localClock
  let id : OpId := ⟨clock, peerId⟩
  (id, ⟨log.operations.insert ⟨id, opType, path, contentLink, isDir⟩, clock⟩)

/-- One incoming operation of `merge`, with the count of operations added. -/
def mergeOperation (state : PathOpLog × ℕ) (op : PathOperation) : PathOpLog × ℕ :=
  if state.1.operations.contains op.id then state
  else
    (⟨state.1.operations.insert op,
      if state.1.localClock ≤ op.id.timestamp then u64Succ op.id.timestamp
      else state.1.localClock⟩, state.2 + 1)

def merge (log other : PathOpLog) : PathOpLog × ℕ :=
  other.operations.toList.foldl mergeOperation (log, 0)

/-- The operation with the highest id on a path. -/
def resolvePath (log : PathOpLog) (path : Path) : Option PathOperation :=
  (log.operations.toList.filter (fun op => decide (op.path = path))).argmax
    PathOperation.id

/-- The operations grouped by their paths, each group in id order. -/
def byPath (log : PathOpLog) : FinMap Path (List PathOperation) :=
  log.operations.toList.foldl
    (fun groups op =>
      groups.put op.path ((groups.get? op.path).getD [] ++ [op]))
    KeyedMap.empty

/-- The winning operation of every path whose winner is not a `Remove`. -/
def resolveAll (log : PathOpLog) : FinMap Path PathOperation :=
  log.byPath.toList.foldl
    (fun result group =>
      match group.2.argmax PathOperation.id with
      | some winner =>
          if winner.opType = .remove then result else result.put group.1 winner
      | none => result)
    KeyedMap.empty

def clearPreservingClock (log : PathOpLog) : PathOpLog :=
  { log with operations := KeyedMap.empty }

theorem mem_iff {log : PathOpLog} {op : PathOperation} :
    op ∈ log ↔ op ∈ log.operations := Iff.rfl

@[simp] theorem not_mem_new {op : PathOperation} : ¬ op ∈ new :=
  List.not_mem_nil

@[simp] theorem not_mem_clearPreservingClock {log : PathOpLog} {op : PathOperation} :
    ¬ op ∈ log.clearPreservingClock :=
  List.not_mem_nil

theorem mem_fromOperation {op op' : PathOperation} :
    op' ∈ fromOperation op ↔ op' = op := by
  change op' ∈ KeyedMap.empty.insert op ↔ op' = op
  rw [KeyedMap.mem_insert]
  simp

/-! ## The winning operation of a path -/

theorem resolvePath_eq_some_iff {log : PathOpLog} {path : Path}
    {winner : PathOperation} :
    log.resolvePath path = some winner ↔
      winner ∈ log ∧ winner.path = path ∧
        ∀ op ∈ log, op.path = path → op.id ≤ winner.id := by
  unfold resolvePath
  rw [List.argmax_eq_some_iff]
  constructor
  · rintro ⟨hmem, hmax, -⟩
    obtain ⟨hwinner, hpath⟩ := List.mem_filter.mp hmem
    refine ⟨hwinner, by simpa using hpath, ?_⟩
    intro op hop hopPath
    exact hmax op (List.mem_filter.mpr ⟨hop, by simpa using hopPath⟩)
  · rintro ⟨hwinner, hpath, hmax⟩
    have hmem : winner ∈ log.operations.toList.filter
        (fun op => decide (op.path = path)) :=
      List.mem_filter.mpr ⟨hwinner, by simpa using hpath⟩
    refine ⟨hmem, ?_, ?_⟩
    · intro op hop
      obtain ⟨hop, hopPath⟩ := List.mem_filter.mp hop
      exact hmax op hop (by simpa using hopPath)
    · -- ids are distinct, so no tie has to be broken
      intro op hop hle
      obtain ⟨hop, hopPath⟩ := List.mem_filter.mp hop
      have hid := le_antisymm hle (hmax op hop (by simpa using hopPath))
      rw [KeyedMap.eq_of_mem_of_key_eq hwinner hop hid]

theorem resolvePath_eq_none_iff {log : PathOpLog} {path : Path} :
    log.resolvePath path = none ↔ ∀ op ∈ log, op.path ≠ path := by
  unfold resolvePath
  rw [List.argmax_eq_none, List.filter_eq_nil_iff]
  simp [mem_iff]

/-- The winner of a path depends only on the operations on that path. -/
theorem resolvePath_congr {log log' : PathOpLog} {path : Path}
    (h : ∀ op, op.path = path → (op ∈ log ↔ op ∈ log')) :
    log.resolvePath path = log'.resolvePath path := by
  cases hwinner : log'.resolvePath path with
  | none =>
      rw [resolvePath_eq_none_iff] at hwinner ⊢
      intro op hop hpath
      exact hwinner op ((h op hpath).mp hop) hpath
  | some winner =>
      rw [resolvePath_eq_some_iff] at hwinner ⊢
      obtain ⟨hmem, hpath, hmax⟩ := hwinner
      refine ⟨(h winner hpath).mpr hmem, hpath, ?_⟩
      intro op hop hopPath
      exact hmax op ((h op hopPath).mp hop) hopPath

/-! ## The winners of all paths -/

/-- The groups after some more operations. -/
theorem get?_foldl_byPath (ops : List PathOperation)
    (groups : FinMap Path (List PathOperation)) (path : Path) :
    (ops.foldl (fun groups op =>
        groups.put op.path ((groups.get? op.path).getD [] ++ [op])) groups).get? path =
      if ops.filter (fun op => decide (op.path = path)) = [] then groups.get? path
      else some ((groups.get? path).getD [] ++
        ops.filter (fun op => decide (op.path = path))) := by
  induction ops generalizing groups with
  | nil => simp
  | cons op rest ih =>
      rw [List.foldl_cons, ih]
      by_cases hpath : op.path = path
      · rw [hpath, FinMap.get?_put_self, List.filter_cons_of_pos (by simpa using hpath)]
        by_cases hrest : rest.filter (fun op => decide (op.path = path)) = []
        · simp [hrest]
        · simp [hrest]
      · rw [FinMap.get?_put_of_ne _ _ hpath,
          List.filter_cons_of_neg (by simpa using hpath)]

theorem get?_byPath (log : PathOpLog) (path : Path) :
    log.byPath.get? path =
      if log.operations.toList.filter (fun op => decide (op.path = path)) = [] then none
      else some (log.operations.toList.filter (fun op => decide (op.path = path))) := by
  unfold byPath
  rw [get?_foldl_byPath]
  simp

/-- The winner of a group, unless it is a `Remove`. -/
def keptWinner (group : Path × List PathOperation) : Option (Path × PathOperation) :=
  match group.2.argmax PathOperation.id with
  | some winner => if winner.opType = .remove then none else some (group.1, winner)
  | none => none

theorem keptWinner_eq_some_iff {group : Path × List PathOperation} {path : Path}
    {winner : PathOperation} :
    keptWinner group = some (path, winner) ↔
      group.1 = path ∧ group.2.argmax PathOperation.id = some winner ∧ winner.opType ≠ .remove := by
  unfold keptWinner
  cases group.2.argmax PathOperation.id with
  | none => simp
  | some best =>
      dsimp only
      by_cases hremove : best.opType = .remove
      · rw [if_pos hremove]
        constructor
        · intro hnone
          cases hnone
        · rintro ⟨-, hbest, hkept⟩
          cases hbest
          exact absurd hremove hkept
      · rw [if_neg hremove]
        constructor
        · intro hbest
          cases hbest
          exact ⟨rfl, rfl, hremove⟩
        · rintro ⟨rfl, hbest, -⟩
          cases hbest
          rfl

/-- `resolve_all` puts the winners that are kept, each at its path. -/
theorem resolveAll_eq_foldl (log : PathOpLog) : log.resolveAll =
    (log.byPath.toList.filterMap keptWinner).foldl
      (fun (result : FinMap Path PathOperation) item => result.put item.1 item.2)
      KeyedMap.empty := by
  rw [List.foldl_filterMap]
  unfold resolveAll
  congr 1
  funext result group
  unfold keptWinner
  cases group.2.argmax PathOperation.id with
  | none => rfl
  | some winner =>
      dsimp only
      split_ifs <;> rfl

/-- `resolve_all` has the winner of every path on which a `Remove` does not win. -/
theorem get?_resolveAll {log : PathOpLog} {path : Path} {winner : PathOperation} :
    log.resolveAll.get? path = some winner ↔
      log.resolvePath path = some winner ∧ winner.opType ≠ .remove := by
  have hdistinct : (log.byPath.toList.filterMap keptWinner).Pairwise
      (fun item item' => item.1 ≠ item'.1) := by
    rw [List.pairwise_filterMap]
    refine log.byPath.sorted.imp ?_
    rintro group group' hlt ⟨path, winner⟩ hkept ⟨path', winner'⟩ hkept'
    obtain ⟨rfl, -⟩ := keptWinner_eq_some_iff.mp hkept
    obtain ⟨rfl, -⟩ := keptWinner_eq_some_iff.mp hkept'
    exact hlt.ne
  have hmem : (path, winner) ∈ log.byPath.toList.filterMap keptWinner ↔
      ∃ ops, log.byPath.get? path = some ops ∧ ops.argmax PathOperation.id = some winner ∧
        winner.opType ≠ .remove := by
    rw [List.mem_filterMap]
    constructor
    · rintro ⟨group, hgroup, hkept⟩
      obtain ⟨rfl, hwins⟩ := keptWinner_eq_some_iff.mp hkept
      exact ⟨group.2, FinMap.get?_eq_some_iff.mpr hgroup, hwins⟩
    · rintro ⟨ops, hops, hwins⟩
      exact ⟨(path, ops), FinMap.get?_eq_some_iff.mp hops,
        keptWinner_eq_some_iff.mpr ⟨rfl, hwins⟩⟩
  rw [resolveAll_eq_foldl]
  refine (FinMap.get?_foldl_put Function.injective_id hdistinct KeyedMap.empty).trans ?_
  simp only [id_eq, exists_eq_left, FinMap.get?_empty, reduceCtorEq, and_false, or_false, hmem]
  unfold resolvePath
  rw [get?_byPath]
  by_cases hempty : log.operations.toList.filter (fun op => decide (op.path = path)) = []
  · simp [hempty]
  · simp [hempty]

/-- The winners depend only on the winner of each path. -/
theorem resolveAll_congr {log log' : PathOpLog}
    (h : ∀ path, log.resolvePath path = log'.resolvePath path) :
    log.resolveAll = log'.resolveAll := by
  apply KeyedMap.ext_mem
  intro item
  obtain ⟨path, winner⟩ := item
  rw [← FinMap.get?_eq_some_iff, ← FinMap.get?_eq_some_iff, get?_resolveAll,
    get?_resolveAll, h]

/-! ## The clock -/

/-- No operation is newer than the clock, and the clock can advance `room` times
before it overflows. -/
structure ClockRoom (log : PathOpLog) (room : ℕ) : Prop where
  ahead : ∀ op ∈ log, op.id.timestamp ≤ log.localClock
  bound : log.localClock + room < 2 ^ 64

theorem u64Succ_of_lt {n : ℕ} (h : n + 1 < 2 ^ 64) : u64Succ n = n + 1 :=
  Nat.mod_eq_of_lt h

theorem mem_mergeOperation_of_mem {state : PathOpLog × ℕ} {op other : PathOperation}
    (h : op ∈ state.1) : op ∈ (mergeOperation state other).1 := by
  unfold mergeOperation
  by_cases hknown : state.1.operations.contains other.id = true
  · rw [if_pos hknown]
    exact h
  · rw [if_neg hknown]
    have hfresh := Bool.eq_false_of_not_eq_true hknown
    exact (KeyedMap.mem_insert_of_contains_eq_false hfresh).mpr (Or.inr h)

/-- A merge keeps what the log has. -/
theorem mem_merge_of_mem {log other : PathOpLog} {op : PathOperation} (h : op ∈ log) :
    op ∈ (log.merge other).1 := by
  unfold merge
  suffices hfold : ∀ (incoming : List PathOperation) (state : PathOpLog × ℕ), op ∈ state.1 →
      op ∈ (incoming.foldl mergeOperation state).1 from hfold _ (log, 0) h
  intro incoming
  induction incoming with
  | nil => exact fun _ hmem => hmem
  | cons first rest ih =>
      intro state hmem
      exact ih _ (mem_mergeOperation_of_mem hmem)

theorem merge_fromOperation (log : PathOpLog) (op : PathOperation) :
    (log.merge (fromOperation op)).1 = (mergeOperation (log, 0) op).1 := rfl

theorem ClockRoom.mono {log : PathOpLog} {room room' : ℕ} (h : ClockRoom log room')
    (hle : room ≤ room') : ClockRoom log room := by
  refine ⟨h.ahead, ?_⟩
  have hbound := h.bound
  omega

theorem ClockRoom.merge_fromOperation {log : PathOpLog} {room : ℕ} {op : PathOperation}
    (h : ClockRoom log (room + 1)) (hop : op.id.timestamp + (room + 1) < 2 ^ 64) :
    ClockRoom (log.merge (fromOperation op)).1 room := by
  rw [PathOpLog.merge_fromOperation]
  unfold mergeOperation
  dsimp only
  have hbound := h.bound
  split_ifs with hknown hclock
  · exact h.mono (Nat.le_succ room)
  · rw [u64Succ_of_lt (by omega)]
    constructor
    · intro other hother
      rcases KeyedMap.mem_insert.mp hother with rfl | ⟨hold, -⟩
      · exact Nat.le_succ _
      · have hahead := h.ahead other hold
        dsimp only
        omega
    · dsimp only
      omega
  · constructor
    · intro other hother
      rcases KeyedMap.mem_insert.mp hother with rfl | ⟨hold, -⟩
      · dsimp only
        omega
      · exact h.ahead other hold
    · dsimp only
      omega

section

variable {log : PathOpLog} {room : ℕ} {peerId : PublicKey} {opType : OpType} {path : Path}
  {contentLink : Option Link} {isDir : Bool}

/-- A recorded operation has an id of its own as long as the clock does not
overflow. -/
theorem ClockRoom.mem_record (h : ClockRoom log (room + 1)) {op : PathOperation}
    (hop : op ∈ log) : op ∈ (log.record peerId opType path contentLink isDir).2 := by
  have hahead := h.ahead op hop
  have hbound := h.bound
  apply KeyedMap.mem_insert.mpr
  right
  refine ⟨hop, ?_⟩
  intro heq
  have htimestamp := congrArg OpId.timestamp heq
  dsimp only at htimestamp
  rw [u64Succ_of_lt (by omega)] at htimestamp
  omega

theorem ClockRoom.record (h : ClockRoom log (room + 1)) :
    ClockRoom (log.record peerId opType path contentLink isDir).2 room := by
  have hbound := h.bound
  have hclock : (log.record peerId opType path contentLink isDir).2.localClock =
      log.localClock + 1 := u64Succ_of_lt (by omega)
  constructor
  · intro op hop
    rw [hclock]
    rcases KeyedMap.mem_insert.mp hop with rfl | ⟨hold, -⟩
    · exact (u64Succ_of_lt (by omega)).le
    · have hahead := h.ahead op hold
      omega
  · rw [hclock]
    omega

end

end PathOpLog

end JaxFs

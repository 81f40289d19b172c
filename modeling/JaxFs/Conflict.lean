import JaxFs.PathOps

/-!
# Conflicts and their resolvers

`mount/conflict`: when two operations conflict, what a resolver may decide, and
the four strategies shipped with the crate.  A resolver is any function from a
conflict and the local peer to a `Resolution`, as the trait `ConflictResolver`
allows; the built-in ones ignore the local peer.
-/

namespace JaxFs

structure Conflict where
  path : Path
  base : PathOperation
  incoming : PathOperation
  deriving DecidableEq

inductive Resolution where
  | useBase
  | useIncoming
  | keepBoth
  | skipBoth
  | renameIncoming (newPath : Path)
  deriving DecidableEq

structure ResolvedConflict where
  conflict : Conflict
  resolution : Resolution
  deriving DecidableEq

structure MergeResult where
  operationsAdded : ℕ
  conflictsResolved : List ResolvedConflict
  unresolvedConflicts : List Conflict
  deriving DecidableEq

def MergeResult.new : MergeResult := ⟨0, [], []⟩

def MergeResult.totalConflicts (result : MergeResult) : ℕ :=
  result.conflictsResolved.length + result.unresolvedConflicts.length

@[simp] theorem MergeResult.totalConflicts_new : MergeResult.new.totalConflicts = 0 :=
  rfl

theorem MergeResult.totalConflicts_eq_zero_iff {result : MergeResult} :
    result.totalConflicts = 0 ↔
      result.conflictsResolved = [] ∧ result.unresolvedConflicts = [] := by
  simp [MergeResult.totalConflicts]

abbrev ConflictResolver := Conflict → PublicKey → Resolution

def isDestructive : OpType → Bool
  | .remove => true
  | .mv _ => true
  | .add => false
  | .mkdir => false

/-- `operations_conflict`: different ids, one path, and either a destructive
operation or two `Add`s. -/
def operationsConflict (base incoming : PathOperation) : Bool :=
  if base.id = incoming.id then false
  else if base.path ≠ incoming.path then false
  else
    isDestructive base.opType || isDestructive incoming.opType ||
      (decide (base.opType = .add) && decide (incoming.opType = .add))

theorem operationsConflict_comm (op op' : PathOperation) :
    operationsConflict op op' = operationsConflict op' op := by
  unfold operationsConflict
  by_cases hid : op.id = op'.id
  · simp [hid]
  · by_cases hpath : op.path = op'.path
    · simp only [if_neg hid, if_neg (Ne.symm hid), hpath]
      cases op.opType <;> cases op'.opType <;> simp [isDestructive]
    · simp [hid, Ne.symm hid, hpath, Ne.symm hpath]

theorem operationsConflict_iff {op op' : PathOperation} :
    operationsConflict op op' = true ↔ op.id ≠ op'.id ∧ op.path = op'.path ∧
      (isDestructive op.opType = true ∨ isDestructive op'.opType = true ∨
        (op.opType = .add ∧ op'.opType = .add)) := by
  unfold operationsConflict
  by_cases hid : op.id = op'.id
  · simp [hid]
  · by_cases hpath : op.path = op'.path
    · simp [hid, hpath, or_assoc]
    · simp [hid, hpath]

theorem operationsConflict_path {op op' : PathOperation}
    (h : operationsConflict op op' = true) : op.path = op'.path := by
  by_contra hne
  simp [operationsConflict, hne] at h

theorem operationsConflict_id_ne {op op' : PathOperation}
    (h : operationsConflict op op' = true) : op.id ≠ op'.id := by
  intro heq
  simp [operationsConflict, heq] at h

/-! ## The built-in strategies -/

def lastWriteWins : ConflictResolver := fun conflict _ =>
  if conflict.base.id < conflict.incoming.id then .useIncoming else .useBase

def baseWins : ConflictResolver := fun _ _ => .useBase

def forkOnConflict : ConflictResolver := fun _ _ => .keepBoth

/-- `ConflictFile::conflict_path`: `<name>@<version>` beside the original. -/
def conflictPath (path : Path) (version : Name) : Path :=
  let fileName := (path.fileName).getD "file".toList
  let conflictName := fileName ++ '@' :: version
  match path.parent with
  | some parent => if parent ≠ [] then parent ++ [.normal conflictName]
      else [.normal conflictName]
  | none => [.normal conflictName]

/-- The version suffix of an incoming operation: a prefix of its content hash,
or its timestamp when it has no content. -/
def conflictVersion (hashLength : ℕ) (incoming : PathOperation) : Name :=
  match incoming.contentLink with
  | some link => link.hash.toName.take hashLength
  | none => (toString incoming.id.timestamp).toList

def conflictFile (hashLength : ℕ) : ConflictResolver := fun conflict _ =>
  match conflict.base.opType, conflict.incoming.opType with
  | .add, .add =>
      .renameIncoming
        (conflictPath conflict.incoming.path
          (conflictVersion hashLength conflict.incoming))
  | _, _ =>
      if conflict.base.id < conflict.incoming.id then .useIncoming else .useBase

/-- The strategies of the crate, `ConflictFile` with its default length. -/
def builtinResolvers : List ConflictResolver :=
  [lastWriteWins, baseWins, forkOnConflict, conflictFile 8]

end JaxFs

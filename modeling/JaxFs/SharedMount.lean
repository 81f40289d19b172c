import JaxFs.Interleaving
import JaxFs.TreeRefinement

/-!
# A mount that is shared

The clones of a `Mount` share its state behind a lock, and no operation keeps the lock
for longer than it takes to copy the state or to write to it.  Here an operation is a task
that stops wherever the source asks for the lock: it works on a copy of the entry, and
what it has made of the copy is a draft until it gets the lock again.  A task that is
left alone is the operation of `Mount`.
-/

namespace JaxFs

/-- What an operation has made of a copy of the entry, with the blobs it has stored. -/
structure Draft where
  snapshot : Node
  hashes : List Hash
  newEntry : Option Node

/-- The paths of a move, as given and relative to the root. -/
structure Move where
  source : Path
  target : Path
  sourceClean : Path
  targetClean : Path

/-- What an operation returns.  The id that `record` gives out is dropped by the source;
it is kept here with its operation. -/
inductive Outcome where
  | edited (recorded : PathOperation)
  | saved (link previousLink : Link) (height : ℕ)

/-- An operation on a shared mount, at the point where it asks for the lock. -/
inductive Task where
  | add (path : Path) (data : Bytes)
  | addStored (path : Path) (hash : Hash) (secret : Secret)
  | addDrafted (path : Path) (link : Link) (draft : Draft)
  | rm (path : Path)
  | rmDrafted (path : Path) (isDir : Bool) (draft : Draft)
  | rmWritten (path : Path) (isDir : Bool)
  | mkdir (path : Path)
  | mkdirDrafted (path : Path) (draft : Draft)
  | mv (source target : Path)
  | mvFound (move : Move) (nodeLink : NodeLink)
  | mvChecked (move : Move) (nodeLink : NodeLink)
  | mvDrafted (move : Move) (nodeLink : NodeLink) (draft : Draft)
  | mvRemoved (move : Move) (nodeLink : NodeLink)
  | mvPlaced (move : Move) (nodeLink : NodeLink) (draft : Draft)
  | save (publish : Bool)
  | saveStored (copied : MountInner) (manifest : Manifest) (link : Link)
  | returned (result : Except Fault Outcome)

section

variable [P : Primitives]

/-! ## Drafts -/

def draftLink (entry : Node) (nodeLink : NodeLink) (path : Path) (hashes : List Hash) :
    MountM Draft := do
  let (updatedLink, nodeHashes) ← onBlobs (setNodeLinkAtPath entry nodeLink path)
  let newEntry ← reloadRoot updatedLink
  pure ⟨entry, hashes ++ nodeHashes, newEntry⟩

/-- The parent of a path without the removed entry, in the tree. -/
def draftParent (entry : Node) (parentPath : Path) (parentNode : Node) : MountM Draft := do
  let secret ← onBlobs generateSecret
  let link ← onBlobs (putNodeInBlobs parentNode secret)
  if parentPath = [] then pure ⟨entry, [link.hash], some parentNode⟩
  else draftLink entry (.dir link secret) (.rootDir :: parentPath) [link.hash]

/-- The common part of `rm` and of the removal in `mv`. -/
def draftRemoval (entry : Node) (path parentPath : Path) : MountM (NodeLink × Draft) := do
  let parentNode ← readBlobs (fun blobs => getParentNode blobs entry parentPath)
  match path.fileName with
  | none => throw .panic
  | some fileName =>
      match parentNode.del fileName with
      | (none, _) => throw (.error (.pathNotFound path))
      | (some removedLink, parentNode) => do
          let draft ← draftParent entry parentPath parentNode
          pure (removedLink, draft)

/-- The draft becomes the entry of the mount, whatever the entry is by then. -/
def Draft.writeTo (draft : Draft) (inner : MountInner) : MountInner :=
  (inner.addPins draft.hashes).setEntryNode (draft.newEntry.getD inner.entry)

def Draft.write (draft : Draft) : MountM Unit := modifyInner draft.writeTo

def record (opType : OpType) (path : Path) (contentLink : Option Link) (isDir : Bool) :
    MountM Task := do
  let state ← getThe MountState
  let id := (state.inner.opsLog.record state.inner.peerId opType path contentLink isDir).1
  modifyInner (fun inner => inner.recordOp opType path contentLink isDir)
  pure (.returned (.ok (.edited ⟨id, opType, path, contentLink, isDir⟩)))

/-! ## The tasks -/

namespace Task

/-- From one request for the lock to the next: what is done under the lock, and the work
on copies after it. -/
def step : Task → MountM Task
  -- `add`: the file is stored before the lock is asked for
  | .add path data => do
      let secret ← onBlobs generateSecret
      let encrypted ← onBlobs (encryptData secret data)
      let hash ← onBlobs (put encrypted)
      pure (.addStored path hash secret)
  | .addStored path hash secret => do
      let link : Link := ⟨ldRawCodec, hash⟩
      let nodeLink := NodeLink.data link secret (P.mimeFromPath path)
      let state ← getThe MountState
      let draft ← draftLink state.inner.entry nodeLink path [hash]
      pure (.addDrafted path link draft)
  | .addDrafted path link draft => do
      let cleaned ← EStateM.ofExcept (cleanPath path)
      draft.write
      record .add cleaned (some link) false
  -- `rm`: the new tree and the log entry are written under two locks
  | .rm path => do
      let path ← EStateM.ofExcept (cleanPath path)
      match path.parent with
      | none => throw (.error (.default "Cannot remove root"))
      | some parentPath => do
          let state ← getThe MountState
          let (removedLink, draft) ← draftRemoval state.inner.entry path parentPath
          pure (.rmDrafted path removedLink.isDir draft)
  | .rmDrafted path isDir draft => do
      draft.write
      pure (.rmWritten path isDir)
  | .rmWritten path isDir => record .remove path none isDir
  -- `mkdir`
  | .mkdir path => do
      let path ← EStateM.ofExcept (cleanPath path)
      let state ← getThe MountState
      match ← EStateM.ofExcept (parentAndName path) with
      | none => throw (.error (.default "Cannot mkdir at root"))
      | some (parentPath, dirName) =>
          let parentNode ←
            readBlobs (fun blobs => mkdirParent blobs state.inner.entry parentPath)
          if (parentNode.getLink dirName).isSome then
            throw (.error (.pathAlreadyExists (.rootDir :: path)))
          else do
            let secret ← onBlobs generateSecret
            let dirLink ← onBlobs (putNodeInBlobs Node.default secret)
            let draft ← draftLink state.inner.entry (.dir dirLink secret)
              (.rootDir :: path) [dirLink.hash]
            pure (.mkdirDrafted path draft)
  | .mkdirDrafted path draft => do
      draft.write
      record .mkdir path none true
  -- `mv`: two lookups, the removal and the insertion, each on a copy of its own
  | .mv source target => do
      let sourceClean ← EStateM.ofExcept (cleanPath source)
      let targetClean ← EStateM.ofExcept (cleanPath target)
      if target.startsWith source then throw (.error (.moveIntoSelf source target))
      else do
        let state ← getThe MountState
        let nodeLink ← readBlobs (fun blobs => JaxFs.get blobs state.inner.entry source)
        pure (.mvFound ⟨source, target, sourceClean, targetClean⟩ nodeLink)
  | .mvFound move nodeLink => do
      let state ← getThe MountState
      match JaxFs.get state.world.blobs state.inner.entry move.target with
      | .ok _ => throw (.error (.pathAlreadyExists move.target))
      | .error (.error _) => pure (.mvChecked move nodeLink)
      | .error fault => throw fault
  | .mvChecked move nodeLink =>
      match move.sourceClean.parent with
      | none => throw (.error (.default "Cannot move root"))
      | some parentPath => do
          let state ← getThe MountState
          let (_, draft) ← draftRemoval state.inner.entry move.sourceClean parentPath
          pure (.mvDrafted move nodeLink draft)
  | .mvDrafted move nodeLink draft => do
      draft.write
      pure (.mvRemoved move nodeLink)
  | .mvRemoved move nodeLink => do
      let state ← getThe MountState
      let (updatedLink, nodeHashes) ← onBlobs
        (setNodeLinkAtPath state.inner.entry nodeLink move.target)
      let newEntry ← readBlobs (fun blobs => getNodeFromBlobs blobs updatedLink)
      pure (.mvPlaced move nodeLink ⟨state.inner.entry, nodeHashes, some newEntry⟩)
  | .mvPlaced move nodeLink draft => do
      draft.write
      record (.mv move.sourceClean) move.targetClean none nodeLink.isDir
  -- `save`: the log is copied under one lock and cleared under another
  | .save publish => do
      let state ← getThe MountState
      let (manifest, link) ← onBlobs (saveVersion state.inner publish)
      pure (.saveStored state.inner manifest link)
  | .saveStored copied manifest link => do
      modifyInner (fun inner =>
        { inner with
          manifest := manifest
          height := copied.height + 1
          link := link
          opsLog := inner.opsLog.clearPreservingClock })
      pure (.returned (.ok (.saved link copied.link (copied.height + 1))))
  | .returned result => pure (.returned result)

/-- A turn of the task; a failed operation keeps what it has written. -/
def move (state : MountState) (task : Task) : MountState × Task :=
  match task.step.run state with
  | .ok next state' => (state', next)
  | .error fault state' => (state', .returned (.error fault))

/-- The task with nothing in between its turns. -/
def alone : ℕ → Task → MountM Unit
  | 0, _ => pure ()
  | turns + 1, task => do
      let next ← task.step
      alone turns next

end Task

/-! ## A task that is left alone -/

theorem replaceParent_eq (entry : Node) (parentPath : Path) (parentNode : Node) :
    replaceParent entry parentPath parentNode = (do
      let draft ← draftParent entry parentPath parentNode
      draft.write) := by
  unfold replaceParent draftParent draftLink Draft.write Draft.writeTo
  by_cases hroot : parentPath = []
  · simp [hroot]
  · simp [hroot]
    rfl

/-- The turns that each operation takes. -/
theorem alone_add (path : Path) (data : Bytes) :
    (Task.add path data).alone 3 = add path data := by
  simp only [Task.alone, Task.step, add, draftLink, Draft.write, record, bind_assoc, pure_bind]
  rfl

/-- A removal that is written back at once is the one that `rm` and `mv` begin with. -/
theorem draftRemoval_write {α : Type} (entry : Node) (path parentPath : Path)
    (rest : NodeLink → MountM α) :
    (do
      let (removedLink, draft) ← draftRemoval entry path parentPath
      draft.write
      rest removedLink) = (do
      let parentNode ← readBlobs (fun blobs => getParentNode blobs entry parentPath)
      match path.fileName with
      | none => throw .panic
      | some fileName =>
          match parentNode.del fileName with
          | (none, _) => throw (.error (.pathNotFound path))
          | (some removedLink, parentNode) =>
              replaceParent entry parentPath parentNode
              rest removedLink) := by
  simp only [draftRemoval, bind_assoc]
  congr 1
  funext parentNode
  cases path.fileName with
  | none => rfl
  | some fileName =>
      dsimp only
      cases parentNode.del fileName with
      | mk removed parentNode =>
          cases removed with
          | none => rfl
          | some removedLink => simp only [replaceParent_eq, bind_assoc, pure_bind]

theorem alone_rm (path : Path) : (Task.rm path).alone 3 = rm path := by
  rw [Task.alone, Task.step, rm, bind_assoc]
  congr 1
  funext path
  cases path.parent with
  | none => rfl
  | some parentPath =>
      simp only [bind_assoc, pure_bind]
      congr 1
      funext state
      have hwrite := draftRemoval_write state.inner.entry path parentPath
        (fun removedLink => modifyInner (fun inner =>
          inner.recordOp .remove path none removedLink.isDir))
      exact hwrite

theorem alone_mkdir (path : Path) : (Task.mkdir path).alone 2 = mkdir path := by
  simp only [Task.alone, Task.step, mkdir, bind_assoc]
  congr 1
  funext path
  congr 1
  funext state
  congr 1
  funext split
  cases split with
  | none => rfl
  | some split =>
      obtain ⟨parentPath, dirName⟩ := split
      simp only [bind_assoc]
      congr 1
      funext parentNode
      by_cases htaken : (parentNode.getLink dirName).isSome
      · rw [if_pos htaken, if_pos htaken]
        rfl
      · rw [if_neg htaken, if_neg htaken]
        simp only [draftLink, Draft.write, record, bind_assoc, pure_bind]
        rfl

theorem alone_save (publish : Bool) :
    (Task.save publish).alone 2 = (do
      let _ ← save publish
      pure ()) := by
  simp only [Task.alone, Task.step, save, bind_assoc, pure_bind]

theorem alone_mvDrafted (move : Move) (nodeLink : NodeLink) (draft : Draft) :
    (Task.mvDrafted move nodeLink draft).alone 3 = (do
      draft.write
      mvInsert nodeLink move.sourceClean move.target move.targetClean) := by
  rw [Task.alone, Task.step, bind_assoc]
  congr 1
  funext _
  rw [pure_bind, Task.alone, Task.step, mvInsert]
  simp only [bind_assoc, pure_bind]
  rfl

/-- The second lookup of a move and its removal see the mount that the first one saw. -/
theorem alone_mv (source target : Path) : (Task.mv source target).alone 6 = mv source target := by
  rw [Task.alone, Task.step, mv, bind_assoc]
  congr 1
  funext sourceClean
  rw [bind_assoc]
  congr 1
  funext targetClean
  by_cases hself : target.startsWith source
  · rw [if_pos hself, if_pos hself]
    rfl
  rw [if_neg hself, if_neg hself]
  simp only [bind_assoc, pure_bind]
  refine funext fun state => ?_
  change EStateM.run _ state = EStateM.run _ state
  rw [run_getThe_bind, run_getThe_bind]
  cases hsource : JaxFs.get state.world.blobs state.inner.entry source with
  | error fault =>
      rw [EStateM.run_bind_of_error (run_readBlobs_of_error hsource),
        EStateM.run_bind_of_error (run_readBlobs_of_error hsource)]
  | ok nodeLink =>
      rw [EStateM.run_bind_of_ok (run_readBlobs_of_ok hsource),
        EStateM.run_bind_of_ok (run_readBlobs_of_ok hsource), Task.alone, Task.step, bind_assoc,
        run_getThe_bind]
      dsimp only
      cases JaxFs.get state.world.blobs state.inner.entry target with
      | ok found => rfl
      | error fault =>
          cases fault with
          | error error =>
              dsimp only
              rw [pure_bind, Task.alone, Task.step]
              cases sourceClean.parent with
              | none => rfl
              | some parentPath =>
                  dsimp only
                  have hwrite := draftRemoval_write state.inner.entry sourceClean parentPath
                    (fun _ => mvInsert nodeLink sourceClean target targetClean)
                  rw [bind_assoc, run_getThe_bind, bind_assoc]
                  simp only [pure_bind, alone_mvDrafted]
                  exact congrArg (fun program => EStateM.run program state) hwrite
          | _ => rfl

/-! ## The shared mount -/

/-- An operation that is called on a clone of the mount. -/
inductive SharedOp where
  | edit (action : TreeAction)
  | save (publish : Bool)

namespace SharedOp

def task : SharedOp → Task
  | .edit (.add names data) => .add (absPath names) data
  | .edit (.mkdir names) => .mkdir (absPath names)
  | .edit (.rm names) => .rm (absPath names)
  | .edit (.mv source target) => .mv (absPath source) (absPath target)
  | .save publish => .save publish

/-- How often the operation asks for the lock, and once more for an `add`. -/
def turns : SharedOp → ℕ
  | .edit (.add _ _) => 3
  | .edit (.mkdir _) => 2
  | .edit (.rm _) => 3
  | .edit (.mv _ _) => 6
  | .save _ => 2

def perform : SharedOp → MountM Unit
  | .edit action => action.perform
  | .save publish => do
      let _ ← JaxFs.save publish
      pure ()

theorem alone_task (op : SharedOp) : op.task.alone op.turns = op.perform := by
  cases op with
  | save publish => exact alone_save publish
  | edit action =>
      cases action with
      | add names data => exact alone_add _ _
      | mkdir names => exact alone_mkdir _
      | rm names => exact alone_rm _
      | mv source target => exact alone_mv _ _

end SharedOp

/-- The operations before their first turns. -/
def sharedMount (state : MountState) (ops : List SharedOp) : Interleaved MountState Task :=
  ⟨state, ops.map SharedOp.task⟩

end

end JaxFs

import JaxFs.Mount

/-!
# Merging mounts

The last part of `mount/mount_inner.rs`: the operations of a chain of versions, the
common ancestor of two chains, and `merge_from`.  The chains are walked through
the blob store without a bound in the source; here the walks take fuel.  What a
merge resolves is applied to the tree only as far as the operations carry it:
missing directories are made, missing files cannot be.
-/

namespace JaxFs

section

variable [P : Primitives]

/-! ## Chains of versions -/

/-- The persisted operations of one version. -/
def persistedLogs (blobs : Blobs) (manifest : Manifest) (secret : Secret) :
    Except Fault (List PathOpLog) :=
  match manifest.opsLog with
  | none => .ok []
  | some opsLink =>
      match getOpsLogFromBlobs blobs opsLink secret with
      | .error fault => .error fault
      | .ok opsLog => .ok [opsLog.rebuildClock]

/-- The loop of `collect_ops_since`, newest version first.  It ends at the
ancestor, at the genesis, or where we have no share. -/
def collectLogs (blobs : Blobs) (secretKey : SecretKey) (ancestorLink : Option Link) :
    ℕ → Link → Except Fault (List PathOpLog)
  | 0, _ => .error .outOfFuel
  | fuel + 1, link =>
      if ancestorLink = some link then .ok []
      else
        match getManifestFromBlobs blobs link with
        | .error fault => .error fault
        | .ok manifest =>
            match getSecretForManifest manifest secretKey with
            | .error (.error .shareNotFound) => .ok []
            | .error fault => .error fault
            | .ok secret =>
                match persistedLogs blobs manifest secret with
                | .error fault => .error fault
                | .ok logs =>
                    match manifest.previous with
                    | none => .ok logs
                    | some prev =>
                        match collectLogs blobs secretKey ancestorLink fuel prev with
                        | .error fault => .error fault
                        | .ok older => .ok (logs ++ older)

/-- The first loop of `find_common_ancestor`: every link of the chain. -/
def chainLinks (blobs : Blobs) : ℕ → Link → Except Fault (List Link)
  | 0, _ => .error .outOfFuel
  | fuel + 1, link =>
      match getManifestFromBlobs blobs link with
      | .error fault => .error fault
      | .ok manifest =>
          match manifest.previous with
          | none => .ok [link]
          | some prev =>
              match chainLinks blobs fuel prev with
              | .error fault => .error fault
              | .ok older => .ok (link :: older)

/-- The second loop: the first link of the other chain that is in the set. -/
def firstShared (blobs : Blobs) (selfChain : List Link) :
    ℕ → Link → Except Fault (Option Link)
  | 0, _ => .error .outOfFuel
  | fuel + 1, link =>
      if link ∈ selfChain then .ok (some link)
      else
        match getManifestFromBlobs blobs link with
        | .error fault => .error fault
        | .ok manifest =>
            match manifest.previous with
            | none => .ok none
            | some prev => firstShared blobs selfChain fuel prev

namespace MountInner

/-- `collect_ops_since`: the logs are merged oldest first, the pending operations
last. -/
def collectOpsSince (inner : MountInner) (blobs : Blobs) (fuel : ℕ)
    (ancestorLink : Option Link) : Except Fault PathOpLog :=
  match collectLogs blobs inner.secretKey ancestorLink fuel inner.link with
  | .error fault => .error fault
  | .ok logs =>
      let pending := if inner.opsLog.isEmpty then [] else [inner.opsLog]
      let allLogs := (pending ++ logs).reverse
      .ok (allLogs.foldl (fun merged log => (merged.merge log).1) PathOpLog.new)

def findCommonAncestor (inner other : MountInner) (blobs : Blobs) (fuel : ℕ) :
    Except Fault (Option Link) :=
  match chainLinks blobs fuel inner.link with
  | .error fault => .error fault
  | .ok selfChain => firstShared blobs selfChain fuel other.link

end MountInner

/-! ## Applying the merged operations -/

/-- `mkdir` where an existing entry is no error. -/
def mkdirIfMissing (path : Path) : MountM Unit := fun state =>
  match (mkdir path).run state with
  | .error (.error (.pathAlreadyExists _)) state' => .ok () state'
  | result => result

theorem run_mkdirIfMissing (path : Path) (state : MountState) :
    (mkdirIfMissing path).run state =
      match (mkdir path).run state with
      | .error (.error (.pathAlreadyExists _)) state' => .ok () state'
      | result => result := rfl

/-- One round of `apply_resolved_state`.  A missing file cannot be made, since an
operation does not hold its secret; it is only recorded. -/
def applyResolved (path : Path) (op : PathOperation) : MountM Unit :=
  let absolute := Path.join [.rootDir] path
  if op.contentLink.isSome then do
    let state ← getThe MountState
    match get state.world.blobs state.inner.entry absolute with
    | .ok _ => pure ()
    | .error (.error (.pathNotFound _)) =>
        modifyInner (fun inner =>
          { inner with opsLog := (inner.opsLog.merge (PathOpLog.fromOperation op)).1 })
    | .error fault => throw fault
  else if op.isDir ∧ op.opType = .mkdir then mkdirIfMissing absolute
  else pure ()

def applyAll : List (Path × PathOperation) → MountM Unit
  | [] => pure ()
  | (path, op) :: rest => do
      applyResolved path op
      applyAll rest

def applyResolvedState (mergedOps : PathOpLog) : MountM Unit :=
  applyAll mergedOps.resolveAll.toList

/-- The histories of both sides since their common ancestor, merged. -/
def mergeHistories (inner incoming : MountInner) (blobs : Blobs) (fuel : ℕ)
    (resolver : ConflictResolver) : Except Fault (PathOpLog × MergeResult) :=
  match inner.findCommonAncestor incoming blobs fuel with
  | .error fault => .error fault
  | .ok ancestor =>
      match inner.collectOpsSince blobs fuel ancestor with
      | .error fault => .error fault
      | .ok localOps =>
          match incoming.collectOpsSince blobs fuel ancestor with
          | .error fault => .error fault
          | .ok incomingOps =>
              .ok (localOps.mergeWithResolver incomingOps resolver inner.peerId)

def mergeFrom (fuel : ℕ) (incoming : MountInner) (resolver : ConflictResolver) :
    MountM (MergeResult × Link) := do
  let state ← getThe MountState
  let (mergedOps, mergeResult) ← EStateM.ofExcept
    (mergeHistories state.inner incoming state.world.blobs fuel resolver)
  applyResolvedState mergedOps
  modifyInner (fun inner => { inner with opsLog := (inner.opsLog.merge mergedOps).1 })
  let (link, _, _) ← save false
  pure (mergeResult, link)

end

end JaxFs

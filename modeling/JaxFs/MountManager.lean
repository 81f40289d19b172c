import JaxFs.MountMerge
import JaxFs.Peer

/-!
# The mount manager

`fuse/mount_manager.rs` of the daemon, as far as a finished sync reaches the live
mounts.  A live mount without operations is replaced by the head of the log; one
with operations is merged with it, saved, and replaced by the head when the merge
fails.  The map of live mounts is iterated in an order that is not specified, so
the order is an argument.
-/

namespace JaxFs

/-! ## Live mounts -/

structure CachedContent where
  data : Bytes
  mimeType : Name

structure CachedAttr where
  size : ℕ
  isDir : Bool
  mimeType : Option Name
  mtime : ℤ

structure CachedDirEntry where
  name : Name
  isDir : Bool

/-- `FileCache`, without its capacity and expiry. -/
structure FileCache where
  content : FinMap Name CachedContent
  attrs : FinMap Name CachedAttr
  dirs : FinMap Name (List CachedDirEntry)

def FileCache.invalidateAll (_ : FileCache) : FileCache :=
  ⟨KeyedMap.empty, KeyedMap.empty, KeyedMap.empty⟩

inductive SyncEvent where
  | bucketUpdated (bucketId : Uuid)
  | mountInvalidated (mountId : Uuid)

/-- A live mount, with the bucket its configuration names. -/
structure LiveMount where
  mount : MountInner
  cache : FileCache
  bucketId : Uuid

structure ManagerState [Primitives] (σ : Type) where
  peer : PeerState σ
  mounts : FinMap Uuid LiveMount
  events : List SyncEvent

/-- The way a live mount was brought up to date. -/
inductive Refresh where
  | reloaded
  | merged (result : MergeResult) (link : Link) (saved : Except MountError Link)
  | mergeFailed (error : MountError)

section

variable [P : Primitives] {σ : Type}

/-- Run a program and go on with its error; a panic is not caught. -/
def attempt {τ α : Type} (x : EStateM Fault τ α) : EStateM Fault τ (Except MountError α) :=
  fun state =>
    match x.run state with
    | .ok a state' => .ok (.ok a) state'
    | .error (.error error) state' => .ok (.error error) state'
    | .error fault state' => .error fault state'

variable [BucketLogProvider σ]

/-! ## Refreshing a mount -/

/-- The mount replaced by the one at the head of the log.  An error stands for
`MountLoad` of it. -/
def reloadMount (env : PeerEnv) (bucketId : Uuid) : PeerM σ Unit := do
  let state ← getThe (PeerMount σ)
  let newMount ← EStateM.ofExcept (state.peer.mountHead env bucketId)
  modify (fun state => { state with inner := newMount })

/-- From the load of the incoming mount on. -/
def mergeHead (env : PeerEnv) (fuel : ℕ) (bucketId : Uuid) : PeerM σ Refresh := do
  let state ← getThe (PeerMount σ)
  let incoming ← EStateM.ofExcept (state.peer.mountHead env bucketId)
  match ← attempt (onMount (mergeFrom fuel incoming (conflictFile 8))) with
  | .ok (result, link) =>
      -- a save that fails is only logged
      let saved ← attempt (saveMount env false)
      pure (.merged result link saved)
  | .error error =>
      reloadMount env bucketId
      pure (.mergeFailed error)

/-- The body of the loop of `on_bucket_synced` on one live mount of the bucket. -/
def refreshMount (env : PeerEnv) (fuel : ℕ) (bucketId : Uuid) : PeerM σ Refresh := do
  let state ← getThe (PeerMount σ)
  if state.inner.opsLog.isEmpty then
    reloadMount env bucketId
    pure .reloaded
  else mergeHead env fuel bucketId

/-! ## All mounts of a bucket -/

abbrev ManagerM (σ : Type) := EStateM Fault (ManagerState σ)

/-- What a refresh does to the manager.  One that fails has written in place. -/
def syncMount (env : PeerEnv) (fuel : ℕ) (bucketId mountId : Uuid) : ManagerM σ Unit :=
  fun state =>
    match state.mounts.get? mountId with
    | none => .ok () state
    | some live =>
        if live.bucketId = bucketId then
          match (refreshMount env fuel bucketId).run ⟨state.peer, live.mount⟩ with
          | .ok _ after => .ok ()
              { peer := after.peer
                mounts := state.mounts.put mountId
                  { live with
                    mount := after.inner
                    cache := live.cache.invalidateAll }
                events := state.events ++ [.mountInvalidated mountId] }
          | .error fault after => .error fault
              { state with
                peer := after.peer
                mounts := state.mounts.put mountId { live with mount := after.inner } }
        else .ok () state

/-- `on_bucket_synced`, over the mounts in the given order. -/
def onBucketSynced (env : PeerEnv) (fuel : ℕ) (bucketId : Uuid) :
    List Uuid → ManagerM σ Unit
  | [] => pure ()
  | mountId :: rest => do
      syncMount env fuel bucketId mountId
      onBucketSynced env fuel bucketId rest

end

end JaxFs

import JaxFs.FuseCoherence
import JaxFs.RefreshMount

/-!
# The daemon and its mounted filesystems

`fuse/mount_manager.rs` and the making of a `JaxFs`: mounts are started, answer the
requests of the kernel, are brought up to date after a sync, and are stopped.  What two
parties share stands in a cell, and each of them holds the place of the cell: an
`Arc<RwLock<Mount>>`, a file cache, a receiver of the sync channel.  A `FileCache` that is
cloned is the same cell, and one that is made with `FileCache::new` is a new one.
-/

namespace JaxFs

open Fuse BucketLogProvider

/-! ## The sync channel -/

/-- The default capacity of `MountManagerConfig`. -/
def syncEventCapacity : ℕ := 256

/-- A receiver of the channel, with the events it has not taken yet and the number of
those it was too late for. -/
structure Receiver where
  pending : List SyncEvent
  missed : ℕ

inductive Received where
  | event (event : SyncEvent)
  | lagged (missed : ℕ)

namespace Receiver

/-- The oldest event gives way to a new one. -/
def push (event : SyncEvent) (receiver : Receiver) : Receiver :=
  if receiver.pending.length < syncEventCapacity then
    { receiver with pending := receiver.pending ++ [event] }
  else ⟨receiver.pending.tail ++ [event], receiver.missed + 1⟩

/-- What `recv` gives until there is nothing left. -/
def received (receiver : Receiver) : List Received :=
  if receiver.missed = 0 then receiver.pending.map Received.event
  else .lagged receiver.missed :: receiver.pending.map Received.event

end Receiver

/-- The thread that `spawn_sync_listener` starts. -/
structure SyncListener where
  cache : ℕ
  mountId : Uuid
  rx : ℕ

def SyncListener.invalidates (listener : SyncListener) : Received → Bool
  | .event (.mountInvalidated id) => decide (id = listener.mountId)
  | .event (.bucketUpdated _) => true
  | .lagged _ => true

/-! ## The state -/

/-- The struct `JaxFs`, with the places of what it shares. -/
structure MountedFs where
  mount : ℕ
  mountId : Uuid
  inodes : InodeTable
  writeBuffers : FinMap ℕ WriteBuffer
  cache : ℕ
  syncRx : Option ℕ
  saveTx : Option (List Uuid)
  readOnly : Bool
  nextFh : ℕ

/-- A row of the table of mounts. -/
structure FuseMount where
  bucketId : Uuid
  readOnly : Bool

/-- The struct `LiveMount`.  The session runs the filesystem that it was spawned with. -/
structure LiveSession where
  mount : ℕ
  session : Option MountedFs
  cache : ℕ
  config : FuseMount

structure Daemon [Primitives] (σ : Type) where
  peer : PeerState σ
  mounts : FinMap Uuid LiveSession
  mountCells : List MountInner
  caches : List FileCache
  receivers : List Receiver
  listeners : List SyncListener

inductive ManagerError where
  | mountNotFound (mountId : Uuid)
  | alreadyRunning (mountId : Uuid)
  | mountLoad (fault : Fault)
  | spawnFailed

section

variable [P : Primitives] {σ : Type}

abbrev DaemonM (σ : Type) := EStateM ManagerError (Daemon σ)

/-- `MountManager::new`. -/
def Daemon.new (peer : PeerState σ) : Daemon σ := ⟨peer, KeyedMap.empty, [], [], [], []⟩

/-! ## Making a filesystem -/

def newMountCell (inner : MountInner) : DaemonM σ ℕ := fun state =>
  .ok state.mountCells.length { state with mountCells := state.mountCells ++ [inner] }

/-- `FileCache::new`. -/
def newFileCache : DaemonM σ ℕ := fun state =>
  .ok state.caches.length { state with caches := state.caches ++ [FileCache.empty] }

def subscribeSyncEvents : DaemonM σ ℕ := fun state =>
  .ok state.receivers.length { state with receivers := state.receivers ++ [⟨[], 0⟩] }

/-- `JaxFs::new`. -/
def newMountedFs (mount : ℕ) (mountId : Uuid) (readOnly : Bool) (syncRx : Option ℕ)
    (saveTx : Option (List Uuid)) : DaemonM σ MountedFs := do
  let cache ← newFileCache
  pure ⟨mount, mountId, InodeTable.new, KeyedMap.empty, cache, syncRx, saveTx, readOnly, 1⟩

/-- `JaxFs::spawn_sync_listener`.  Nothing in the daemon calls it. -/
def spawnSyncListener (fs : MountedFs) (rx : ℕ) : DaemonM σ Unit :=
  modify (fun state =>
    { state with listeners := state.listeners ++ [⟨fs.cache, fs.mountId, rx⟩] })

/-! ## Lifecycle -/

section

variable [BucketLogProvider σ]

/-- `MountManager::start`, with the row of the mount and what becomes of the call that
spawns the session. -/
def start (env : PeerEnv) (row : Option FuseMount) (spawned : Bool) (mountId : Uuid) :
    DaemonM σ Unit := do
  let state ← getThe (Daemon σ)
  match row with
  | none => throw (.mountNotFound mountId)
  | some config =>
      if (state.mounts.get? mountId).any (fun live => live.session.isSome) then
        throw (.alreadyRunning mountId)
      else
        match state.peer.mountHead env config.bucketId with
        | .error fault => throw (.mountLoad fault)
        | .ok bucketMount => do
            let cache ← newFileCache
            let mount ← newMountCell bucketMount
            let syncRx ← subscribeSyncEvents
            let fs ← newMountedFs mount mountId config.readOnly (some syncRx) (some [])
            if spawned then
              modify (fun state =>
                { state with mounts := state.mounts.put mountId ⟨mount, some fs, cache, config⟩ })
            else throw .spawnFailed

end

/-- `MountManager::stop`, whatever becomes of the call that unmounts. -/
def Daemon.stop (state : Daemon σ) (mountId : Uuid) : Daemon σ :=
  match state.mounts.get? mountId with
  | none => state
  | some live =>
      { state with mounts := state.mounts.put mountId { live with session := none } }

/-- `MountManager::delete`. -/
def Daemon.delete (state : Daemon σ) (mountId : Uuid) : Daemon σ :=
  { state.stop mountId with mounts := (state.stop mountId).mounts.erase mountId }

/-! ## Requests of the kernel -/

/-- A filesystem with what stands in its cells. -/
def Daemon.view (state : Daemon σ) (fs : MountedFs) : Option FuseFs :=
  match state.mountCells[fs.mount]?, state.caches[fs.cache]? with
  | some inner, some cache =>
      some ⟨⟨state.peer.world, inner⟩, fs.mountId, fs.inodes, fs.writeBuffers, cache,
        fs.saveTx, fs.readOnly, fs.nextFh⟩
  | _, _ => none

/-- The filesystem that runs for a mount. -/
def Daemon.running (state : Daemon σ) (mountId : Uuid) : Option FuseFs :=
  ((state.mounts.get? mountId).bind LiveSession.session).bind state.view

/-- The daemon after its filesystem has come to the given state. -/
def Daemon.write (state : Daemon σ) (live : LiveSession) (fs : MountedFs)
    (mountId : Uuid) (after : FuseFs) : Daemon σ :=
  { state with
    peer := { state.peer with world := after.mount.world }
    mountCells := state.mountCells.set fs.mount after.mount.inner
    caches := state.caches.set fs.cache after.cache
    mounts := state.mounts.put mountId
      { live with
        session := some
          { fs with
            inodes := after.inodes
            writeBuffers := after.writeBuffers
            saveTx := after.saveTx
            nextFh := after.nextFh } } }

def Daemon.serve (state : Daemon σ) (mountId : Uuid) (request : FuseM Unit) : Daemon σ :=
  match state.mounts.get? mountId with
  | none => state
  | some live =>
      match live.session with
      | none => state
      | some fs =>
          match state.view fs with
          | none => state
          | some before => state.write live fs mountId (request.run before).state

/-! ## Syncs -/

def Daemon.send (state : Daemon σ) (event : SyncEvent) : Daemon σ :=
  { state with receivers := state.receivers.map (Receiver.push event) }

def Daemon.invalidateAll (state : Daemon σ) (cache : ℕ) : Daemon σ :=
  { state with caches := state.caches.modify cache FileCache.invalidateAll }

/-- The peer and the mount in a cell, as a refresh left them. -/
def Daemon.refreshed (state : Daemon σ) (mount : ℕ) (after : PeerMount σ) : Daemon σ :=
  { state with
    peer := after.peer
    mountCells := state.mountCells.set mount after.inner }

section

variable [BucketLogProvider σ]

/-- The body of the loop of `on_bucket_synced`. -/
def syncLive (env : PeerEnv) (fuel : ℕ) (bucketId mountId : Uuid) : DaemonM σ Unit :=
  fun state =>
    match state.mounts.get? mountId with
    | none => .ok () state
    | some live =>
        if live.config.bucketId = bucketId then
          match state.mountCells[live.mount]? with
          | none => .ok () state
          | some inner =>
              match (refreshMount env fuel bucketId).run ⟨state.peer, inner⟩ with
              | .ok _ after =>
                  .ok () (((state.refreshed live.mount after).invalidateAll live.cache).send
                    (.mountInvalidated mountId))
              | .error fault after =>
                  .error (.mountLoad fault) (state.refreshed live.mount after)
        else .ok () state

/-- `on_bucket_synced`, over the live mounts in the given order. -/
def bucketSynced (env : PeerEnv) (fuel : ℕ) (bucketId : Uuid) : List Uuid → DaemonM σ Unit
  | [] => pure ()
  | mountId :: rest => do
      syncLive env fuel bucketId mountId
      bucketSynced env fuel bucketId rest

end

/-- A listener takes all that its receiver has for it. -/
def Daemon.listen (state : Daemon σ) (listener : SyncListener) : Daemon σ :=
  match state.receivers[listener.rx]? with
  | none => state
  | some receiver =>
      { state with
        caches := (receiver.received.filter listener.invalidates).foldl
          (fun caches _ => caches.modify listener.cache FileCache.invalidateAll) state.caches
        receivers := state.receivers.set listener.rx ⟨[], 0⟩ }

/-- All events are delivered. -/
def Daemon.deliver (state : Daemon σ) : Daemon σ :=
  state.listeners.foldl Daemon.listen state

/-! ## Steps -/

/-- What can happen to the daemon.  The peer and the mounts are also changed by all that
is not modelled here, such as the tasks that save.  Cached entries can go at any time. -/
inductive DaemonAction (σ : Type) where
  | start (row : Option FuseMount) (spawned : Bool) (mountId : Uuid)
  | stop (mountId : Uuid)
  | delete (mountId : Uuid)
  | request (mountId : Uuid) (now : ℤ) (request : Fuse.Request)
  | setattr (mountId : Uuid) (now : ℤ) (ino : ℕ) (size : Option ℕ) (mtime : Option ℤ)
      (fh : Option ℕ)
  | bucketSynced (fuel : ℕ) (bucketId : Uuid) (order : List Uuid)
  | deliver
  | others (peer : PeerState σ) (mountCells : List MountInner)
  | cached (caches : List FileCache)

def Daemon.step [BucketLogProvider σ] (env : PeerEnv) (state : Daemon σ) :
    DaemonAction σ → Daemon σ
  | .start row spawned mountId => ((JaxFs.start env row spawned mountId).run state).state
  | .stop mountId => state.stop mountId
  | .delete mountId => state.delete mountId
  | .request mountId now request => state.serve mountId (request.perform now)
  | .setattr mountId now ino size mtime fh =>
      state.serve mountId (discard (Fuse.setattr now ino size mtime fh))
  | .bucketSynced fuel bucketId order =>
      ((JaxFs.bucketSynced env fuel bucketId order).run state).state
  | .deliver => state.deliver
  | .others peer mountCells =>
      if mountCells.length = state.mountCells.length then
        { state with peer := peer, mountCells := mountCells }
      else state
  | .cached caches =>
      if caches.length = state.caches.length then { state with caches := caches } else state

end

end JaxFs

import JaxFs.Interleaving
import JaxFs.MountTable
import JaxFs.Ownership

/-!
# The lifecycle of mounts

`fuse/mount_manager.rs` of the daemon as the requests for it run side by side.  A request is
a task of calls, and a call stops wherever the source waits for the database, for the peer
or for the lock of the live mounts, so that other tasks may have their turns there.  A FUSE
session is owned by a thread of its own, which ends when its handle is dropped; the handle
is in the hands of the task that has spawned the session until a live mount takes it.
-/

namespace JaxFs

/-- The enum `MountError` of the mount manager. -/
inductive MountManagerError where
  | database (message : String)
  | bucketNotFound (bucketId : Uuid)
  | mountNotFound (mountId : Uuid)
  | mountPointNotFound (message : String)
  | mountPointNotDirectory (mountPoint : Name)
  | alreadyRunning (mountId : Uuid)
  | mountLoad (message : String)
  | spawnFailed (message : String)
  | unmountFailed (message : String)

def MountManagerError.display : MountManagerError → String
  | .database message => "database error: " ++ message
  | .bucketNotFound bucketId => "bucket not found: " ++ bucketId.display
  | .mountNotFound mountId => "mount not found: " ++ mountId.display
  | .mountPointNotFound message => "mount point not found: " ++ message
  | .mountPointNotDirectory mountPoint =>
      "mount point is not a directory: " ++ String.ofList mountPoint
  | .alreadyRunning mountId => "mount already running: " ++ mountId.display
  | .mountLoad message => "failed to load bucket mount: " ++ message
  | .spawnFailed message => "failed to spawn FUSE process: " ++ message
  | .unmountFailed message => "failed to unmount: " ++ message

/-- The struct `LiveMount`, with the number of its session. -/
structure LiveHandle where
  session : Option ℕ
  config : FuseMountRow

/-- The table, the live mounts, and the threads that own a session, with the path that it is
mounted at. -/
structure MountManager where
  table : FuseMounts
  mounts : FinMap Uuid LiveHandle
  sessions : FinMap ℕ Name
  spawned : ℕ

namespace MountManager

/-! ## What a manager does between two stops -/

/-- `MountManager::new`. -/
def new (table : FuseMounts) : MountManager := ⟨table, KeyedMap.empty, KeyedMap.empty, 0⟩

def running (manager : MountManager) (id : Uuid) : Bool :=
  (manager.mounts.get? id).any (fun live => live.session.isSome)

def setStatus (manager : MountManager) (id : Uuid) (status : MountStatus)
    (errorMessage : Option String) : MountManager :=
  { manager with table := manager.table.updateStatus id status errorMessage }

/-- The threads that are left when a handle has been dropped. -/
def sessionsWithout (manager : MountManager) (dropped : Option ℕ) : FinMap ℕ Name :=
  match dropped with
  | none => manager.sessions
  | some session => manager.sessions.erase session

/-- The session that a live mount holds. -/
def sessionOf (manager : MountManager) (id : Uuid) : Option ℕ :=
  (manager.mounts.get? id).bind LiveHandle.session

/-- A session is spawned at the mount point. -/
def spawn (manager : MountManager) (config : FuseMountRow) : MountManager :=
  { manager with
    sessions := manager.sessions.put manager.spawned config.mountPoint
    spawned := manager.spawned + 1 }

/-- The live mount is stored; the one that it replaces is dropped. -/
def store (manager : MountManager) (id : Uuid) (live : LiveHandle) : MountManager :=
  { manager with
    mounts := manager.mounts.put id live
    sessions := manager.sessionsWithout (manager.sessionOf id) }

/-- The session of the live mount is taken from it. -/
def takeSession (manager : MountManager) (id : Uuid) : MountManager :=
  match manager.mounts.get? id with
  | none => manager
  | some live => manager.store id { live with session := none }

def remove (manager : MountManager) (id : Uuid) : MountManager :=
  { manager with
    mounts := manager.mounts.erase id
    sessions := manager.sessionsWithout (manager.sessionOf id) }

/-! ## Calls -/

inductive PathKind where
  | directory
  | other
  | absent (createError : Option String)

/-- The checks of `create_mount` on the mount point, which is made when it is not there. -/
def checkMountPoint (mountPoint : Name) : PathKind → Option MountManagerError
  | .directory => none
  | .other => some (.mountPointNotDirectory mountPoint)
  | .absent none => none
  | .absent (some error) =>
      some (.mountPointNotFound
        (String.ofList mountPoint ++ " (failed to create: " ++ error ++ ")"))

/-- What a turn meets outside of the manager: the error of the query, of the load of the
bucket, of the spawn and of the command that unmounts, if they fail, the bucket and the path
of a new mount, its identifier and the time, and the order of the map of live mounts. -/
structure Outside where
  query : Option String
  bucketKnown : Bool
  mountPath : PathKind
  mountId : Uuid
  now : ℕ
  load : Option String
  spawn : Option String
  unmount : Option String
  order : List Uuid

inductive CreatePoint where
  | check
  | insert
  | get (mountId : Uuid)

inductive UpdatePoint where
  | get
  | write (existing : FuseMountRow)
  | reread

inductive StartPoint where
  | get
  | check (config : FuseMountRow)
  | starting (config : FuseMountRow)
  | load (config : FuseMountRow)
  | insert (config : FuseMountRow) (session : ℕ)
  | running (config : FuseMountRow)

inductive StopPoint where
  | stopping
  | take
  | unmount (mountPoint : Name)
  | stopped

/-- A call and where it has stopped.  A start of the loop of `start_auto` goes on with the
error when it fails. -/
inductive Call where
  | createMount (newMount : NewMount) (point : CreatePoint)
  | update (id : Uuid) (changes : MountChanges) (point : UpdatePoint)
  | start (id : Uuid) (auto : Bool) (point : StartPoint)
  | setError (id : Uuid) (error : MountManagerError)
  | stop (id : Uuid) (point : StopPoint)
  | remove (id : Uuid)
  | deleteRow (id : Uuid)
  | startAuto
  | stopAll

inductive Answer where
  | done
  | deleted (deleted : Bool)
  | row (row : Option FuseMountRow)

/-- What has become of a call after a turn: the calls that it goes on with, and what has been
returned. -/
structure Progress where
  manager : MountManager
  calls : List Call
  results : List (Except MountManagerError Answer)

namespace Progress

def goOn (manager : MountManager) (call : Call) : Progress := ⟨manager, [call], []⟩

def finish (manager : MountManager) (result : Except MountManagerError Answer) : Progress :=
  ⟨manager, [], [result]⟩

end Progress

section

variable (outside : Outside) (manager : MountManager)

/-- A query that may fail. -/
def query (go : Progress) (fail : MountManagerError → Progress) : Progress :=
  match outside.query with
  | none => go
  | some message => fail (.database message)

def createTurn (newMount : NewMount) : CreatePoint → Progress
  | .check =>
      query outside
        (if outside.bucketKnown then
          match checkMountPoint newMount.mountPoint outside.mountPath with
          | none => .goOn manager (.createMount newMount .insert)
          | some error => .finish manager (.error error)
        else .finish manager (.error (.bucketNotFound newMount.bucketId)))
        (fun error => .finish manager (.error error))
  | .insert =>
      query outside
        (match manager.table.insert (newMount.row outside.mountId outside.now) with
        | .ok table =>
            .goOn { manager with table := table } (.createMount newMount (.get outside.mountId))
        | .error message => .finish manager (.error (.database message)))
        (fun error => .finish manager (.error error))
  | .get mountId =>
      query outside
        (match manager.table.get mountId with
        | some row => .finish manager (.ok (.row (some row)))
        | none => .finish manager (.error (.database
            "no rows returned by a query that expected to return at least one row")))
        (fun error => .finish manager (.error error))

def updateTurn (id : Uuid) (changes : MountChanges) : UpdatePoint → Progress
  | .get =>
      query outside
        (match manager.table.get id with
        | none => .finish manager (.ok (.row none))
        | some existing => .goOn manager (.update id changes (.write existing)))
        (fun error => .finish manager (.error error))
  | .write existing =>
      query outside
        (match manager.table.update existing changes with
        | .ok table => .goOn { manager with table := table } (.update id changes .reread)
        | .error message => .finish manager (.error (.database message)))
        (fun error => .finish manager (.error error))
  | .reread =>
      query outside (.finish manager (.ok (.row (manager.table.get id))))
        (fun error => .finish manager (.error error))

/-- A start that has failed. -/
def startFailed (id : Uuid) (auto : Bool) (error : MountManagerError) : Progress :=
  ⟨manager, if auto then [.setError id error] else [], [.error error]⟩

def startTurn (id : Uuid) (auto : Bool) : StartPoint → Progress
  | .get =>
      query outside
        (match manager.table.get id with
        | none => manager.startFailed id auto (.mountNotFound id)
        | some config => .goOn manager (.start id auto (.check config)))
        (manager.startFailed id auto)
  | .check config =>
      if manager.running id then manager.startFailed id auto (.alreadyRunning id)
      else .goOn manager (.start id auto (.starting config))
  | .starting config =>
      query outside (.goOn (manager.setStatus id .starting none) (.start id auto (.load config)))
        (manager.startFailed id auto)
  | .load config =>
      match outside.load, outside.spawn with
      | some error, _ => manager.startFailed id auto (.mountLoad error)
      | none, some error =>
          manager.startFailed id auto (.spawnFailed ("Failed to mount at " ++
            String.ofList config.mountPoint ++ ": " ++ error))
      | none, none =>
          .goOn (manager.spawn config) (.start id auto (.insert config manager.spawned))
  | .insert config session =>
      .goOn (manager.store id ⟨some session, config⟩) (.start id auto (.running config))
  | .running _ =>
      query outside (.finish (manager.setStatus id .running none) (.ok .done))
        (manager.startFailed id auto)

def stopTurn (id : Uuid) : StopPoint → Progress
  | .stopping =>
      query outside (.goOn (manager.setStatus id .stopping none) (.stop id .take))
        (fun _ => .goOn manager (.stop id .take))
  | .take =>
      match manager.mounts.get? id with
      | some live => .goOn (manager.takeSession id) (.stop id (.unmount live.config.mountPoint))
      | none =>
          query outside
            (match manager.table.get id with
            | some config => .goOn manager (.stop id (.unmount config.mountPoint))
            | none => .finish manager (.ok .done))
            (fun _ => .finish manager (.ok .done))
  | .unmount _ =>
      match outside.unmount with
      | some error => .finish manager (.error (.unmountFailed error))
      | none => .goOn manager (.stop id .stopped)
  | .stopped =>
      query outside (.finish (manager.setStatus id .stopped none) (.ok .done))
        (fun error => .finish manager (.error error))

/-- The identifiers of the live mounts, in the order of the map. -/
def liveIds : List Uuid :=
  let ids := manager.mounts.toList.map Prod.fst
  if outside.order.Perm ids then outside.order else ids

def Call.turn : Call → Progress
  | .createMount newMount point => createTurn outside manager newMount point
  | .update id changes point => updateTurn outside manager id changes point
  | .start id auto point => startTurn outside manager id auto point
  | .setError id error =>
      query outside ⟨manager.setStatus id .error (some error.display), [], []⟩
        (fun _ => ⟨manager, [], []⟩)
  | .stop id point => stopTurn outside manager id point
  | .remove id => ⟨manager.remove id, [], []⟩
  | .deleteRow id =>
      query outside
        (.finish { manager with table := (manager.table.delete id).1 }
          (.ok (.deleted (manager.table.delete id).2)))
        (fun error => .finish manager (.error error))
  | .startAuto =>
      query outside
        ⟨manager, manager.table.autoList.map (fun row => .start row.mountId true .get), []⟩
        (fun error => .finish manager (.error error))
  | .stopAll => ⟨manager, (manager.liveIds outside).map (fun id => .stop id .stopping), []⟩

end

/-! ## Tasks -/

inductive MountRequest where
  | createMount (newMount : NewMount)
  | update (id : Uuid) (changes : MountChanges)
  | start (id : Uuid)
  | stop (id : Uuid)
  | delete (id : Uuid)
  | startAuto
  | stopAll

/-- The calls of a request.  A `delete` goes on whatever its `stop` returns. -/
def MountRequest.calls : MountRequest → List Call
  | .createMount newMount => [.createMount newMount .check]
  | .update id changes => [.update id changes .get]
  | .start id => [.start id false .get]
  | .stop id => [.stop id .stopping]
  | .delete id => [.stop id .stopping, .remove id, .deleteRow id]
  | .startAuto => [.startAuto]
  | .stopAll => [.stopAll]

end MountManager

/-- The calls that are left of a request, the one that runs first, and what they have
returned so far. -/
structure MountTask where
  calls : List MountManager.Call
  results : List (Except MountManagerError MountManager.Answer)

def MountTask.turn (outside : MountManager.Outside) (manager : MountManager) (task : MountTask) :
    MountManager × MountTask :=
  match task.calls with
  | [] => (manager, task)
  | call :: rest =>
      let progress := call.turn outside manager
      (progress.manager, ⟨progress.calls ++ rest, task.results ++ progress.results⟩)

/-- A manager with the requests that have come in so far. -/
abbrev MountDaemon := Interleaved MountManager MountTask

namespace MountDaemon

inductive Action where
  | request (request : MountManager.MountRequest)
  | turn (number : ℕ) (outside : MountManager.Outside)

/-- A daemon that comes up with a table. -/
def boot (table : FuseMounts) : MountDaemon := ⟨MountManager.new table, []⟩

def step (daemon : MountDaemon) : Action → MountDaemon
  | .request request => { daemon with tasks := daemon.tasks ++ [⟨request.calls, []⟩] }
  | .turn number outside => daemon.turn (MountTask.turn outside) number

def run (daemon : MountDaemon) (actions : List Action) : MountDaemon :=
  actions.foldl step daemon

end MountDaemon

end JaxFs

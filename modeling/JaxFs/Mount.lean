import JaxFs.MountTree
import JaxFs.MergeWithResolver

/-!
# Mounts

`mount/mount_inner.rs`: the state behind a mount and the operations on it.  A
failed operation keeps what it had already written, to the blob store and to the
mount.  Here an operation runs to its end, as if nothing else had the mount in the
meantime.
-/

namespace JaxFs

structure MountInner where
  link : Link
  manifest : Manifest
  entry : Node
  pins : Pins
  height : ℕ
  opsLog : PathOpLog
  peerId : PublicKey
  secretKey : SecretKey

namespace MountInner

def recordOp (inner : MountInner) (opType : OpType) (path : Path)
    (contentLink : Option Link) (isDir : Bool) : MountInner :=
  { inner with
    opsLog := (inner.opsLog.record inner.peerId opType path contentLink isDir).2 }

def addPins (inner : MountInner) (hashes : List Hash) : MountInner :=
  { inner with pins := inner.pins.extend hashes }

def setEntryNode (inner : MountInner) (entry : Node) : MountInner :=
  { inner with entry := entry }

end MountInner

structure MountState [Primitives] where
  world : World
  inner : MountInner

section

variable [P : Primitives]

abbrev MountM := EStateM Fault MountState

/-- An operation on the blob store. -/
def onBlobs {α : Type} (x : BlobM α) : MountM α :=
  EStateM.zoom MountState.world (fun state world => { state with world := world }) x

def modifyInner (f : MountInner → MountInner) : MountM Unit :=
  modify (fun state => { state with inner := f state.inner })

/-- A read of the blob store. -/
def readBlobs {α : Type} (x : Blobs → Except Fault α) : MountM α := do
  let state ← getThe MountState
  EStateM.ofExcept (x state.world.blobs)

theorem run_onBlobs_of_ok {α : Type} {x : BlobM α} {state : MountState} {a : α}
    {world' : World} (h : x.run state.world = .ok a world') :
    (onBlobs x).run state = .ok a { state with world := world' } :=
  EStateM.run_zoom_of_ok h

theorem run_onBlobs_of_error {α : Type} {x : BlobM α} {state : MountState} {fault : Fault}
    {world' : World} (h : x.run state.world = .error fault world') :
    (onBlobs x).run state = .error fault { state with world := world' } :=
  EStateM.run_zoom_of_error h

theorem run_getThe_bind {α : Type} (f : MountState → MountM α) (state : MountState) :
    (getThe MountState >>= f).run state = (f state).run state := rfl

theorem run_readBlobs_of_ok {α : Type} {x : Blobs → Except Fault α} {state : MountState}
    {a : α} (h : x state.world.blobs = .ok a) : (readBlobs x).run state = .ok a state := by
  rw [readBlobs, run_getThe_bind, h]
  rfl

theorem run_readBlobs_of_error {α : Type} {x : Blobs → Except Fault α}
    {state : MountState} {fault : Fault} (h : x state.world.blobs = .error fault) :
    (readBlobs x).run state = .error fault state := by
  rw [readBlobs, run_getThe_bind, h]
  rfl

/-! ## Versions -/

def putPinsInBlobs (pins : Pins) : BlobM Link := do
  let hash ← createHashList pins.toList
  pure ⟨ldRawCodec, hash⟩

def putManifestInBlobs (manifest : Manifest) : BlobM Link := do
  let hash ← put (P.encodeManifest manifest)
  pure ⟨ldCborCodec, hash⟩

def putOpsLogInBlobs (opsLog : PathOpLog) (secret : Secret) : BlobM Link := do
  let data ← encryptData secret (P.encodeOperations opsLog.operations)
  let hash ← put data
  pure ⟨ldRawCodec, hash⟩

def getManifestFromBlobs (blobs : Blobs) (link : Link) : Except Fault Manifest :=
  match blobs link.hash with
  | none => .error (.error (.linkNotFound link))
  | some data =>
      match P.decodeManifest data with
      | none => .error (.error .codec)
      | some manifest => .ok manifest

def getPinsFromBlobs (blobs : Blobs) (link : Link) : Except Fault Pins :=
  match blobs link.hash with
  | none => .error (.error (.linkNotFound link))
  | some _ => (readHashList blobs link.hash).map Pins.fromVec

def getOpsLogFromBlobs (blobs : Blobs) (link : Link) (secret : Secret) :
    Except Fault PathOpLog :=
  match blobs link.hash with
  | none => .error (.error (.linkNotFound link))
  | some blob =>
      match secret.decrypt blob with
      | none => .error (.error .secret)
      | some data =>
          match P.decodeOperations data with
          | none => .error (.error .codec)
          | some operations => .ok ⟨operations, 0⟩

/-- `get_secret_for_manifest`: owners unwrap their share, mirrors need the
published secret. -/
def getSecretForManifest (manifest : Manifest) (secretKey : SecretKey) :
    Except Fault Secret :=
  match manifest.getShare (P.publicKey secretKey) with
  | none => .error (.error .shareNotFound)
  | some share =>
      match share.role with
      | .owner =>
          match share.share with
          | none => .error (.error .shareNotFound)
          | some secretShare => secretShare.recover secretKey
      | .mirror =>
          match manifest.public with
          | none => .error (.error .mirrorCannotMount)
          | some secret => .ok secret

/-- The persisted log of a version, with its clock rebuilt. -/
def loadOpsLog (blobs : Blobs) (opsLink : Option Link) (secret : Secret) :
    Except Fault PathOpLog :=
  match opsLink with
  | none => .ok PathOpLog.new
  | some link => (getOpsLogFromBlobs blobs link secret).map PathOpLog.rebuildClock

def load (blobs : Blobs) (link : Link) (secretKey : SecretKey) :
    Except Fault MountInner := do
  let manifest ← getManifestFromBlobs blobs link
  let secret ← getSecretForManifest manifest secretKey
  let pins ← getPinsFromBlobs blobs manifest.pins
  let entry ← getNodeFromBlobs blobs (.dir manifest.entry secret)
  let opsLog ← loadOpsLog blobs manifest.opsLog secret
  pure
    { link := link
      manifest := manifest
      entry := entry
      pins := pins
      height := manifest.height
      opsLog := opsLog
      peerId := P.publicKey secretKey
      secretKey := secretKey }

def init (id : Uuid) (name : Name) (owner : SecretKey) : BlobM MountInner := do
  let secret ← generateSecret
  let entryLink ← putNodeInBlobs Node.default secret
  let share ← newSecretShare secret (P.publicKey owner)
  let pins := Pins.extend KeyedMap.empty [entryLink.hash]
  let pinsLink ← putPinsInBlobs pins
  let manifest := (Manifest.new id name (P.publicKey owner) share entryLink pinsLink
    0).sign owner
  let link ← putManifestInBlobs manifest
  pure
    { link := link
      manifest := manifest
      entry := Node.default
      pins := pins
      height := 0
      opsLog := PathOpLog.new
      peerId := P.publicKey owner
      secretKey := owner }

/-- The loop that wraps the new secret for every owner, in key order. -/
def rewrapShares (secret : Secret) : List (Name × Share) → Shares → BlobM Shares
  | [], shares => pure shares
  | (key, share) :: rest, shares =>
      if share.role = .owner then do
        let secretShare ← newSecretShare secret share.principal.identity
        rewrapShares secret rest (shares.put key (share.setShare secretShare))
      else rewrapShares secret rest shares

/-- The operation log is stored only when it holds an operation. -/
def saveOpsLog (opsLog : PathOpLog) (secret : Secret) : BlobM (Option Link) :=
  if opsLog.isEmpty then pure none
  else do
    let link ← putOpsLogInBlobs opsLog secret
    pure (some link)

/-- The part of `save` that works on copies: everything it stores, and the new
manifest with its link. -/
def saveVersion (inner : MountInner) (publish : Bool) : BlobM (Manifest × Link) := do
  let secret ← generateSecret
  let entry ← putNodeInBlobs inner.entry secret
  let pins := inner.pins.extend [entry.hash, inner.link.hash]
  let opsLogLink ← saveOpsLog inner.opsLog secret
  let pins := pins.extend (opsLogLink.map Link.hash).toList
  let pinsLink ← putPinsInBlobs pins
  let shares ← rewrapShares secret inner.manifest.shares.toList inner.manifest.shares
  let manifest := { inner.manifest with shares := shares }
  let manifest := if publish then manifest.publish secret else manifest.unpublish
  let manifest := (((manifest.setPins pinsLink).setPrevious inner.link).setEntry
    entry).setHeight (inner.height + 1)
  let manifest := manifest.clearOpsLog
  let manifest := match opsLogLink with
    | some link => manifest.setOpsLog link
    | none => manifest
  let manifest := manifest.sign inner.secretKey
  let link ← putManifestInBlobs manifest
  pure (manifest, link)

/-- `Mount::save`: the new link, the previous one and the new height. -/
def save (publish : Bool) : MountM (Link × Link × ℕ) := do
  let state ← getThe MountState
  let (manifest, link) ← onBlobs (saveVersion state.inner publish)
  modifyInner (fun inner =>
    { inner with
      manifest := manifest
      height := state.inner.height + 1
      link := link
      opsLog := inner.opsLog.clearPreservingClock })
  pure (link, state.inner.link, state.inner.height + 1)

/-! ## Principals -/

/-- The share wraps a placeholder until the next save wraps the secret of its version. -/
def addOwner (peer : PublicKey) : MountM Unit := do
  let secretShare ← onBlobs (newSecretShare Secret.default peer)
  modifyInner (fun inner =>
    { inner with manifest := inner.manifest.addShare (Share.newOwner secretShare peer) })

def addMirror (peer : PublicKey) : MountM Unit :=
  modifyInner (fun inner =>
    { inner with manifest := inner.manifest.addShare (Share.newMirror peer) })

/-! ## Operations on paths -/

/-- The root that a rewrite of the tree left behind, when it is a directory. -/
def reloadRoot (updatedLink : NodeLink) : MountM (Option Node) :=
  match updatedLink with
  | .dir link secret => do
      let entry ← readBlobs (fun blobs => getNodeFromBlobs blobs (.dir link secret))
      pure (some entry)
  | .data _ _ _ => pure none

def add (path : Path) (data : Bytes) : MountM Unit := do
  let secret ← onBlobs generateSecret
  let encrypted ← onBlobs (encryptData secret data)
  let hash ← onBlobs (put encrypted)
  let link : Link := ⟨ldRawCodec, hash⟩
  let nodeLink := NodeLink.data link secret (P.mimeFromPath path)
  let state ← getThe MountState
  let (updatedLink, nodeHashes) ←
    onBlobs (setNodeLinkAtPath state.inner.entry nodeLink path)
  let newEntry ← reloadRoot updatedLink
  let cleaned ← EStateM.ofExcept (cleanPath path)
  modifyInner (fun inner =>
    let inner := inner.addPins (hash :: nodeHashes)
    let inner := inner.setEntryNode (newEntry.getD inner.entry)
    inner.recordOp .add cleaned (some link) false)

/-- The parent of a path without the entry `name`, written back into the tree.
This is the common part of `rm` and of the removal in `mv`. -/
def replaceParent (entry : Node) (parentPath : Path) (parentNode : Node) :
    MountM Unit :=
  if parentPath = [] then do
    let secret ← onBlobs generateSecret
    let link ← onBlobs (putNodeInBlobs parentNode secret)
    modifyInner (fun inner => (inner.addPins [link.hash]).setEntryNode parentNode)
  else do
    let secret ← onBlobs generateSecret
    let parentLink ← onBlobs (putNodeInBlobs parentNode secret)
    let (updatedLink, nodeHashes) ← onBlobs
      (setNodeLinkAtPath entry (.dir parentLink secret) (.rootDir :: parentPath))
    let newEntry ← reloadRoot updatedLink
    modifyInner (fun inner =>
      let inner := inner.addPins (parentLink.hash :: nodeHashes)
      inner.setEntryNode (newEntry.getD inner.entry))

def rm (path : Path) : MountM Unit := do
  let path ← EStateM.ofExcept (cleanPath path)
  match path.parent with
  | none => throw (.error (.default "Cannot remove root"))
  | some parentPath =>
      let state ← getThe MountState
      let parentNode ←
        readBlobs (fun blobs => getParentNode blobs state.inner.entry parentPath)
      match path.fileName with
      | none => throw .panic
      | some fileName =>
          match parentNode.del fileName with
          | (none, _) => throw (.error (.pathNotFound path))
          | (some removedLink, parentNode) =>
              replaceParent state.inner.entry parentPath parentNode
              modifyInner (fun inner =>
                inner.recordOp .remove path none removedLink.isDir)

/-- The parent of a directory to be made: missing ones will be created. -/
def mkdirParent (blobs : Blobs) (entry : Node) (parentPath : Path) :
    Except Fault Node :=
  if parentPath = [] then .ok entry
  else
    match getNodeAtPath blobs entry parentPath with
    | .error (.error (.pathNotFound _)) => .ok Node.default
    | result => result

def mkdir (path : Path) : MountM Unit := do
  let path ← EStateM.ofExcept (cleanPath path)
  let state ← getThe MountState
  match ← EStateM.ofExcept (parentAndName path) with
  | none => throw (.error (.default "Cannot mkdir at root"))
  | some (parentPath, dirName) =>
      let parentNode ←
        readBlobs (fun blobs => mkdirParent blobs state.inner.entry parentPath)
      if (parentNode.getLink dirName).isSome then
        throw (.error (.pathAlreadyExists (.rootDir :: path)))
      else do
        let secret ← onBlobs generateSecret
        let dirLink ← onBlobs (putNodeInBlobs Node.default secret)
        let (updatedLink, nodeHashes) ← onBlobs
          (setNodeLinkAtPath state.inner.entry (.dir dirLink secret) (.rootDir :: path))
        let newEntry ← reloadRoot updatedLink
        modifyInner (fun inner =>
          let inner := inner.addPins (dirLink.hash :: nodeHashes)
          let inner := inner.setEntryNode (newEntry.getD inner.entry)
          inner.recordOp .mkdir path none true)

/-- The second half of `mv`: the moved link at the destination. -/
def mvInsert (nodeLink : NodeLink) (sourceClean target targetClean : Path) :
    MountM Unit := do
  let state ← getThe MountState
  let (updatedLink, nodeHashes) ← onBlobs
    (setNodeLinkAtPath state.inner.entry nodeLink target)
  let newEntry ← readBlobs (fun blobs => getNodeFromBlobs blobs updatedLink)
  modifyInner (fun inner =>
    let inner := inner.addPins nodeHashes
    let inner := inner.setEntryNode newEntry
    inner.recordOp (.mv sourceClean) targetClean none nodeLink.isDir)

def mv (source target : Path) : MountM Unit := do
  let sourceClean ← EStateM.ofExcept (cleanPath source)
  let targetClean ← EStateM.ofExcept (cleanPath target)
  if target.startsWith source then throw (.error (.moveIntoSelf source target))
  else do
    let state ← getThe MountState
    let nodeLink ← readBlobs (fun blobs => get blobs state.inner.entry source)
    match get state.world.blobs state.inner.entry target with
    | .ok _ => throw (.error (.pathAlreadyExists target))
    -- every error of the lookup counts as a free destination
    | .error (.error _) =>
        match sourceClean.parent with
        | none => throw (.error (.default "Cannot move root"))
        | some parentPath =>
            let parentNode ←
              readBlobs (fun blobs => getParentNode blobs state.inner.entry parentPath)
            match sourceClean.fileName with
            | none => throw .panic
            | some fileName =>
                match parentNode.del fileName with
                | (none, _) => throw (.error (.pathNotFound sourceClean))
                | (some _, parentNode) =>
                    -- the source is gone from the mount before the insertion is tried
                    replaceParent state.inner.entry parentPath parentNode
                    mvInsert nodeLink sourceClean target targetClean
    | .error fault => throw fault

end

end JaxFs

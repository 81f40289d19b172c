import JaxFs.Mount
import JaxFs.SyncBucket

/-!
# Peers

`peer/peer_inner.rs`: loading the mount at the head of a bucket's log, and saving a
mount.  A save writes the new version to the blob store and moves the mount on to
it, then appends it to the log, then tells the other principals.
-/

namespace JaxFs

open BucketLogProvider

section

variable [P : Primitives] {σ : Type}

/-- `PublicKey::from_hex`.  Bytes that are no point of the curve panic. -/
def PublicKey.fromHex (hex : Name) : Except Fault PublicKey :=
  let digits := if List.isPrefixOf ['0', 'x'] hex then hex.drop 2 else hex
  match hexDecode digits with
  | none => .error (.error (.default "public key hex decode error"))
  | some bytes =>
      if bytes.length ≠ 32 then
        .error (.error (.default "public key hex decode error"))
      else if P.isPoint bytes then .ok ⟨bytes⟩
      else .error .panic

/-- A peer and one mount on its store. -/
structure PeerMount (σ : Type) where
  peer : PeerState σ
  inner : MountInner

abbrev PeerM (σ : Type) := EStateM Fault (PeerMount σ)

def PeerMount.mount (state : PeerMount σ) : MountState := ⟨state.peer.world, state.inner⟩

def PeerMount.setMount (state : PeerMount σ) (mount : MountState) : PeerMount σ :=
  ⟨{ state.peer with world := mount.world }, mount.inner⟩

theorem run_getPeer_bind {α : Type} (f : PeerMount σ → PeerM σ α) (state : PeerMount σ) :
    (getThe (PeerMount σ) >>= f).run state = (f state).run state := rfl

/-- An operation on the mount. -/
def onMount {α : Type} (x : MountM α) : PeerM σ α :=
  EStateM.zoom PeerMount.mount PeerMount.setMount x

/-- A dispatch whose failure is only logged. -/
def tryDispatch (env : PeerEnv) (job : SyncJob) : PeerM σ Unit :=
  modify (fun state => { state with peer := ((dispatch env job).run state.peer).state })

/-- The loop of `save_mount` over the keys of the shares. -/
def pingShares (env : PeerEnv) (bucketId : Uuid) : List Name → PeerM σ Unit
  | [] => pure ()
  | peerKeyHex :: rest =>
      match PublicKey.fromHex peerKeyHex with
      | .ok peerPublicKey =>
          if peerPublicKey = P.publicKey env.secretKey then pingShares env bucketId rest
          else do
            tryDispatch env (.pingPeer bucketId peerPublicKey)
            pingShares env bucketId rest
      | .error (.error _) => pingShares env bucketId rest
      | .error fault => throw fault

variable [BucketLogProvider σ]

/-- `Peer::mount`. -/
def PeerState.mountHead (peer : PeerState σ) (env : PeerEnv) (bucketId : Uuid) :
    Except Fault MountInner :=
  match head peer.logs bucketId none with
  | .error error =>
      .error (.error (.default ("Failed to get current head: " ++ error.message)))
  | .ok (link, _) => load peer.world.blobs link env.secretKey

/-- The append of `save_mount`. -/
def appendVersion (bucketId : Uuid) (name : Name) (link previousLink : Link) (height : ℕ)
    (isPublished : Bool) : PeerM σ Unit := fun state =>
  match append state.peer.logs bucketId name link (some previousLink) height
      isPublished with
  | (.ok (), logs) => .ok () { state with peer := { state.peer with logs := logs } }
  | (.error error, logs) =>
      .error (.error (.default ("Failed to append to log: " ++ error.message)))
        { state with peer := { state.peer with logs := logs } }

def saveMount (env : PeerEnv) (publish : Bool) : PeerM σ Link := do
  let before ← getThe (PeerMount σ)
  let (link, previousLink, height) ← onMount (save publish)
  let state ← getThe (PeerMount σ)
  appendVersion before.inner.manifest.id before.inner.manifest.name link previousLink
    height state.inner.manifest.isPublished
  pingShares env before.inner.manifest.id
    (state.inner.manifest.shares.toList.map Prod.fst)
  pure link

end

end JaxFs

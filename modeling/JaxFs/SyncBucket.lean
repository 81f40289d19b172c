import JaxFs.BucketLog
import JaxFs.Primitives

/-!
# Bucket synchronisation

`peer/sync/sync_bucket.rs`.  A job names a target link; the manifests from the
target back to the newest link of the local log are downloaded, their authors
checked, and the result handed to `applyManifestChain`.  The two backward walks
have no bound in the source, so they take fuel here; a walk that runs out of it
fails with an error of its own.  Peers may serve any bytes, but the store only
accepts those with the requested hash.
-/

namespace JaxFs

open BucketLogProvider

structure SyncTarget where
  link : Link
  height : ℕ
  peerIds : List PublicKey

structure SyncBucketJob where
  bucketId : Uuid
  target : SyncTarget

inductive SyncJob where
  | syncBucket (job : SyncBucketJob)
  | downloadPins (pinsLink : Link) (peerIds : List PublicKey)
  | pingPeer (bucketId : Uuid) (peerId : PublicKey)

inductive ProvenanceError where
  | invalidSignature
  | authorNotInShares
  | authorNotWriter
  | invalidManifestInChain (link : Link) (reason : ProvenanceError)
  deriving DecidableEq

inductive ProvenanceResult where
  | valid
  | notAuthorized
  | unsignedLegacy
  deriving DecidableEq

inductive SyncError where
  | log (error : BucketLogError)
  | download (link : Link)
  | blobs
  | provenance (error : ProvenanceError)
  | append (height : ℕ) (error : BucketLogError)
  | dispatch
  | outOfFuel
  deriving DecidableEq

/-- What a peer works with: its key, what other peers serve to it, and whether
its queue takes a job. -/
structure PeerEnv where
  secretKey : SecretKey
  fetch : List PublicKey → Hash → Option Bytes
  accepts : List SyncJob → SyncJob → Bool

structure PeerState [Primitives] (σ : Type) where
  world : World
  logs : σ
  jobs : List SyncJob

section

variable [P : Primitives] {σ : Type}

abbrev SyncM (σ : Type) := EStateM SyncError (PeerState σ)

/-- `download_hash`: local blobs are kept, others must have the right hash. -/
def downloadHash (env : PeerEnv) (link : Link) (peerIds : List PublicKey) :
    SyncM σ Unit := fun state =>
  match state.world.blobs link.hash with
  | some _ => .ok () state
  | none =>
      match env.fetch peerIds link.hash with
      | some data =>
          if P.hash data = link.hash then
            .ok () { state with world := state.world.store data }
          else .error (.download link) state
      | none => .error (.download link) state

/-- `get_cbor` at a manifest. -/
def getManifest (link : Link) : SyncM σ Manifest := fun state =>
  match (state.world.blobs link.hash).bind P.decodeManifest with
  | some manifest => .ok manifest state
  | none => .error .blobs state

def dispatch (env : PeerEnv) (job : SyncJob) : SyncM σ Unit := fun state =>
  if env.accepts state.jobs job then
    .ok () { state with jobs := state.jobs ++ [job] }
  else .error .dispatch state

/-! ## Checks of the author -/

/-- `verify_author`; the match on author and signature is `is_signed`. -/
def verifyAuthor (manifest : Manifest) (previous : Option Manifest) :
    Except ProvenanceError ProvenanceResult :=
  match manifest.author, manifest.signature with
  | some author, some _ =>
      if manifest.verifySignature ≠ .ok true then .error .invalidSignature
      else
        let checkShares := (previous.getD manifest).shares
        match checkShares.get? author.toHex with
        | none => .error .authorNotInShares
        | some authorShare =>
            if authorShare.role ≠ .owner then .error .authorNotWriter
            else .ok .valid
  | _, _ => .ok .unsignedLegacy

def verifyProvenance (env : PeerEnv) (manifest : Manifest)
    (previous : Option Manifest) : Except ProvenanceError ProvenanceResult :=
  let ourKeyHex := (P.publicKey env.secretKey).toHex
  if manifest.shares.contains ourKeyHex then verifyAuthor manifest previous
  else .ok .notAuthorized

/-- The validation loop of `download_manifest_chain`, oldest manifest first. -/
def verifyChain (previous : Option Manifest) :
    List (Manifest × Link) → Except ProvenanceError Unit
  | [] => .ok ()
  | (manifest, link) :: rest =>
      match verifyAuthor manifest previous with
      | .error reason => .error (.invalidManifestInChain link reason)
      | .ok _ => verifyChain (some manifest) rest

/-! ## The backward walks -/

/-- The download loop, newest manifest first. -/
def downloadManifests (env : PeerEnv) (stopLink : Option Link)
    (peerIds : List PublicKey) : ℕ → Link → SyncM σ (List (Manifest × Link))
  | 0, _ => throw .outOfFuel
  | fuel + 1, currentLink => do
      downloadHash env currentLink peerIds
      let manifest ← getManifest currentLink
      if stopLink = some currentLink then pure []
      else
        match manifest.previous with
        | some prevLink => do
            let older ← downloadManifests env stopLink peerIds fuel prevLink
            pure ((manifest, currentLink) :: older)
        | none => pure [(manifest, currentLink)]

def downloadManifestChain (env : PeerEnv) (fuel : ℕ) (startLink : Link)
    (stopLink : Option Link) (peerIds : List PublicKey)
    (trustedBase : Option Manifest) : SyncM σ (List (Manifest × Link)) := do
  let newestFirst ← downloadManifests env stopLink peerIds fuel startLink
  let manifests := newestFirst.reverse
  match verifyChain trustedBase manifests with
  | .error error => throw (.provenance error)
  | .ok () => pure manifests

variable [BucketLogProvider σ]

def findCommonAncestor (env : PeerEnv) (bucketId : Uuid)
    (peerIds : List PublicKey) : ℕ → Link → SyncM σ (Option (Link × ℕ))
  | 0, _ => throw .outOfFuel
  | fuel + 1, currentLink => do
      downloadHash env currentLink peerIds
      let manifest ← getManifest currentLink
      let state ← MonadState.get
      match has state.logs bucketId currentLink with
      | .ok (_ :: _) => pure (some (currentLink, manifest.height))
      -- a link that is not logged, or cannot be looked up, is passed over
      | .ok [] | .error _ =>
          match manifest.previous with
          | some prevLink => findCommonAncestor env bucketId peerIds fuel prevLink
          | none => pure none

/-! ## Applying the chain -/

/-- `append` of the provider as a step of the peer. -/
def appendLog (bucketId : Uuid) (name : Name) (current : Link)
    (previous : Option Link) (height : ℕ) (published : Bool) : SyncM σ Unit :=
  fun state =>
    match append state.logs bucketId name current previous height published with
    | (.ok (), logs) => .ok () { state with logs := logs }
    | (.error error, logs) => .error (.append height error) { state with logs := logs }

/-- `apply_manifest_chain`: `iter().enumerate().next()` is the first manifest, and
the branch returns after it. -/
def applyManifestChain (env : PeerEnv) (bucketId : Uuid)
    (manifests : List (Manifest × Link)) : SyncM σ Unit :=
  match manifests.head? with
  | some (manifest, link) => do
      appendLog bucketId manifest.name link manifest.previous manifest.height
        manifest.isPublished
      dispatch env (.downloadPins manifest.pins
        (manifest.shares.toList.map (fun share => share.2.principal.identity)))
  | none => pure ()

/-- The common ancestor's manifest, already local from the search for it. -/
def loadTrustedBase (stopLink : Option Link) : SyncM σ (Option Manifest) :=
  match stopLink with
  | some link => do
      let manifest ← getManifest link
      pure (some manifest)
  | none => pure none

/-- From the check of the latest manifest on. -/
def verifyAndApply (env : PeerEnv) (bucketId : Uuid) (trustedBase : Option Manifest)
    (manifests : List (Manifest × Link)) : SyncM σ Unit :=
  match manifests.getLast? with
  | none => pure ()
  | some (latest, _) =>
      match verifyProvenance env latest trustedBase with
      | .error error => throw (.provenance error)
      | .ok .notAuthorized => pure ()
      | .ok .valid | .ok .unsignedLegacy => applyManifestChain env bucketId manifests

/-- From the load of the trusted base on. -/
def executeFrom (env : PeerEnv) (fuel : ℕ) (job : SyncBucketJob)
    (commonAncestor : Option (Link × ℕ)) : SyncM σ Unit := do
  let stopLink := commonAncestor.map Prod.fst
  let trustedBase ← loadTrustedBase stopLink
  let manifests ← downloadManifestChain env fuel job.target.link stopLink
    job.target.peerIds trustedBase
  verifyAndApply env job.bucketId trustedBase manifests

def execute (env : PeerEnv) (fuel : ℕ) (job : SyncBucketJob) : SyncM σ Unit := do
  let state ← MonadState.get
  match BucketLogProvider.exists state.logs job.bucketId with
  | .error error => throw (.log error)
  | .ok true => do
      let commonAncestor ← findCommonAncestor env job.bucketId job.target.peerIds fuel
        job.target.link
      match commonAncestor with
      -- the bucket diverged from the peers
      | none => pure ()
      | some ancestor => executeFrom env fuel job (some ancestor)
  | .ok false => executeFrom env fuel job none

end

end JaxFs

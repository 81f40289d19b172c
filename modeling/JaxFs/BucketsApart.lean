import JaxFs.LogAgreement
import JaxFs.Ping

/-!
# Buckets kept apart

A version is logged under the bucket of its manifest when it is made here.  A sync logs
it under the bucket of the job, which a ping has named, and compares that with no
manifest.  Buckets stay apart as long as every job that would append a version names the
bucket of that version.
-/

namespace JaxFs

open BucketLogProvider

section

variable [P : Primitives] {σ : Type} [BucketLogProvider σ]

/-- The version that the log would take next on the chain of the target is one of the
job's bucket. -/
def SyncBucketJob.NamesBucket (job : SyncBucketJob) (manifestAt : Link → Option Manifest)
    (logs : σ) : Prop :=
  ∀ link manifest, OnChain manifestAt job.target.link link →
    manifestAt link = some manifest →
    ¬ Logged logs job.bucketId manifest.height link →
    (manifest.previous = none → manifest.height = 0) →
    (∀ previous, manifest.previous = some previous →
      ∃ below, manifest.height = below + 1 ∧ Logged logs job.bucketId below previous) →
    manifest.id = job.bucketId

def PeerAction.NamesBucket (system : PeerSystem σ) : PeerAction → Prop
  | .sync env _ job => job.NamesBucket
      (visibleManifest env job.target.peerIds system.peer) system.peer.logs
  | _ => True

/-- Every entry of a bucket links to a stored manifest of the bucket. -/
def Apart (peer : PeerState σ) : Prop :=
  ∀ id height link, Logged peer.logs id height link →
    ∃ manifest, getManifestFromBlobs peer.world.blobs link = .ok manifest ∧ manifest.id = id

/-- A version that an action adds is of the bucket it is logged for. -/
theorem PeerAction.NamesBucket.id_eq {system : PeerSystem σ} {action : PeerAction}
    (h : action.NamesBucket system) {blobs : Blobs} {id : Uuid} {height : ℕ} {link : Link}
    {manifest : Manifest} (hsource : action.Source system id link manifest)
    (hdescribes : Describes blobs system.peer.logs id height link manifest)
    (hnew : ¬ Logged system.peer.logs id height link) : manifest.id = id := by
  cases action with
  | sync env fuel job =>
      obtain ⟨rfl, honChain, hvisible⟩ := hsource
      have hheight := hdescribes.atHeight
      subst hheight
      exact h link manifest honChain hvisible hnew hdescribes.genesis hdescribes.below
  | create env id name => exact hsource
  | mount env bucketId => exact hsource
  | load link secretKey => exact hsource
  | operate mount action => exact hsource
  | mergeFrom mount incoming fuel resolver => exact hsource
  | saveMount env mount publish => exact hsource

variable [LawfulPrimitives] [LawfulBucketLogProvider σ] [RootedBucketLogProvider σ]

theorem Apart.step {system : PeerSystem σ} {action : PeerAction} (h : Apart system.peer)
    (haction : action.NamesBucket system) : Apart (system.step action).peer := by
  have hstep := system.logExtends_step action
  intro id height link hlogged
  by_cases hold : Logged system.peer.logs id height link
  · obtain ⟨manifest, hread, hid⟩ := h id height link hold
    exact ⟨manifest, hstep.grows.getManifestFromBlobs hread, hid⟩
  · obtain ⟨manifest, hdescribes, hsource⟩ :=
      (hstep.added id height link hlogged).resolve_left hold
    exact ⟨manifest, hdescribes.stored, haction.id_eq hsource hdescribes hold⟩

/-- From a log without entries on: while no job names another bucket than that of the
version it appends, every entry of a bucket links to a manifest of the bucket. -/
theorem apart_of_namesBucket (world : World) (logs : σ)
    (hempty : ∀ id height link, ¬ Logged logs id height link) (actions : List PeerAction)
    (hnames : AlongRun PeerSystem.step (fun system action => action.NamesBucket system)
      (PeerSystem.start world logs) actions) :
    Apart ((PeerSystem.start world logs).run actions).peer := by
  have hstep : ∀ (system : PeerSystem σ) action, Apart system.peer →
      action.NamesBucket system → Apart (system.step action).peer :=
    fun _ _ hapart hnamed => hapart.step hnamed
  have hstart : Apart (PeerSystem.start world logs).peer :=
    fun id height link hlogged => absurd hlogged (hempty id height link)
  exact @AlongRun.invariant _ _ PeerSystem.step (fun system action => action.NamesBucket system)
    (fun system => Apart system.peer) hstep _ hstart actions hnames

end

namespace Reference

/-- The head of bucket 7, announced as one of bucket 8. -/
def strayPing : PingMessage := ⟨⟨8⟩, manifestLink genesis, 0⟩

def strayJob : SyncBucketJob := ⟨⟨8⟩, (jobTo genesis).target⟩

/-- A peer without buckets queues the job that the ping asks for, and the job logs the
version of bucket 7 under bucket 8. -/
theorem stray_genesis_logged :
    ((handleMessageSideEffect aliceEnv (primitives.publicKey alice) strayPing
        (handleMessage emptyPeer strayPing)).run emptyPeer).state.jobs =
      [.syncBucket strayJob] ∧
    ¬ Apart ((PeerSystem.start emptyWorld MemoryBucketLogProvider.new).run
      [.sync (peerEnv alice alice) 1 strayJob]).peer := by
  constructor
  · rfl
  · intro hapart
    have hfacts : manifestLink genesis ∈ ((PeerSystem.start emptyWorld
          MemoryBucketLogProvider.new).run [.sync (peerEnv alice alice) 1
            strayJob]).peer.logs.inner.linksAt ⟨8⟩ 0 ∧
        (getManifestFromBlobs ((PeerSystem.start emptyWorld
          MemoryBucketLogProvider.new).run [.sync (peerEnv alice alice) 1
            strayJob]).peer.world.blobs (manifestLink genesis)).toOption = some genesis := by
      decide +kernel
    generalize ((PeerSystem.start emptyWorld MemoryBucketLogProvider.new).run
      [.sync (peerEnv alice alice) 1 strayJob]).peer = peer at hfacts hapart
    obtain ⟨hlogged, hread⟩ := hfacts
    obtain ⟨manifest, hmanifest, hid⟩ :=
      hapart ⟨8⟩ 0 (manifestLink genesis) (MemoryBucketLogProvider.logged_iff.mpr hlogged)
    rw [Except.eq_ok_of_toOption hread] at hmanifest
    cases hmanifest
    contradiction

theorem sameBucket_apart :
    Apart ((PeerSystem.start emptyWorld MemoryBucketLogProvider.new).run
      [.sync (peerEnv alice alice) 1 (jobTo genesis)]).peer := by
  apply apart_of_namesBucket emptyWorld MemoryBucketLogProvider.new
    MemoryBucketLogProvider.not_logged_new
  refine ⟨?_, trivial⟩
  intro link manifest honChain hmanifest _ _ _
  have hvisible : visibleManifest (peerEnv alice alice) (jobTo genesis).target.peerIds
      emptyPeer (manifestLink genesis) = some genesis := by
    decide +kernel
  have hlink : manifestLink genesis = link := by
    by_contra hne
    exact honChain.not_genesis hne hvisible rfl
  rw [← hlink] at hmanifest
  have hsame := hvisible.symm.trans hmanifest
  cases hsame
  rfl

end Reference

end JaxFs

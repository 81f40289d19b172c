import JaxFs.MountSystem
import JaxFs.RefreshWork
import JaxFs.SyncBucketStore

/-!
# A peer with its mounts

The steps that lead to the bucket log of a peer: buckets are created
(`http_server/api/v0/bucket/create.rs`), loaded into mounts, changed and saved, and
jobs of other peers are executed.  Any number of mounts may be open, on any version,
and jobs carry any bucket, link and peers.  Every new entry of the log is described by
a stored manifest; what else is known of it depends on the step.
-/

namespace JaxFs

open BucketLogProvider

section

variable [P : Primitives] {σ : Type}

/-! ## New buckets -/

inductive CreateError where
  | invalidName (message : String)
  | saveMount (message : String)
  | mount (fault : Fault)

/-- The handler of `CreateRequest`, with the identifier it draws. -/
def create [BucketLogProvider σ] (env : PeerEnv) (id : Uuid) (name : Name) :
    EStateM CreateError (PeerState σ) Unit := fun state =>
  if name = [] then .error (.invalidName "Name cannot be empty") state
  else
    match (init id name env.secretKey).run state.world with
    | .error fault world => .error (.mount fault) { state with world := world }
    | .ok mount world =>
        match append state.logs id name mount.link none 0 false with
        | (.ok (), logs) => .ok () { state with world := world, logs := logs }
        | (.error error, logs) =>
            .error (.saveMount ("Failed to append genesis: " ++ error.message))
              { state with world := world, logs := logs }

/-! ## The system -/

structure PeerSystem (σ : Type) where
  peer : PeerState σ
  mounts : List MountInner

inductive PeerAction where
  | create (env : PeerEnv) (id : Uuid) (name : Name)
  | mount (env : PeerEnv) (bucketId : Uuid)
  | load (link : Link) (secretKey : SecretKey)
  | operate (mount : ℕ) (action : MountAction)
  | mergeFrom (mount incoming fuel : ℕ) (resolver : ConflictResolver)
  | saveMount (env : PeerEnv) (mount : ℕ) (publish : Bool)
  | sync (env : PeerEnv) (fuel : ℕ) (job : SyncBucketJob)

namespace PeerSystem

def start (world : World) (logs : σ) : PeerSystem σ := ⟨⟨world, logs, []⟩, []⟩

/-- A mount that was opened, if it was. -/
def enter (system : PeerSystem σ) : Except Fault MountInner → PeerSystem σ
  | .ok inner => { system with mounts := system.mounts ++ [inner] }
  | .error _ => system

def update (system : PeerSystem σ) (mount : ℕ) (state : PeerMount σ) : PeerSystem σ :=
  ⟨state.peer, system.mounts.set mount state.inner⟩

variable [BucketLogProvider σ]

/-- One action; a mount that is not there does nothing. -/
def step (system : PeerSystem σ) : PeerAction → PeerSystem σ
  | .create env id name =>
      { system with peer := ((JaxFs.create env id name).run system.peer).state }
  | .mount env bucketId => system.enter (system.peer.mountHead env bucketId)
  | .load link secretKey =>
      system.enter (JaxFs.load system.peer.world.blobs link secretKey)
  | .operate mount action =>
      match system.mounts[mount]? with
      | none => system
      | some inner =>
          system.update mount ((onMount action.run).run ⟨system.peer, inner⟩).state
  | .mergeFrom mount incoming fuel resolver =>
      match system.mounts[mount]?, system.mounts[incoming]? with
      | some inner, some other => system.update mount
          ((onMount (JaxFs.mergeFrom fuel other resolver)).run ⟨system.peer, inner⟩).state
      | _, _ => system
  | .saveMount env mount publish =>
      match system.mounts[mount]? with
      | none => system
      | some inner =>
          system.update mount ((JaxFs.saveMount env publish).run ⟨system.peer, inner⟩).state
  | .sync env fuel job =>
      { system with peer := ((execute env fuel job).run system.peer).state }

def run (system : PeerSystem σ) (actions : List PeerAction) : PeerSystem σ :=
  actions.foldl step system

end PeerSystem

/-- What is known of a version that the action adds to the log. -/
def PeerAction.Source (system : PeerSystem σ) :
    PeerAction → Uuid → Link → Manifest → Prop
  | .sync env _ job =>
      job.Offers (visibleManifest env job.target.peerIds system.peer)
  | _ => fun id _ manifest => manifest.id = id

/-! ## Versions made here -/

section

variable [LawfulPrimitives]

theorem manifest_of_init {id : Uuid} {name : Name} {owner : SecretKey}
    {world world' : World} {inner : MountInner}
    (hrun : (init id name owner).run world = .ok inner world') :
    getManifestFromBlobs world'.blobs inner.link = .ok inner.manifest ∧
      inner.manifest.id = id ∧ inner.manifest.previous = none ∧
      inner.manifest.height = 0 := by
  unfold init at hrun
  obtain ⟨secret, world1, -, hrun⟩ := EStateM.run_bind_eq_ok_iff.mp hrun
  obtain ⟨entryLink, world2, -, hrun⟩ := EStateM.run_bind_eq_ok_iff.mp hrun
  obtain ⟨share, world3, -, hrun⟩ := EStateM.run_bind_eq_ok_iff.mp hrun
  obtain ⟨pinsLink, world4, -, hrun⟩ := EStateM.run_bind_eq_ok_iff.mp hrun
  obtain ⟨link, world5, hput, hdone⟩ := EStateM.run_bind_eq_ok_iff.mp hrun
  have hmanifest := getManifestFromBlobs_of_putManifestInBlobs hput
  cases hdone
  exact ⟨hmanifest, rfl, rfl, rfl⟩

theorem manifest_of_saveVersion {inner : MountInner} {publish : Bool}
    {world world' : World} {manifest : Manifest} {link : Link}
    (hrun : (saveVersion inner publish).run world = .ok (manifest, link) world') :
    getManifestFromBlobs world'.blobs link = .ok manifest ∧
      manifest.id = inner.manifest.id ∧ manifest.previous = some inner.link ∧
      manifest.height = inner.height + 1 := by
  obtain ⟨_, _, _, _, _, _, _, _, _, _, -, -, -, -, -, hput, hmanifest⟩ :=
    saveVersion_stages hrun
  exact ⟨getManifestFromBlobs_of_putManifestInBlobs hput, hmanifest.id, hmanifest.previous,
    hmanifest.height⟩

/-- What a save returns is in the manifest that it has stored. -/
theorem manifest_of_save {publish : Bool} {state state' : MountState}
    {link previousLink : Link} {height : ℕ}
    (hrun : (save publish).run state = .ok (link, previousLink, height) state') :
    Grows state.world state'.world ∧
      getManifestFromBlobs state'.world.blobs link = .ok state'.inner.manifest ∧
      state'.inner.manifest.id = state.inner.manifest.id ∧
      state'.inner.manifest.previous = some previousLink ∧
      state'.inner.manifest.height = height := by
  obtain ⟨manifest, world', hversion, hresult, rfl⟩ := run_save_eq_ok hrun
  obtain ⟨hread, hid, hprevious, hheight⟩ := manifest_of_saveVersion hversion
  cases hresult
  exact ⟨(grows_saveVersion _ _).of_ok hversion, hread, hid, hprevious, hheight⟩

end

/-! ## The steps -/

theorem logs_pingShares (env : PeerEnv) (bucketId : Uuid) (keys : List Name) :
    EStateM.Preserves (fun state state' : PeerMount σ => state'.peer.logs = state.peer.logs)
      (pingShares env bucketId keys) := by
  have htrans : ∀ s s' s'' : PeerMount σ, s'.peer.logs = s.peer.logs →
      s''.peer.logs = s'.peer.logs → s''.peer.logs = s.peer.logs :=
    fun _ _ _ h h' => h'.trans h
  induction keys with
  | nil => exact fun _ => rfl
  | cons key rest ih =>
      rw [pingShares]
      cases PublicKey.fromHex key with
      | ok peerPublicKey =>
          dsimp only
          split_ifs
          · exact ih
          · have hdispatch : EStateM.Preserves
                (fun state state' : PeerMount σ => state'.peer.logs = state.peer.logs)
                (tryDispatch env (.pingPeer bucketId peerPublicKey)) :=
              fun state => @logs_dispatch _ _ env state.peer _
            apply hdispatch.bind htrans
            exact fun _ => ih
      | error fault =>
          cases fault with
          | error error => exact ih
          | panic => exact fun _ => rfl
          | outOfFuel => exact fun _ => rfl

theorem logs_onMount {α : Type} (x : MountM α) (state : PeerMount σ) :
    ((onMount x).run state).state.peer.logs = state.peer.logs := by
  cases hrun : x.run state.mount with
  | ok a mount =>
      rw [run_onMount_of_ok hrun]
      rfl
  | error fault mount =>
      rw [run_onMount_of_error hrun]
      rfl

variable [BucketLogProvider σ]

theorem state_appendVersion (bucketId : Uuid) (name : Name) (link previousLink : Link)
    (height : ℕ) (isPublished : Bool) (state : PeerMount σ) :
    ((appendVersion bucketId name link previousLink height isPublished).run state).state =
      { state with
        peer.logs := (append state.peer.logs bucketId name link (some previousLink) height
          isPublished).2 } := by
  obtain ⟨logs, ⟨hverdict, hrun⟩ | ⟨error, hverdict, hrun⟩⟩ :=
    appendVersion_cases bucketId name link previousLink height isPublished state
  · rw [hrun, hverdict]
    rfl
  · rw [hrun, hverdict]
    rfl

variable [LawfulPrimitives] [LawfulBucketLogProvider σ] [RootedBucketLogProvider σ]

theorem logExtends_create (env : PeerEnv) (id : Uuid) (name : Name) (state : PeerState σ) :
    LogExtends (fun id _ manifest => manifest.id = id) state
      ((create env id name).run state).state := by
  rw [EStateM.run]
  unfold create
  by_cases hname : name = []
  · rw [if_pos hname]
    exact LogExtends.of_logs_eq (Grows.refl _) rfl
  · rw [if_neg hname]
    cases hinit : (init id name env.secretKey).run state.world with
    | error fault world =>
        exact LogExtends.of_logs_eq ((grows_init id name env.secretKey).of_error hinit) rfl
    | ok mount world =>
        have hgrows := (grows_init id name env.secretKey).of_ok hinit
        obtain ⟨hread, hid, hprevious, hheight⟩ := manifest_of_init hinit
        cases happend : append state.logs id name mount.link none 0 false with
        | mk verdict logs =>
            rw [← hprevious, ← hheight] at happend
            have hadded : LogExtends (fun id _ manifest => manifest.id = id)
                { state with world := world } { state with world := world, logs := logs } :=
              logExtends_append happend hread hid
            rw [hprevious, hheight] at happend
            dsimp only
            rw [happend]
            cases verdict with
            | ok _ => exact hadded.after hgrows rfl
            | error error => exact hadded.after hgrows rfl

theorem logExtends_saveMount (env : PeerEnv) (publish : Bool) (state : PeerMount σ) :
    LogExtends (fun id _ manifest => manifest.id = id) state.peer
      ((saveMount env publish).run state).state.peer := by
  cases hsave : (save publish).run state.mount with
  | error fault mount =>
      obtain ⟨world', hgrows, rfl⟩ := run_save_eq_error hsave
      unfold saveMount
      rw [run_getPeer_bind, EStateM.run_bind_of_error (run_onMount_of_error hsave)]
      exact LogExtends.of_logs_eq hgrows rfl
  | ok result mount =>
      obtain ⟨link, previousLink, height⟩ := result
      obtain ⟨hgrows, hread, hid, hprevious, hheight⟩ := manifest_of_save hsave
      have hadded : LogExtends (fun id _ manifest => manifest.id = id) state.peer
          ((appendVersion state.inner.manifest.id state.inner.manifest.name link
            previousLink height mount.inner.manifest.isPublished).run
              (state.setMount mount)).state.peer := by
        rw [state_appendVersion, ← hprevious, ← hheight]
        have happended := @logExtends_append _ _ _
          (fun id _ manifest => manifest.id = id) (state.setMount mount).peer _ _
          state.inner.manifest.id state.inner.manifest.name link mount.inner.manifest
          mount.inner.manifest.isPublished _ _ rfl hread hid
        exact happended.after hgrows rfl
      rw [run_saveMount_of_save hsave]
      cases happend : (appendVersion state.inner.manifest.id state.inner.manifest.name link
          previousLink height mount.inner.manifest.isPublished).run
            (state.setMount mount) with
      | error fault state' =>
          rw [EStateM.run_bind_of_error happend]
          rw [happend] at hadded
          exact hadded
      | ok _ state' =>
          rw [EStateM.run_bind_of_ok happend]
          rw [happend] at hadded
          have hmount := sameMount_pingShares env state.inner.manifest.id
            (mount.inner.manifest.shares.toList.map Prod.fst) state'
          have hlogs := logs_pingShares env state.inner.manifest.id
            (mount.inner.manifest.shares.toList.map Prod.fst) state'
          have hpinged := hadded.before (congrArg MountState.world hmount) hlogs
          cases hping : (pingShares env state.inner.manifest.id
              (mount.inner.manifest.shares.toList.map Prod.fst)).run state' with
          | error fault state'' =>
              rw [EStateM.run_bind_of_error hping]
              rw [hping] at hpinged
              exact hpinged
          | ok _ state'' =>
              rw [EStateM.run_bind_of_ok hping]
              rw [hping] at hpinged
              exact hpinged

namespace PeerSystem

/-- What one action does to the log and the store. -/
theorem logExtends_step (system : PeerSystem σ) (action : PeerAction) :
    LogExtends (action.Source system) system.peer (system.step action).peer := by
  have hsame : LogExtends (action.Source system) system.peer system.peer :=
    LogExtends.of_logs_eq (Grows.refl _) rfl
  cases action with
  | create env id name => exact logExtends_create env id name system.peer
  | mount env bucketId =>
      rw [step]
      cases system.peer.mountHead env bucketId with
      | ok inner => exact hsame
      | error fault => exact hsame
  | load link secretKey =>
      rw [step]
      cases JaxFs.load system.peer.world.blobs link secretKey with
      | ok inner => exact hsame
      | error fault => exact hsame
  | operate mount action =>
      rw [step]
      cases system.mounts[mount]? with
      | none => exact hsame
      | some inner =>
          have hgrows := peerGrows_onMount (mountGrows_run action) ⟨system.peer, inner⟩
          exact LogExtends.of_logs_eq hgrows (logs_onMount _ _)
  | mergeFrom mount incoming fuel resolver =>
      rw [step]
      cases system.mounts[mount]? with
      | none => exact hsame
      | some inner =>
          cases system.mounts[incoming]? with
          | none => exact hsame
          | some other =>
              have hgrows := peerGrows_onMount (mountGrows_mergeFrom fuel other resolver)
                ⟨system.peer, inner⟩
              exact LogExtends.of_logs_eq hgrows (logs_onMount _ _)
  | saveMount env mount publish =>
      rw [step]
      cases system.mounts[mount]? with
      | none => exact hsame
      | some inner => exact logExtends_saveMount env publish ⟨system.peer, inner⟩
  | sync env fuel job => exact logExtends_execute env fuel job system.peer

end PeerSystem

end

end JaxFs

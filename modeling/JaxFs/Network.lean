import JaxFs.DownloadPins
import JaxFs.KeyParsing
import JaxFs.Queues

/-!
# Peers in a network

Any number of peers that ping each other and work through their queues
(`peer/protocol/bidirectional.rs`, `peer/sync/mod.rs`, `sync_provider.rs` of the daemon).
A ping, its reply and what the responder does after replying are three steps, and what
has been sent once stays under way, so that it can arrive late, several times or never.
A job leaves the queue when the worker takes it, whether it then succeeds or not.  The
worker of the source waits for the reply to a ping; here it may go on meanwhile.
-/

namespace JaxFs

open BucketLogProvider Queue

section

variable [P : Primitives] {σ : Type}

/-! ## Pings to the principals of a bucket -/

/-- The head of the bucket with its manifest, if both are there. -/
def PeerState.headManifest [BucketLogProvider σ] (peer : PeerState σ) (bucketId : Uuid) :
    Option (Link × ℕ × Manifest) :=
  match head peer.logs bucketId none with
  | .error _ => none
  | .ok (link, height) =>
      ((peer.world.blobs link.hash).bind P.decodeManifest).map
        (fun manifest => (link, height, manifest))

/-- The loop of `ping_and_collect` over the keys of the shares.  Keys that do not parse are
skipped; at a key that panics the pings before it are already under way. -/
def pingTargets (ourKey : Name) : List Name → List PublicKey
  | [] => []
  | peerKeyHex :: rest =>
      if peerKeyHex = ourKey then pingTargets ourKey rest
      else
        match PublicKey.fromHex peerKeyHex with
        | .ok peerId => peerId :: pingTargets ourKey rest
        | .error (.error _) => pingTargets ourKey rest
        | .error _ => []

/-! ## The network -/

/-- What is under way between two peers: a ping, a reply, and what the responder does once
the reply is sent. -/
inductive Envelope where
  | ping (initiator responder : PublicKey) (ping : PingMessage)
  | pong (initiator responder : PublicKey) (pong : PingReply)
  | answered (initiator responder : PublicKey) (ping : PingMessage) (pong : PingReply)

structure Network (σ : Type) where
  peers : PublicKey → PeerSystem σ
  envelopes : List Envelope

inductive NetworkAction where
  | act (peer : PublicKey) (action : PeerAction)
  | pingPeers (peer : PublicKey) (env : PeerEnv) (bucketId : Uuid)
  | pingAndCollect (peer : PublicKey) (env : PeerEnv) (bucketId : Uuid)
  | work (peer : PublicKey) (env : PeerEnv) (fuel : ℕ)
  | deliver (number : ℕ) (env : PeerEnv)

namespace Network

variable [BucketLogProvider σ]

/-- The peers start with empty queues and without mounts. -/
def start (worlds : PublicKey → World) (logs : PublicKey → σ) : Network σ :=
  ⟨fun peer => PeerSystem.start (worlds peer) (logs peer), []⟩

def peer (net : Network σ) (key : PublicKey) : PeerState σ := (net.peers key).peer

def setSystem (net : Network σ) (key : PublicKey) (system : PeerSystem σ) : Network σ :=
  { net with peers := Function.update net.peers key system }

/-- Another state of the peer; its mounts stay. -/
def setPeer (net : Network σ) (key : PublicKey) (peer : PeerState σ) : Network σ :=
  net.setSystem key { net.peers key with peer := peer }

def send (net : Network σ) (envelopes : List Envelope) : Network σ :=
  { net with envelopes := net.envelopes ++ envelopes }

/-- `ping_and_collect`: pings from one head to the principals of its manifest. -/
def collect (net : Network σ) (key : PublicKey) (env : PeerEnv) (bucketId : Uuid) :
    List Envelope :=
  match (net.peer key).headManifest bucketId with
  | none => []
  | some (link, height, manifest) =>
      (pingTargets (P.publicKey env.secretKey).toHex manifest.shareKeys).map
        (fun peerId => .ping key peerId ⟨bucketId, link, height⟩)

/-- `execute_job`, for a job that has left the queue.  What fails is only logged. -/
def executeJob (net : Network σ) (key : PublicKey) (env : PeerEnv) (fuel : ℕ) :
    SyncJob → Network σ
  | .syncBucket job => net.setPeer key ((execute env fuel job).run (net.peer key)).state
  | .downloadPins pinsLink peerIds =>
      net.setPeer key ((downloadPins env pinsLink peerIds).run (net.peer key)).state
  | .pingPeer bucketId peerId =>
      match head (net.peer key).logs bucketId none with
      | .error _ => net
      | .ok (link, height) => net.send [.ping key peerId ⟨bucketId, link, height⟩]

/-- The worker takes the job at the front of the queue. -/
def work (net : Network σ) (key : PublicKey) (env : PeerEnv) (fuel : ℕ) : Network σ :=
  match (net.peer key).jobs with
  | [] => net
  | job :: rest =>
      (net.setPeer key { net.peer key with jobs := rest }).executeJob key env fuel job

/-- An envelope is opened. -/
def openEnvelope (net : Network σ) (env : PeerEnv) : Envelope → Network σ
  | .ping initiator responder ping =>
      let pong := handleMessage (net.peer responder) ping
      net.send [.pong initiator responder pong, .answered initiator responder ping pong]
  | .pong initiator responder pong =>
      net.setPeer initiator
        ((handleReply env responder pong).run (net.peer initiator)).state
  | .answered initiator responder ping pong =>
      net.setPeer responder
        ((handleMessageSideEffect env initiator ping pong).run (net.peer responder)).state

/-- One action; an envelope that was not sent is not opened. -/
def step (net : Network σ) : NetworkAction → Network σ
  | .act key action => net.setSystem key ((net.peers key).step action)
  | .pingPeers key env bucketId =>
      net.setPeer key ((PeerState.ping env bucketId).run (net.peer key)).state
  | .pingAndCollect key env bucketId => net.send (net.collect key env bucketId)
  | .work key env fuel => net.work key env fuel
  | .deliver number env =>
      match net.envelopes[number]? with
      | none => net
      | some envelope => net.openEnvelope env envelope

def run (net : Network σ) (actions : List NetworkAction) : Network σ :=
  actions.foldl step net

section

variable {net : Network σ} {key other : PublicKey}

omit [BucketLogProvider σ] in
theorem peers_setSystem (system : PeerSystem σ) :
    (net.setSystem key system).peers other =
      if other = key then system else net.peers other := by
  unfold setSystem
  by_cases heq : other = key
  · simp [heq]
  · simp [heq]

omit [BucketLogProvider σ] in
theorem peer_setSystem (system : PeerSystem σ) :
    (net.setSystem key system).peer other =
      if other = key then system.peer else net.peer other := by
  unfold peer
  rw [peers_setSystem]
  split_ifs <;> rfl

omit [BucketLogProvider σ] in
@[simp] theorem peer_setPeer_self (state : PeerState σ) :
    (net.setPeer key state).peer key = state := by
  unfold setPeer
  rw [peer_setSystem, if_pos rfl]

omit [BucketLogProvider σ] in
theorem peer_setPeer_of_ne (h : other ≠ key) (state : PeerState σ) :
    (net.setPeer key state).peer other = net.peer other := by
  unfold setPeer
  rw [peer_setSystem, if_neg h]

omit [BucketLogProvider σ] in
@[simp] theorem peer_send (envelopes : List Envelope) : (net.send envelopes).peer key =
    net.peer key := rfl

omit [BucketLogProvider σ] in
@[simp] theorem envelopes_setPeer (state : PeerState σ) :
    (net.setPeer key state).envelopes = net.envelopes := rfl

end

end Network

/-! ## What is claimed -/

/-- The head of the bucket that a job is to lead to. -/
def SyncJob.Claims (id : Uuid) (link : Link) (height : ℕ) : SyncJob → Prop
  | .syncBucket job =>
      job.bucketId = id ∧ job.target.link = link ∧ job.target.height = height
  | .downloadPins _ _ => False
  | .pingPeer _ _ => False

def PingMessage.Claims (ping : PingMessage) (id : Uuid) (link : Link) (height : ℕ) : Prop :=
  ping.bucketId = id ∧ ping.link = link ∧ ping.height = height

def PingReply.Claims (pong : PingReply) (id : Uuid) (link : Link) (height : ℕ) : Prop :=
  pong.bucketId = id ∧ pong.status = .ahead link height

/-- A head of the bucket that an envelope tells about, for the receiver to sync to. -/
def Envelope.Claims (id : Uuid) (link : Link) (height : ℕ) : Envelope → Prop
  | .ping _ _ message => message.Claims id link height
  | .pong _ _ reply => reply.Claims id link height
  | .answered _ _ message _ => message.Claims id link height

/-- A job that asks for nothing but a ping. -/
def SyncJob.IsPing : SyncJob → Prop
  | .pingPeer _ _ => True
  | _ => False

omit P in
theorem SyncJob.IsPing.not_claims {job : SyncJob} (h : job.IsPing) (id : Uuid) (link : Link)
    (height : ℕ) : ¬ job.Claims id link height := by
  cases job with
  | syncBucket job => exact absurd h (by simp [SyncJob.IsPing])
  | downloadPins pinsLink peerIds => simp [SyncJob.Claims]
  | pingPeer bucketId peerId => simp [SyncJob.Claims]

/-! ## Steps that only fill the queue -/

/-- The queue has been added to as the relation says, and nothing else has changed. -/
def QueuesOnly (rel : List SyncJob → List SyncJob → Prop) (state state' : PeerState σ) :
    Prop :=
  ∃ jobs, state' = { state with jobs := jobs } ∧ rel state.jobs jobs

section

variable {env : PeerEnv} {kind : SyncJob → Prop} {rel : List SyncJob → List SyncJob → Prop}
  {state state' state'' : PeerState σ}

theorem queuesOnly_refl (rules : Rules env.accepts kind rel) (state : PeerState σ) :
    QueuesOnly rel state state := ⟨state.jobs, rfl, rules.refl _⟩

theorem queuesOnly_trans (rules : Rules env.accepts kind rel)
    (h : QueuesOnly rel state state') (h' : QueuesOnly rel state' state'') :
    QueuesOnly rel state state'' := by
  obtain ⟨jobs, rfl, hjobs⟩ := h
  obtain ⟨jobs', rfl, hjobs'⟩ := h'
  exact ⟨jobs', rfl, rules.trans _ _ _ hjobs hjobs'⟩

theorem queuesOnly_dispatch (rules : Rules env.accepts kind rel) {job : SyncJob}
    (hkind : kind job) (state : PeerState σ) :
    QueuesOnly rel state ((dispatch env job).run state).state := by
  unfold dispatch EStateM.run
  dsimp only
  split_ifs with haccepts
  · exact ⟨_, rfl, rules.accepted _ _ hkind haccepts⟩
  · exact queuesOnly_refl rules state

theorem queuesOnly_dispatchSync (rules : Rules env.accepts kind rel) {bucketId : Uuid}
    {link : Link} {height : ℕ} (found : Except Fault (List PublicKey))
    (hkind : ∀ peerIds, kind (.syncBucket ⟨bucketId, ⟨link, height, peerIds⟩⟩))
    (state : PeerState σ) :
    QueuesOnly rel state ((dispatchSync env bucketId link height found).run state).state := by
  cases found with
  | error fault => exact queuesOnly_refl rules state
  | ok peerIds => exact queuesOnly_dispatch rules (hkind peerIds) state

theorem queuesOnly_pingPeers (rules : Rules env.accepts SyncJob.IsPing rel) (bucketId : Uuid)
    (ourKey : Name) (keys : List Name) :
    EStateM.Preserves (QueuesOnly rel)
      (pingPeers env bucketId ourKey keys : EStateM Fault (PeerState σ) Unit) := by
  induction keys with
  | nil => exact queuesOnly_refl rules
  | cons key rest ih =>
      rw [pingPeers]
      split_ifs
      · exact ih
      · cases PublicKey.fromHex key with
        | ok peerId =>
            have hdispatch : EStateM.Preserves (QueuesOnly rel)
                (modify (fun peer : PeerState σ =>
                  ((dispatch env (.pingPeer bucketId peerId)).run peer).state) :
                    EStateM Fault (PeerState σ) Unit) := by
              have hping : SyncJob.IsPing (.pingPeer bucketId peerId) := trivial
              exact queuesOnly_dispatch rules hping
            exact hdispatch.bind (fun _ _ _ => queuesOnly_trans rules) (fun _ => ih)
        | error fault =>
            cases fault with
            | error error => exact queuesOnly_refl rules
            | panic => exact queuesOnly_refl rules
            | outOfFuel => exact queuesOnly_refl rules

variable [BucketLogProvider σ]

theorem queuesOnly_ping (rules : Rules env.accepts SyncJob.IsPing rel) (bucketId : Uuid) :
    EStateM.Preserves (QueuesOnly rel)
      (PeerState.ping env bucketId : EStateM Fault (PeerState σ) Unit) := by
  have hget : EStateM.Preserves (QueuesOnly rel)
      (getThe (PeerState σ) : EStateM Fault (PeerState σ) _) := queuesOnly_refl rules
  unfold PeerState.ping
  refine hget.bind (fun _ _ _ => queuesOnly_trans rules) (fun peer => ?_)
  cases head peer.logs bucketId none with
  | error error => exact queuesOnly_refl rules
  | ok found =>
      dsimp only
      cases (peer.world.blobs found.1.hash).bind P.decodeManifest with
      | none => exact queuesOnly_refl rules
      | some manifest => exact queuesOnly_pingPeers rules bucketId _ _

/-- A job for what the reply claims. -/
def PingReply.Asks (pong : PingReply) (job : SyncJob) : Prop :=
  ∀ id link height, job.Claims id link height → pong.Claims id link height

def PingMessage.Asks (ping : PingMessage) (job : SyncJob) : Prop :=
  ∀ id link height, job.Claims id link height → ping.Claims id link height

theorem queuesOnly_handleReply {pong : PingReply} (rules : Rules env.accepts pong.Asks rel)
    (recipient : PublicKey) (state : PeerState σ) :
    QueuesOnly rel state ((handleReply env recipient pong).run state).state := by
  unfold handleReply
  cases hstatus : pong.status with
  | notFound => exact queuesOnly_refl rules state
  | behind link height => exact queuesOnly_refl rules state
  | inSync => exact queuesOnly_refl rules state
  | ahead link height =>
      apply queuesOnly_dispatchSync rules
      rintro peerIds id link' height' ⟨rfl, rfl, rfl⟩
      exact ⟨rfl, hstatus⟩

omit [BucketLogProvider σ] in
theorem queuesOnly_handleMessageSideEffect {ping : PingMessage}
    (rules : Rules env.accepts ping.Asks rel) (sender : PublicKey) (pong : PingReply)
    (state : PeerState σ) :
    QueuesOnly rel state
      ((handleMessageSideEffect env sender ping pong).run state).state := by
  unfold handleMessageSideEffect
  cases pong.status with
  | behind ourLink ourHeight =>
      apply queuesOnly_dispatchSync rules
      exact fun _ _ _ _ hclaims => hclaims
  | ahead link height => exact queuesOnly_refl rules state
  | inSync => exact queuesOnly_refl rules state
  | notFound =>
      apply queuesOnly_dispatchSync rules
      exact fun _ _ _ _ hclaims => hclaims

end

/-! ## What a step does -/

variable [BucketLogProvider σ]

omit P in
/-- A head is logged at its height. -/
theorem logged_of_head {log : σ} {id : Uuid} {link : Link} {number : ℕ}
    (h : head log id none = .ok (link, number)) : Logged log id number link := by
  unfold head at h
  cases htop : height log id with
  | error error => simp [htop, bind, Except.bind] at h
  | ok top =>
      cases hlinks : heads log id top with
      | error error => simp [htop, hlinks, bind, Except.bind] at h
      | ok links =>
          simp only [htop, hlinks, bind, Except.bind, Option.getD_none] at h
          cases hmax : links.maximum with
          | bot => simp [hmax] at h
          | coe found =>
              simp only [hmax] at h
              cases h
              exact ⟨links, hlinks, List.maximum_mem hmax⟩

namespace Network

/-- What one action does to one of the peers. -/
inductive PeerChange (net : Network σ) (action : NetworkAction) (key : PublicKey) :
    PeerState σ → Prop where
  | queue {kind : SyncJob → Prop} {state : PeerState σ}
      (hqueue : QueuesOnly (Enqueues kind) (net.peer key) state)
      (hkind : ∀ job id link height, kind job → job.Claims id link height →
        ∃ envelope ∈ net.envelopes, envelope.Claims id link height) :
      PeerChange net action key state
  | act {local' : PeerAction} (haction : action = .act key local') :
      PeerChange net action key ((net.peers key).step local').peer
  | taken {env : PeerEnv} {fuel : ℕ} {job : SyncJob} {rest : List SyncJob}
      (haction : action = .work key env fuel) (hjobs : (net.peer key).jobs = job :: rest) :
      PeerChange net action key { net.peer key with jobs := rest }
  | sync {env : PeerEnv} {fuel : ℕ} {job : SyncBucketJob} {rest : List SyncJob}
      (haction : action = .work key env fuel)
      (hjobs : (net.peer key).jobs = .syncBucket job :: rest) :
      PeerChange net action key
        ((execute env fuel job).run { net.peer key with jobs := rest }).state
  | pins {env : PeerEnv} {fuel : ℕ} {pinsLink : Link} {peerIds : List PublicKey}
      {rest : List SyncJob} (haction : action = .work key env fuel)
      (hjobs : (net.peer key).jobs = .downloadPins pinsLink peerIds :: rest) :
      PeerChange net action key
        ((downloadPins env pinsLink peerIds).run { net.peer key with jobs := rest }).state

section

variable {net : Network σ} {key : PublicKey}

theorem PeerChange.same (action : NetworkAction) : PeerChange net action key (net.peer key) :=
  .queue ⟨_, rfl, @Enqueues.refl _ (fun _ => False) _⟩ (fun _ _ _ _ h => h.elim)

theorem peerChange_setPeer {action : NetworkAction} {changed : PublicKey}
    {state : PeerState σ} (h : PeerChange net action changed state) (key : PublicKey) :
    PeerChange net action key ((net.setPeer changed state).peer key) := by
  by_cases heq : key = changed
  · subst heq
    rw [peer_setPeer_self]
    exact h
  · rw [peer_setPeer_of_ne heq]
    exact PeerChange.same action

theorem peer_executeJob_pingPeer (popped : Network σ) (env : PeerEnv) (fuel : ℕ)
    (bucketId : Uuid) (peerId other : PublicKey) :
    (popped.executeJob key env fuel (.pingPeer bucketId peerId)).peer other =
      popped.peer other := by
  unfold executeJob
  dsimp only
  cases head (popped.peer key).logs bucketId none with
  | error error => rfl
  | ok found => rfl

theorem peer_executeJob (popped : Network σ) (env : PeerEnv) (fuel : ℕ) (job : SyncJob) :
    (popped.executeJob key env fuel job).peer key = popped.peer key ∨
    (∃ bucketJob, job = .syncBucket bucketJob ∧
      (popped.executeJob key env fuel job).peer key =
        ((execute env fuel bucketJob).run (popped.peer key)).state) ∨
    ∃ pinsLink peerIds, job = .downloadPins pinsLink peerIds ∧
      (popped.executeJob key env fuel job).peer key =
        ((downloadPins env pinsLink peerIds).run (popped.peer key)).state := by
  cases job with
  | syncBucket bucketJob =>
      exact Or.inr (Or.inl ⟨bucketJob, rfl, peer_setPeer_self _⟩)
  | downloadPins pinsLink peerIds =>
      exact Or.inr (Or.inr ⟨pinsLink, peerIds, rfl, peer_setPeer_self _⟩)
  | pingPeer bucketId peerId =>
      exact Or.inl (peer_executeJob_pingPeer popped env fuel bucketId peerId key)

theorem peer_executeJob_of_ne {other : PublicKey} (h : other ≠ key) (popped : Network σ)
    (env : PeerEnv) (fuel : ℕ) (job : SyncJob) :
    (popped.executeJob key env fuel job).peer other = popped.peer other := by
  cases job with
  | syncBucket bucketJob => exact peer_setPeer_of_ne h _
  | downloadPins pinsLink peerIds => exact peer_setPeer_of_ne h _
  | pingPeer bucketId peerId => exact peer_executeJob_pingPeer popped env fuel bucketId peerId other

theorem peerChange_work (worker : PublicKey) (env : PeerEnv) (fuel : ℕ) (key : PublicKey) :
    PeerChange net (.work worker env fuel) key ((net.work worker env fuel).peer key) := by
  unfold work
  cases hjobs : (net.peer worker).jobs with
  | nil => exact PeerChange.same _
  | cons job rest =>
      dsimp only
      by_cases heq : key = worker
      · subst heq
        rcases @peer_executeJob _ _ _ key
            (net.setPeer key { net.peer key with jobs := rest }) env fuel job with
          hsame | ⟨bucketJob, rfl, hsync⟩ | ⟨pinsLink, peerIds, rfl, hpins⟩
        · rw [hsame, peer_setPeer_self]
          exact .taken rfl hjobs
        · rw [hsync, peer_setPeer_self]
          exact .sync rfl hjobs
        · rw [hpins, peer_setPeer_self]
          exact .pins rfl hjobs
      · rw [peer_executeJob_of_ne heq, peer_setPeer_of_ne heq]
        exact PeerChange.same _

theorem peerChange_openEnvelope (number : ℕ) (env : PeerEnv) {envelope : Envelope}
    (henvelope : envelope ∈ net.envelopes) (key : PublicKey) :
    PeerChange net (.deliver number env) key ((net.openEnvelope env envelope).peer key) := by
  cases envelope with
  | ping initiator responder ping => exact PeerChange.same _
  | pong initiator responder pong =>
      apply peerChange_setPeer
      apply PeerChange.queue
        (queuesOnly_handleReply (enqueues_rules env.accepts pong.Asks) responder _)
      intro job id link height hkind hclaims
      exact ⟨_, henvelope, hkind id link height hclaims⟩
  | answered initiator responder ping pong =>
      apply peerChange_setPeer
      apply PeerChange.queue
        (queuesOnly_handleMessageSideEffect (enqueues_rules env.accepts ping.Asks) initiator pong _)
      intro job id link height hkind hclaims
      exact ⟨_, henvelope, hkind id link height hclaims⟩

theorem peerChange_step (net : Network σ) (action : NetworkAction) (key : PublicKey) :
    PeerChange net action key ((net.step action).peer key) := by
  cases action with
  | act changed local' =>
      rw [step, peer_setSystem]
      split_ifs with heq
      · subst heq
        exact .act rfl
      · exact PeerChange.same _
  | pingPeers changed env bucketId =>
      apply peerChange_setPeer
      apply PeerChange.queue
        (queuesOnly_ping (enqueues_rules env.accepts SyncJob.IsPing) bucketId _)
      intro job id link height hkind hclaims
      exact absurd hclaims (hkind.not_claims id link height)
  | pingAndCollect sender env bucketId => exact PeerChange.same _
  | work worker env fuel => exact peerChange_work worker env fuel key
  | deliver number env =>
      rw [step]
      cases henvelope : net.envelopes[number]? with
      | none => exact PeerChange.same _
      | some envelope =>
          exact peerChange_openEnvelope number env (List.mem_of_getElem? henvelope) key

/-- The ping tells the head of its sender. -/
def TellsHead (net : Network σ) (sender : PublicKey) (envelope : Envelope) : Prop :=
  ∃ bucketId peerId link height, envelope = .ping sender peerId ⟨bucketId, link, height⟩ ∧
    head (net.peer sender).logs bucketId none = .ok (link, height)

theorem TellsHead.logged {sender : PublicKey} {envelope : Envelope}
    (h : net.TellsHead sender envelope) {id : Uuid} {link : Link} {height : ℕ}
    (hclaims : envelope.Claims id link height) :
    Logged (net.peer sender).logs id height link := by
  obtain ⟨bucketId, peerId, found, number, rfl, hhead⟩ := h
  obtain ⟨rfl, rfl, rfl⟩ := hclaims
  exact logged_of_head hhead

theorem tellsHead_of_mem_collect {env : PeerEnv} {bucketId : Uuid} {envelope : Envelope}
    (h : envelope ∈ net.collect key env bucketId) : net.TellsHead key envelope := by
  unfold collect at h
  cases hfound : (net.peer key).headManifest bucketId with
  | none => simp [hfound] at h
  | some found =>
      obtain ⟨link, height, manifest⟩ := found
      have hhead : head (net.peer key).logs bucketId none = .ok (link, height) := by
        unfold PeerState.headManifest at hfound
        cases hhead : head (net.peer key).logs bucketId none with
        | error error => simp [hhead] at hfound
        | ok top =>
            simp only [hhead] at hfound
            obtain ⟨stored, -, hstored⟩ := Option.map_eq_some_iff.mp hfound
            cases hstored
            rfl
      rw [hfound] at h
      obtain ⟨peerId, -, rfl⟩ := List.mem_map.mp h
      exact ⟨bucketId, peerId, link, height, rfl, hhead⟩

theorem mem_envelopes_work {worker : PublicKey} {env : PeerEnv} {fuel : ℕ}
    {envelope : Envelope} (h : envelope ∈ (net.work worker env fuel).envelopes) :
    envelope ∈ net.envelopes ∨ net.TellsHead worker envelope := by
  unfold work at h
  cases hjobs : (net.peer worker).jobs with
  | nil =>
      rw [hjobs] at h
      exact Or.inl h
  | cons job rest =>
      rw [hjobs] at h
      cases job with
      | syncBucket job => exact Or.inl h
      | downloadPins pinsLink peerIds => exact Or.inl h
      | pingPeer bucketId peerId =>
          dsimp only [executeJob] at h
          rw [peer_setPeer_self] at h
          cases hhead : head (net.peer worker).logs bucketId none with
          | error error =>
              simp only [hhead] at h
              exact Or.inl h
          | ok found =>
              simp only [hhead] at h
              rcases List.mem_append.mp h with hold | hnew
              · exact Or.inl hold
              · right
                exact ⟨bucketId, peerId, found.1, found.2, List.mem_singleton.mp hnew, hhead⟩

/-- A reply that is ahead tells the head of the responder. -/
theorem logged_of_reply_claims {responder : PublicKey} {ping : PingMessage} {id : Uuid}
    {link : Link} {height : ℕ}
    (h : (handleMessage (net.peer responder) ping).Claims id link height) :
    Logged (net.peer responder).logs id height link := by
  obtain ⟨hid, hstatus⟩ := h
  unfold handleMessage at hid hstatus
  cases hhead : head (net.peer responder).logs ping.bucketId none with
  | error error => simp [hhead] at hstatus
  | ok found =>
      simp only [hhead] at hid hstatus
      split_ifs at hid hstatus
      have hfound : found = (link, height) := Prod.ext
        (PingReplyStatus.ahead.inj hstatus).1 (PingReplyStatus.ahead.inj hstatus).2
      change ping.bucketId = id at hid
      rw [hfound, hid] at hhead
      exact logged_of_head hhead

/-- What a new envelope claims was claimed before, or is the head of a peer. -/
theorem claims_step {action : NetworkAction} {envelope : Envelope}
    (henvelope : envelope ∈ (net.step action).envelopes) {id : Uuid} {link : Link}
    {height : ℕ} (hclaims : envelope.Claims id link height) :
    (∃ earlier ∈ net.envelopes, earlier.Claims id link height) ∨
      ∃ key, Logged (net.peer key).logs id height link := by
  cases action with
  | act changed local' => exact Or.inl ⟨envelope, henvelope, hclaims⟩
  | pingPeers changed env bucketId => exact Or.inl ⟨envelope, henvelope, hclaims⟩
  | pingAndCollect sender env bucketId =>
      rcases List.mem_append.mp henvelope with hold | hnew
      · exact Or.inl ⟨envelope, hold, hclaims⟩
      · exact Or.inr ⟨sender, (tellsHead_of_mem_collect hnew).logged hclaims⟩
  | work worker env fuel =>
      rcases mem_envelopes_work henvelope with hold | hnew
      · exact Or.inl ⟨envelope, hold, hclaims⟩
      · exact Or.inr ⟨worker, hnew.logged hclaims⟩
  | deliver number env =>
      rw [step] at henvelope
      cases hopened : net.envelopes[number]? with
      | none =>
          rw [hopened] at henvelope
          exact Or.inl ⟨envelope, henvelope, hclaims⟩
      | some opened =>
          rw [hopened] at henvelope
          have hmem := List.mem_of_getElem? hopened
          cases opened with
          | pong initiator responder pong => exact Or.inl ⟨envelope, henvelope, hclaims⟩
          | answered initiator responder ping pong =>
              exact Or.inl ⟨envelope, henvelope, hclaims⟩
          | ping initiator responder ping =>
              rcases List.mem_append.mp henvelope with hold | hnew
              · exact Or.inl ⟨envelope, hold, hclaims⟩
              · rcases List.mem_cons.mp hnew with rfl | hnew
                · exact Or.inr ⟨responder, logged_of_reply_claims hclaims⟩
                · left
                  rw [List.mem_singleton.mp hnew] at hclaims
                  exact ⟨_, hmem, hclaims⟩

end

end Network

end

end JaxFs

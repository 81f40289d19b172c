import JaxFs.Peer
import JaxFs.ReferencePrimitives

/-!
# Ping

`peer/protocol/messages/ping.rs`, and the ping job that starts an exchange.  The
responder compares heights and answers; behind the initiator, or without the
bucket, it then dispatches a sync job of its own.  The initiator dispatches one when
the answer says that the responder is ahead.
-/

namespace JaxFs

open BucketLogProvider

/-- `Ping`: the message that carries a head to another peer. -/
structure PingMessage where
  bucketId : Uuid
  link : Link
  height : ℕ

inductive PingReplyStatus where
  | notFound
  | ahead (link : Link) (height : ℕ)
  | behind (link : Link) (height : ℕ)
  | inSync
  deriving DecidableEq

structure PingReply where
  bucketId : Uuid
  status : PingReplyStatus

section

variable [P : Primitives] {σ τ : Type}

/-- The `filter_map` of `get_peer_ids` over the keys of the shares. -/
def parsePeerIds : List Name → Except Fault (List PublicKey)
  | [] => .ok []
  | keyHex :: rest =>
      match PublicKey.fromHex keyHex with
      | .ok peerId => do
          let peerIds ← parsePeerIds rest
          pure (peerId :: peerIds)
      | .error (.error _) => parsePeerIds rest
      | .error fault => .error fault

def Manifest.getPeerIds (manifest : Manifest) : Except Fault (List PublicKey) :=
  parsePeerIds (manifest.shares.toList.map Prod.fst)

/-- The peers of the manifest at our head, or only `other` when it does not load. -/
def PeerState.headPeerIds (peer : PeerState σ) (ourLink : Link) (other : PublicKey) :
    Except Fault (List PublicKey) :=
  match (peer.world.blobs ourLink.hash).bind P.decodeManifest with
  | some manifest => manifest.getPeerIds
  | none => .ok [other]

/-- A sync job for the target, dispatched once its peers are known.  A dispatch that
fails is only logged. -/
def dispatchSync (env : PeerEnv) (bucketId : Uuid) (link : Link) (height : ℕ)
    (found : Except Fault (List PublicKey)) : EStateM Fault (PeerState σ) Unit := do
  let peerIds ← EStateM.ofExcept found
  modify (fun peer =>
    ((dispatch env (.syncBucket ⟨bucketId, ⟨link, height, peerIds⟩⟩)).run peer).state)

/-- `handle_message_side_effect`. -/
def handleMessageSideEffect (env : PeerEnv) (sender : PublicKey) (ping : PingMessage)
    (pong : PingReply) : EStateM Fault (PeerState σ) Unit := do
  match pong.status with
  | .behind ourLink _ =>
      let peer ← getThe (PeerState σ)
      dispatchSync env ping.bucketId ping.link ping.height
        (peer.headPeerIds ourLink sender)
  | .ahead _ _ => pure ()
  | .inSync => pure ()
  | .notFound =>
      dispatchSync env ping.bucketId ping.link ping.height (.ok [sender])

variable [BucketLogProvider σ] [BucketLogProvider τ]

def handleMessage (peer : PeerState σ) (ping : PingMessage) : PingReply :=
  match head peer.logs ping.bucketId none with
  | .error _ => ⟨ping.bucketId, .notFound⟩
  | .ok (link, height) =>
      if height < ping.height then ⟨ping.bucketId, .behind link height⟩
      else if height = ping.height then ⟨ping.bucketId, .inSync⟩
      else ⟨ping.bucketId, .ahead link height⟩

def handleReply (env : PeerEnv) (recipient : PublicKey) (pong : PingReply) :
    EStateM Fault (PeerState σ) Unit := do
  match pong.status with
  | .notFound => pure ()
  | .ahead link height =>
      let peer ← getThe (PeerState σ)
      dispatchSync env pong.bucketId link height
        (match head peer.logs pong.bucketId none with
          | .ok (ourLink, _) => peer.headPeerIds ourLink recipient
          | .error _ => .ok [recipient])
  | .behind _ _ => pure ()
  | .inSync => pure ()

/-- One ping of the job `ping_peer`, delivered: the initiator and the responder
afterwards.  Without a head nothing is sent. -/
def exchange (env env' : PeerEnv) (bucketId : Uuid) (initiator : PeerState σ)
    (responder : PeerState τ) : PeerState σ × PeerState τ :=
  match head initiator.logs bucketId none with
  | .error _ => (initiator, responder)
  | .ok (ourLink, ourHeight) =>
      let ping : PingMessage := ⟨bucketId, ourLink, ourHeight⟩
      let pong := handleMessage responder ping
      (((handleReply env (P.publicKey env'.secretKey) pong).run initiator).state,
        ((handleMessageSideEffect env' (P.publicKey env.secretKey) ping pong).run
          responder).state)

/-! ## When a job is dispatched -/

/-- The queue has one more sync job, for the given head. -/
def SyncDispatched (before after : List SyncJob) (bucketId : Uuid) (target : Link × ℕ) :
    Prop :=
  ∃ peerIds, after =
    before ++ [.syncBucket ⟨bucketId, ⟨target.1, target.2, peerIds⟩⟩]

/-- The peers to download from can be read off, and the queue takes the job. -/
def TakesSync (env : PeerEnv) (peer : PeerState σ) (bucketId : Uuid)
    (target : Link × ℕ) (found : Except Fault (List PublicKey)) : Prop :=
  ∃ peerIds, found = .ok peerIds ∧
    env.accepts peer.jobs (.syncBucket ⟨bucketId, ⟨target.1, target.2, peerIds⟩⟩) = true

omit [BucketLogProvider σ] in
theorem run_dispatchSync_ok (env : PeerEnv) (bucketId : Uuid) (link : Link) (height : ℕ)
    (peerIds : List PublicKey) (peer : PeerState σ) :
    ((dispatchSync env bucketId link height (.ok peerIds)).run peer).state =
      if env.accepts peer.jobs (.syncBucket ⟨bucketId, ⟨link, height, peerIds⟩⟩) then
        { peer with
          jobs := peer.jobs ++ [.syncBucket ⟨bucketId, ⟨link, height, peerIds⟩⟩] }
      else peer := by
  change (EStateM.Result.state (if _ then _ else _) : PeerState σ) = _
  split_ifs <;> rfl

omit [BucketLogProvider σ] in
/-- A dispatch adds its job exactly when the peer takes it. -/
theorem syncDispatched_dispatchSync_iff (env : PeerEnv) (bucketId : Uuid)
    (target : Link × ℕ) (found : Except Fault (List PublicKey)) (peer : PeerState σ) :
    SyncDispatched peer.jobs
        ((dispatchSync env bucketId target.1 target.2 found).run peer).state.jobs bucketId
        target ↔
      TakesSync env peer bucketId target found := by
  cases found with
  | error fault =>
      constructor
      · rintro ⟨peerIds, hjobs⟩
        change peer.jobs = _ at hjobs
        exact absurd hjobs (by simp)
      · rintro ⟨peerIds, hfound, _⟩
        contradiction
  | ok peerIds =>
      rw [run_dispatchSync_ok]
      by_cases haccepts : env.accepts peer.jobs
          (.syncBucket ⟨bucketId, ⟨target.1, target.2, peerIds⟩⟩) = true
      · rw [if_pos haccepts]
        exact ⟨fun _ => ⟨peerIds, rfl, haccepts⟩, fun _ => ⟨peerIds, rfl⟩⟩
      · rw [if_neg haccepts]
        constructor
        · rintro ⟨others, hjobs⟩
          exact absurd hjobs (by simp)
        · rintro ⟨others, hfound, htakes⟩
          cases hfound
          contradiction

/-- One side dispatched a job for the head of the other. -/
def Noticed (bucketId : Uuid) (initiator : PeerState σ) (responder : PeerState τ)
    (after : PeerState σ × PeerState τ) : Prop :=
  (∃ ours, head initiator.logs bucketId none = .ok ours ∧
    SyncDispatched responder.jobs after.2.jobs bucketId ours) ∨
  ∃ theirs, head responder.logs bucketId none = .ok theirs ∧
    SyncDispatched initiator.jobs after.1.jobs bucketId theirs

/-- A ping between different heads is noticed; one between equal heads changes
nothing. -/
def NoticesDivergence (env env' : PeerEnv) (bucketId : Uuid) (initiator : PeerState σ)
    (responder : PeerState τ) : Prop :=
  (head responder.logs bucketId none ≠ head initiator.logs bucketId none →
    Noticed bucketId initiator responder
      (exchange env env' bucketId initiator responder)) ∧
  (head responder.logs bucketId none = head initiator.logs bucketId none →
    exchange env env' bucketId initiator responder = (initiator, responder))

/-- The heads are equal, or the side that is to act on the difference of the heights
takes the job. -/
def LaggardTakes (env env' : PeerEnv) (bucketId : Uuid) (initiator : PeerState σ)
    (responder : PeerState τ) (ours : Link × ℕ) : Prop :=
  match head responder.logs bucketId none with
  | .error _ =>
      TakesSync env' responder bucketId ours (.ok [P.publicKey env.secretKey])
  | .ok theirs =>
      theirs = ours ∨
      theirs.2 < ours.2 ∧ TakesSync env' responder bucketId ours
        (responder.headPeerIds theirs.1 (P.publicKey env.secretKey)) ∨
      ours.2 < theirs.2 ∧ TakesSync env initiator bucketId theirs
        (initiator.headPeerIds ours.1 (P.publicKey env'.secretKey))

omit P in
theorem not_syncDispatched_self (jobs : List SyncJob) (bucketId : Uuid)
    (target : Link × ℕ) : ¬ SyncDispatched jobs jobs bucketId target := by
  rintro ⟨peerIds, hjobs⟩
  exact absurd hjobs (by simp)

section

variable {env env' : PeerEnv} {bucketId : Uuid} {initiator : PeerState σ}
  {responder : PeerState τ} {ours theirs : Link × ℕ}

omit [BucketLogProvider τ] in
theorem run_handleReply_ahead (recipient : PublicKey) (link : Link) (height : ℕ) :
    (handleReply env recipient ⟨bucketId, .ahead link height⟩).run initiator =
      (dispatchSync env bucketId link height
        (match head initiator.logs bucketId none with
          | .ok (ourLink, _) => initiator.headPeerIds ourLink recipient
          | .error _ => .ok [recipient])).run initiator := rfl

theorem noticed_iff_of_responder (hhead : head initiator.logs bucketId none = .ok ours)
    (after : PeerState τ) :
    Noticed bucketId initiator responder (initiator, after) ↔
      SyncDispatched responder.jobs after.jobs bucketId ours := by
  constructor
  · rintro (⟨target, htarget, hsent⟩ | ⟨target, _, hsent⟩)
    · rw [hhead] at htarget
      cases htarget
      exact hsent
    · exact absurd hsent (not_syncDispatched_self _ _ _)
  · intro hsent
    exact Or.inl ⟨ours, hhead, hsent⟩

theorem noticed_iff_of_initiator
    (htheirs : head responder.logs bucketId none = .ok theirs) (after : PeerState σ) :
    Noticed bucketId initiator responder (after, responder) ↔
      SyncDispatched initiator.jobs after.jobs bucketId theirs := by
  constructor
  · rintro (⟨target, _, hsent⟩ | ⟨target, htarget, hsent⟩)
    · exact absurd hsent (not_syncDispatched_self _ _ _)
    · rw [htheirs] at htarget
      cases htarget
      exact hsent
  · intro hsent
    exact Or.inr ⟨theirs, htheirs, hsent⟩

/-- Without a head the responder asks for ours. -/
theorem exchange_notFound {error : BucketLogError}
    (hhead : head initiator.logs bucketId none = .ok ours)
    (hnone : head responder.logs bucketId none = .error error) :
    exchange env env' bucketId initiator responder =
      (initiator, ((dispatchSync env' bucketId ours.1 ours.2
        (.ok [P.publicKey env.secretKey])).run responder).state) := by
  unfold exchange handleMessage
  rw [hhead]
  dsimp only
  rw [hnone]
  rfl

theorem exchange_behind (hhead : head initiator.logs bucketId none = .ok ours)
    (htheirs : head responder.logs bucketId none = .ok theirs)
    (hheight : theirs.2 < ours.2) :
    exchange env env' bucketId initiator responder =
      (initiator, ((dispatchSync env' bucketId ours.1 ours.2
        (responder.headPeerIds theirs.1 (P.publicKey env.secretKey))).run
          responder).state) := by
  unfold exchange handleMessage
  rw [hhead]
  dsimp only
  rw [htheirs]
  dsimp only
  rw [if_pos hheight]
  rfl

theorem exchange_inSync (hhead : head initiator.logs bucketId none = .ok ours)
    (htheirs : head responder.logs bucketId none = .ok theirs)
    (hheight : theirs.2 = ours.2) :
    exchange env env' bucketId initiator responder = (initiator, responder) := by
  unfold exchange handleMessage
  rw [hhead]
  dsimp only
  rw [htheirs]
  dsimp only
  rw [if_neg hheight.not_lt, if_pos hheight]
  rfl

theorem exchange_ahead (hhead : head initiator.logs bucketId none = .ok ours)
    (htheirs : head responder.logs bucketId none = .ok theirs)
    (hheight : ours.2 < theirs.2) :
    exchange env env' bucketId initiator responder =
      (((dispatchSync env bucketId theirs.1 theirs.2
        (initiator.headPeerIds ours.1 (P.publicKey env'.secretKey))).run
          initiator).state, responder) := by
  unfold exchange handleMessage
  rw [hhead]
  dsimp only
  rw [htheirs]
  dsimp only
  rw [if_neg hheight.not_gt, if_neg hheight.ne']
  rw [run_handleReply_ahead, hhead]
  rfl

/-- A ping notices a divergence exactly when the heights tell it and the side that
lags behind takes the job. -/
theorem noticesDivergence_iff (hhead : head initiator.logs bucketId none = .ok ours) :
    NoticesDivergence env env' bucketId initiator responder ↔
      LaggardTakes env env' bucketId initiator responder ours := by
  unfold NoticesDivergence LaggardTakes
  rw [hhead]
  cases htheirs : head responder.logs bucketId none with
  | error error =>
      rw [exchange_notFound hhead htheirs, noticed_iff_of_responder hhead,
        syncDispatched_dispatchSync_iff]
      simp
  | ok theirs =>
      dsimp only
      rcases lt_trichotomy theirs.2 ours.2 with hlower | hequal | hhigher
      · have hne : theirs ≠ ours := fun heq => absurd (congrArg Prod.snd heq) hlower.ne
        rw [exchange_behind hhead htheirs hlower, noticed_iff_of_responder hhead,
          syncDispatched_dispatchSync_iff]
        simp [hne, hlower, hlower.not_gt]
      · -- equal heights are answered by "in sync", whatever the links
        rw [exchange_inSync hhead htheirs hequal, noticed_iff_of_responder hhead]
        simp [hequal, not_syncDispatched_self]
      · have hne : theirs ≠ ours := fun heq => absurd (congrArg Prod.snd heq) hhigher.ne'
        rw [exchange_ahead hhead htheirs hhigher, noticed_iff_of_initiator htheirs,
          syncDispatched_dispatchSync_iff]
        simp [hne, hhigher, hhigher.not_gt]

end

end

/-! ## A fork at one height -/

namespace Reference

/-- A log with the genesis of the bucket. -/
def genesisLog : MemoryBucketLogProvider :=
  (append MemoryBucketLogProvider.new ⟨7⟩ "docs".toList (manifestLink genesis) none 0
    false).2

/-- The same with one version on top of it. -/
def editedLog (link : Link) : MemoryBucketLogProvider :=
  (append genesisLog ⟨7⟩ "docs".toList link (some (manifestLink genesis)) 1 false).2

def idlePeer (log : MemoryBucketLogProvider) : PeerState MemoryBucketLogProvider :=
  ⟨emptyWorld, log, []⟩

/-- A peer whose queue takes every job. -/
def willing (secretKey : SecretKey) : PeerEnv :=
  ⟨secretKey, fun _ _ => none, fun _ _ => true⟩

def aliceEdit : Link := ⟨ldRawCodec, ⟨[1]⟩⟩

def bobEdit : Link := ⟨ldRawCodec, ⟨[2]⟩⟩

theorem head_logs :
    head genesisLog ⟨7⟩ none = .ok (manifestLink genesis, 0) ∧
      head (editedLog aliceEdit) ⟨7⟩ none = .ok (aliceEdit, 1) ∧
      head (editedLog bobEdit) ⟨7⟩ none = .ok (bobEdit, 1) := by
  decide +kernel

/-- Two peers that edited the same version have a head each, and a ping between them
dispatches nothing. -/
theorem fork_not_noticed :
    ¬ NoticesDivergence (willing alice) (willing bob) ⟨7⟩ (idlePeer (editedLog aliceEdit))
      (idlePeer (editedLog bobEdit)) := by
  obtain ⟨_, halice, hbob⟩ := head_logs
  intro hnotices
  have htwo : (bobEdit, 1) ≠ (aliceEdit, 1) := by decide
  have hsame : exchange (willing alice) (willing bob) ⟨7⟩
      (idlePeer (editedLog aliceEdit)) (idlePeer (editedLog bobEdit)) =
        (idlePeer (editedLog aliceEdit), idlePeer (editedLog bobEdit)) :=
    exchange_inSync halice hbob rfl
  have hnoticed := hnotices.1 (by
    intro hequal
    exact htwo (Except.ok.inj (hbob.symm.trans (hequal.trans halice))))
  rw [hsame] at hnoticed
  rcases hnoticed with ⟨_, _, hsent⟩ | ⟨_, _, hsent⟩
  · exact not_syncDispatched_self _ _ _ hsent
  · exact not_syncDispatched_self _ _ _ hsent

theorem lag_noticed :
    head (idlePeer (editedLog aliceEdit)).logs ⟨7⟩ none = .ok (aliceEdit, 1) ∧
      NoticesDivergence (willing alice) (willing bob) ⟨7⟩
        (idlePeer (editedLog aliceEdit)) (idlePeer genesisLog) := by
  have halice : head (idlePeer (editedLog aliceEdit)).logs ⟨7⟩ none =
      .ok (aliceEdit, 1) := head_logs.2.1
  have hgenesis : head (idlePeer genesisLog).logs ⟨7⟩ none =
      .ok (manifestLink genesis, 0) := head_logs.1
  refine ⟨halice, (noticesDivergence_iff halice).mpr ?_⟩
  unfold LaggardTakes
  rw [hgenesis]
  have hfound : (idlePeer genesisLog).headPeerIds (manifestLink genesis)
      (primitives.publicKey (willing alice).secretKey) =
        .ok [primitives.publicKey (willing alice).secretKey] := rfl
  exact Or.inr (Or.inl ⟨Nat.zero_lt_one, _, hfound, rfl⟩)

end Reference

end JaxFs

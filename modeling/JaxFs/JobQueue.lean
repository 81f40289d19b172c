import JaxFs.LogMatching

/-!
# The queue of a worker

`sync_provider.rs` of the daemon: a bounded channel that refuses a job when it is full,
and one worker that takes the jobs in order.  Whatever a peer does, its queue only grows
at the end, by pings and pins jobs of its own and by sync jobs for what other peers have
told, and only the worker takes jobs away.  A job that was accepted is therefore executed
once, after the jobs before it.
-/

namespace JaxFs

open BucketLogProvider Queue

/-- `max_queue_size` of the configuration; without it the channel is unbounded. -/
def tryAccept (maxQueueSize : Option ℕ) (jobs : List SyncJob) (_job : SyncJob) : Bool :=
  maxQueueSize.all (fun size => decide (jobs.length < size))

/-- The default of `QueuedSyncConfig`. -/
def defaultQueueSize : ℕ := 1000

theorem tryAccept_eq_true {size : ℕ} {jobs : List SyncJob} {job : SyncJob}
    (h : tryAccept (some size) jobs job = true) : jobs.length < size := by
  simpa [tryAccept] using h

def SyncJob.IsPins : SyncJob → Prop
  | .downloadPins _ _ => True
  | _ => False

theorem SyncJob.IsPins.not_claims {job : SyncJob} (h : job.IsPins) (id : Uuid) (link : Link)
    (height : ℕ) : ¬ job.Claims id link height := by
  cases job with
  | syncBucket job => exact absurd h (by simp [SyncJob.IsPins])
  | downloadPins pinsLink peerIds => simp [SyncJob.Claims]
  | pingPeer bucketId peerId => simp [SyncJob.Claims]

/-- A job that a peer dispatches on its own account. -/
def SyncJob.IsOwn (job : SyncJob) : Prop := job.IsPing ∨ job.IsPins

theorem SyncJob.IsOwn.not_claims {job : SyncJob} (h : job.IsOwn) (id : Uuid) (link : Link)
    (height : ℕ) : ¬ job.Claims id link height := by
  rcases h with hping | hpins
  · exact hping.not_claims id link height
  · exact hpins.not_claims id link height

section

variable [P : Primitives] {σ : Type}

/-! ## A sync -/

/-- The relation on queues, for the states of a peer. -/
def JobsRel (rel : List SyncJob → List SyncJob → Prop) (state state' : PeerState σ) : Prop :=
  rel state.jobs state'.jobs

section

variable {env : PeerEnv} {kind : SyncJob → Prop} {rel : List SyncJob → List SyncJob → Prop}

theorem jobsRel_trans (rules : Rules env.accepts kind rel) (state state' state'' : PeerState σ)
    (h : JobsRel rel state state') (h' : JobsRel rel state' state'') :
    JobsRel rel state state'' := rules.trans _ _ _ h h'

theorem jobsRel_refl (rules : Rules env.accepts kind rel) (state : PeerState σ) :
    JobsRel rel state state := rules.refl state.jobs

theorem jobsRel_of_eq (rules : Rules env.accepts kind rel) {state state' : PeerState σ}
    (h : state'.jobs = state.jobs) : JobsRel rel state state' := by
  unfold JobsRel
  rw [h]
  exact rules.refl state.jobs

theorem QueuesOnly.jobsRel {state state' : PeerState σ} (h : QueuesOnly rel state state') :
    JobsRel rel state state' := by
  obtain ⟨jobs, rfl, hjobs⟩ := h
  exact hjobs

theorem jobsRel_downloadHash (rules : Rules env.accepts kind rel) (link : Link)
    (peerIds : List PublicKey) :
    EStateM.Preserves (JobsRel rel) (downloadHash env link peerIds : SyncM σ Unit) := by
  intro state
  rcases downloadHash_cases env link peerIds state with ⟨state', hrun, -, hfetched⟩ | ⟨hrun, -⟩
  · rw [hrun]
    exact jobsRel_of_eq rules hfetched.jobs
  · rw [hrun]
    exact jobsRel_refl rules _

theorem jobsRel_getManifest (rules : Rules env.accepts kind rel) (link : Link) :
    EStateM.Preserves (JobsRel rel) (getManifest link : SyncM σ Manifest) := by
  intro state
  unfold getManifest EStateM.run
  dsimp only
  cases (state.world.blobs link.hash).bind P.decodeManifest with
  | some manifest => exact jobsRel_refl rules _
  | none => exact jobsRel_refl rules _

theorem jobsRel_downloadManifests (rules : Rules env.accepts kind rel) (stop : Option Link)
    (peerIds : List PublicKey) (fuel : ℕ) (link : Link) :
    EStateM.Preserves (JobsRel rel)
      (downloadManifests env stop peerIds fuel link : SyncM σ (List (Manifest × Link))) := by
  induction fuel generalizing link with
  | zero => exact jobsRel_refl rules
  | succ fuel ih =>
      unfold downloadManifests
      apply (jobsRel_downloadHash rules link peerIds).bind (jobsRel_trans rules)
      intro _
      apply (jobsRel_getManifest rules link).bind (jobsRel_trans rules)
      intro manifest
      split_ifs
      · exact jobsRel_refl rules
      · cases manifest.previous with
        | none => exact jobsRel_refl rules
        | some previous =>
            apply (ih previous).bind (jobsRel_trans rules)
            exact fun _ => jobsRel_refl rules

theorem jobsRel_downloadManifestChain (rules : Rules env.accepts kind rel) (fuel : ℕ)
    (start : Link) (stop : Option Link) (peerIds : List PublicKey)
    (trustedBase : Option Manifest) :
    EStateM.Preserves (JobsRel rel) (downloadManifestChain env fuel start stop peerIds
      trustedBase : SyncM σ (List (Manifest × Link))) := by
  apply (jobsRel_downloadManifests rules stop peerIds fuel start).bind (jobsRel_trans rules)
  intro chain
  dsimp only
  cases verifyChain trustedBase chain.reverse with
  | error error => exact jobsRel_refl rules
  | ok _ => exact jobsRel_refl rules

variable [BucketLogProvider σ]

theorem jobsRel_findCommonAncestor (rules : Rules env.accepts kind rel) (bucketId : Uuid)
    (peerIds : List PublicKey) (fuel : ℕ) (link : Link) :
    EStateM.Preserves (JobsRel rel) (findCommonAncestor env bucketId peerIds fuel link :
      SyncM σ (Option (Link × ℕ))) := by
  induction fuel generalizing link with
  | zero => exact jobsRel_refl rules
  | succ fuel ih =>
      unfold findCommonAncestor
      apply (jobsRel_downloadHash rules link peerIds).bind (jobsRel_trans rules)
      intro _
      apply (jobsRel_getManifest rules link).bind (jobsRel_trans rules)
      intro manifest
      have hget : EStateM.Preserves (JobsRel rel)
          (MonadState.get : SyncM σ (PeerState σ)) := jobsRel_refl rules
      apply hget.bind (jobsRel_trans rules)
      intro current
      have hrest := preserves_previous (R := JobsRel rel) (jobsRel_refl rules) ih manifest
      cases has current.logs bucketId link with
      | error _ => exact hrest
      | ok heights =>
          cases heights with
          | nil => exact hrest
          | cons _ _ => exact jobsRel_refl rules

theorem jobsRel_applyManifestChain (rules : Rules env.accepts SyncJob.IsPins rel)
    (bucketId : Uuid) (manifests : List (Manifest × Link)) :
    EStateM.Preserves (JobsRel rel)
      (applyManifestChain env bucketId manifests : SyncM σ Unit) := by
  unfold applyManifestChain
  cases manifests.head? with
  | none => exact jobsRel_refl rules
  | some first =>
      dsimp only
      have happend : EStateM.Preserves (JobsRel rel)
          (appendLog bucketId first.1.name first.2 first.1.previous first.1.height
            first.1.isPublished : SyncM σ Unit) := by
        intro state
        apply jobsRel_of_eq rules
        rw [state_appendLog]
      apply happend.bind (jobsRel_trans rules)
      intro _ state
      have hpins : SyncJob.IsPins (.downloadPins first.1.pins
          (first.1.shares.toList.map (fun share => share.2.principal.identity))) := trivial
      exact (queuesOnly_dispatch rules hpins state).jobsRel

theorem jobsRel_executeFrom (rules : Rules env.accepts SyncJob.IsPins rel) (fuel : ℕ)
    (job : SyncBucketJob) (commonAncestor : Option (Link × ℕ)) :
    EStateM.Preserves (JobsRel rel) (executeFrom env fuel job commonAncestor : SyncM σ Unit) := by
  unfold executeFrom
  have hbase : EStateM.Preserves (JobsRel rel)
      (loadTrustedBase (commonAncestor.map Prod.fst) : SyncM σ (Option Manifest)) := by
    unfold loadTrustedBase
    cases commonAncestor.map Prod.fst with
    | none => exact jobsRel_refl rules
    | some link =>
        apply (jobsRel_getManifest rules link).bind (jobsRel_trans rules)
        exact fun _ => jobsRel_refl rules
  apply hbase.bind (jobsRel_trans rules)
  intro trustedBase
  apply (jobsRel_downloadManifestChain rules _ _ _ _ _).bind (jobsRel_trans rules)
  intro manifests
  unfold verifyAndApply
  cases manifests.getLast? with
  | none => exact jobsRel_refl rules
  | some latest =>
      dsimp only
      cases verifyProvenance env latest.1 trustedBase with
      | error error => exact jobsRel_refl rules
      | ok result =>
          cases result with
          | notAuthorized => exact jobsRel_refl rules
          | valid => exact jobsRel_applyManifestChain rules _ _
          | unsignedLegacy => exact jobsRel_applyManifestChain rules _ _

/-- A sync dispatches pins jobs only. -/
theorem jobsRel_execute (rules : Rules env.accepts SyncJob.IsPins rel) (fuel : ℕ)
    (job : SyncBucketJob) :
    EStateM.Preserves (JobsRel rel) (execute env fuel job : SyncM σ Unit) := by
  unfold execute
  have hget : EStateM.Preserves (JobsRel rel)
      (MonadState.get : SyncM σ (PeerState σ)) := jobsRel_refl rules
  apply hget.bind (jobsRel_trans rules)
  intro state
  cases BucketLogProvider.exists state.logs job.bucketId with
  | error error => exact jobsRel_refl rules
  | ok known =>
      cases known with
      | false => exact jobsRel_executeFrom rules fuel job none
      | true =>
          apply (jobsRel_findCommonAncestor rules _ _ _ _).bind (jobsRel_trans rules)
          intro found
          cases found with
          | none => exact jobsRel_refl rules
          | some ancestor => exact jobsRel_executeFrom rules fuel job (some ancestor)

end

/-! ## Local work -/

section

variable {env : PeerEnv} {rel : List SyncJob → List SyncJob → Prop}

def MountJobsRel (rel : List SyncJob → List SyncJob → Prop) (state state' : PeerMount σ) :
    Prop :=
  rel state.peer.jobs state'.peer.jobs

theorem mountJobsRel_refl (rules : Rules env.accepts SyncJob.IsPing rel)
    (state : PeerMount σ) : MountJobsRel rel state state := rules.refl state.peer.jobs

theorem mountJobsRel_trans (rules : Rules env.accepts SyncJob.IsPing rel)
    (state state' state'' : PeerMount σ) (h : MountJobsRel rel state state')
    (h' : MountJobsRel rel state' state'') : MountJobsRel rel state state'' :=
  rules.trans _ _ _ h h'

theorem jobs_onMount {α : Type} (x : MountM α) (state : PeerMount σ) :
    ((onMount x).run state).state.peer.jobs = state.peer.jobs := by
  cases hrun : x.run state.mount with
  | ok a mount =>
      rw [run_onMount_of_ok hrun]
      rfl
  | error fault mount =>
      rw [run_onMount_of_error hrun]
      rfl

theorem mountJobsRel_pingShares (rules : Rules env.accepts SyncJob.IsPing rel)
    (bucketId : Uuid) (keys : List Name) :
    EStateM.Preserves (MountJobsRel (σ := σ) rel) (pingShares env bucketId keys) := by
  induction keys with
  | nil => exact mountJobsRel_refl rules
  | cons key rest ih =>
      rw [pingShares]
      cases PublicKey.fromHex key with
      | ok peerPublicKey =>
          dsimp only
          split_ifs
          · exact ih
          · have hdispatch : EStateM.Preserves (MountJobsRel (σ := σ) rel)
                (tryDispatch env (.pingPeer bucketId peerPublicKey)) := by
              intro state
              have hping : SyncJob.IsPing (.pingPeer bucketId peerPublicKey) := trivial
              exact (queuesOnly_dispatch rules hping state.peer).jobsRel
            exact hdispatch.bind (mountJobsRel_trans rules) (fun _ => ih)
      | error fault =>
          cases fault with
          | error error => exact ih
          | panic => exact mountJobsRel_refl rules
          | outOfFuel => exact mountJobsRel_refl rules

variable [BucketLogProvider σ]

theorem mountJobsRel_saveMount (rules : Rules env.accepts SyncJob.IsPing rel) (publish : Bool)
    (state : PeerMount σ) :
    rel state.peer.jobs ((saveMount env publish).run state).state.peer.jobs := by
  cases hsave : (save publish).run state.mount with
  | error fault mount =>
      unfold saveMount
      rw [run_getPeer_bind, EStateM.run_bind_of_error (run_onMount_of_error hsave)]
      exact rules.refl _
  | ok result mount =>
      obtain ⟨link, previousLink, height⟩ := result
      have happend : EStateM.Preserves (MountJobsRel (σ := σ) rel)
          (appendVersion state.inner.manifest.id state.inner.manifest.name link previousLink
            height mount.inner.manifest.isPublished) := by
        intro state
        unfold MountJobsRel
        rw [state_appendVersion]
        exact rules.refl _
      have hpings := mountJobsRel_pingShares (σ := σ) rules state.inner.manifest.id
        (mount.inner.manifest.shares.toList.map Prod.fst)
      have hreturn : EStateM.Preserves (MountJobsRel (σ := σ) rel)
          (pure link : PeerM σ Link) := mountJobsRel_refl rules
      rw [run_saveMount_of_save hsave]
      exact happend.bind (mountJobsRel_trans rules) (fun _ =>
        hpings.bind (mountJobsRel_trans rules) (fun _ => hreturn)) (state.setMount mount)

theorem jobs_create (env : PeerEnv) (id : Uuid) (name : Name) (state : PeerState σ) :
    ((create env id name).run state).state.jobs = state.jobs := by
  rw [EStateM.run]
  unfold create
  split_ifs
  · rfl
  · cases (init id name env.secretKey).run state.world with
    | error fault world => rfl
    | ok mount world =>
        dsimp only
        cases append state.logs id name mount.link none 0 false with
        | mk verdict logs =>
            cases verdict with
            | ok _ => rfl
            | error error => rfl

/-- The environments that an action dispatches in keep the rules. -/
def PeerAction.KeepsRules (kind : SyncJob → Prop)
    (rel : List SyncJob → List SyncJob → Prop) : PeerAction → Prop
  | .saveMount env _ _ => Rules env.accepts kind rel
  | .sync env _ _ => Rules env.accepts kind rel
  | _ => ∀ jobs, rel jobs jobs

/-- Local work dispatches jobs of the peer's own. -/
theorem rel_localStep (system : PeerSystem σ) (action : PeerAction)
    (h : action.KeepsRules SyncJob.IsOwn rel) :
    rel system.peer.jobs (system.step action).peer.jobs := by
  cases action with
  | create env id name =>
      have hjobs := jobs_create env id name system.peer
      rw [PeerSystem.step]
      dsimp only
      rw [hjobs]
      exact h _
  | mount env bucketId =>
      rw [PeerSystem.step]
      cases system.peer.mountHead env bucketId with
      | ok inner => exact h _
      | error fault => exact h _
  | load link secretKey =>
      rw [PeerSystem.step]
      cases JaxFs.load system.peer.world.blobs link secretKey with
      | ok inner => exact h _
      | error fault => exact h _
  | operate mount action =>
      rw [PeerSystem.step]
      cases system.mounts[mount]? with
      | none => exact h _
      | some inner =>
          have hjobs := jobs_onMount action.run ⟨system.peer, inner⟩
          dsimp only [PeerSystem.update]
          rw [hjobs]
          exact h _
  | mergeFrom mount incoming fuel resolver =>
      rw [PeerSystem.step]
      cases system.mounts[mount]? with
      | none => exact h _
      | some inner =>
          cases system.mounts[incoming]? with
          | none => exact h _
          | some other =>
              have hjobs := jobs_onMount (mergeFrom fuel other resolver) ⟨system.peer, inner⟩
              dsimp only [PeerSystem.update]
              rw [hjobs]
              exact h _
  | saveMount env mount publish =>
      have rules : Rules env.accepts SyncJob.IsOwn rel := h
      rw [PeerSystem.step]
      cases system.mounts[mount]? with
      | none => exact rules.refl _
      | some inner =>
          exact mountJobsRel_saveMount (rules.of_kind (fun _ => Or.inl)) publish
            ⟨system.peer, inner⟩
  | sync env fuel job =>
      have rules : Rules env.accepts SyncJob.IsOwn rel := h
      exact jobsRel_execute (rules.of_kind (fun _ => Or.inr)) fuel job system.peer

omit P in
theorem PeerAction.keepsRules_enqueues (kind : SyncJob → Prop) (action : PeerAction) :
    action.KeepsRules kind (Enqueues kind) := by
  cases action with
  | saveMount env mount publish => exact enqueues_rules env.accepts kind
  | sync env fuel job => exact enqueues_rules env.accepts kind
  | _ => exact Enqueues.refl

end

/-! ## The network -/

variable [BucketLogProvider σ] {rel : List SyncJob → List SyncJob → Prop}

namespace Network

/-- The job that an action takes from the queue of a peer, if it is a turn of its worker. -/
def taken (key : PublicKey) (net : Network σ) : NetworkAction → List SyncJob
  | .work worker _ _ => if worker = key then (net.peer key).jobs.take 1 else []
  | _ => []

/-- The jobs that the worker of a peer executes along a run, in order. -/
def executed (key : PublicKey) (net : Network σ) : List NetworkAction → List SyncJob
  | [] => []
  | action :: rest => net.taken key action ++ executed key (net.step action) rest

end Network

/-- The environments in which an action may dispatch jobs keep the rules. -/
def NetworkAction.KeepsRules (rel : List SyncJob → List SyncJob → Prop) :
    NetworkAction → Prop
  | .act _ action => action.KeepsRules (fun _ => True) rel
  | .pingPeers _ env _ => Rules env.accepts (fun _ => True) rel
  | .pingAndCollect _ _ _ => ∀ jobs, rel jobs jobs
  | .work _ env _ => Rules env.accepts (fun _ => True) rel
  | .deliver _ env => Rules env.accepts (fun _ => True) rel

omit P in
theorem PeerAction.KeepsRules.refl {kind : SyncJob → Prop} {action : PeerAction}
    (h : action.KeepsRules kind rel) (jobs : List SyncJob) : rel jobs jobs := by
  cases action with
  | saveMount env mount publish => exact Rules.refl h jobs
  | sync env fuel job => exact Rules.refl h jobs
  | _ => exact h jobs

omit P in
theorem PeerAction.KeepsRules.of_kind {kind kind' : SyncJob → Prop} {action : PeerAction}
    (h : action.KeepsRules kind rel) (hkind : ∀ job, kind' job → kind job) :
    action.KeepsRules kind' rel := by
  cases action with
  | saveMount env mount publish => exact Rules.of_kind h hkind
  | sync env fuel job => exact Rules.of_kind h hkind
  | _ => exact h

omit P in
theorem NetworkAction.KeepsRules.refl {action : NetworkAction} (h : action.KeepsRules rel)
    (jobs : List SyncJob) : rel jobs jobs := by
  cases action with
  | act key action => exact PeerAction.KeepsRules.refl h jobs
  | pingAndCollect sender env bucketId => exact h jobs
  | pingPeers changed env bucketId => exact Rules.refl h jobs
  | work worker env fuel => exact Rules.refl h jobs
  | deliver number env => exact Rules.refl h jobs

namespace Network

variable {net : Network σ} {key : PublicKey}

omit [BucketLogProvider σ] in
/-- The queue of a peer after its state was replaced. -/
theorem rel_setPeer (hrefl : ∀ jobs, rel jobs jobs) {changed : PublicKey}
    {state : PeerState σ} (h : rel (net.peer changed).jobs state.jobs) (key : PublicKey) :
    rel (net.peer key).jobs ((net.setPeer changed state).peer key).jobs := by
  by_cases heq : key = changed
  · subst heq
    rw [peer_setPeer_self]
    exact h
  · rw [peer_setPeer_of_ne heq]
    exact hrefl _

theorem rel_executeJob {env : PeerEnv} (rules : Rules env.accepts (fun _ => True) rel)
    (worker : PublicKey) (fuel : ℕ) (job : SyncJob) (key : PublicKey) :
    rel (net.peer key).jobs ((net.executeJob worker env fuel job).peer key).jobs := by
  cases job with
  | syncBucket job =>
      apply rel_setPeer rules.refl
      exact jobsRel_execute (rules.of_kind (fun _ _ => trivial)) fuel job (net.peer worker)
  | downloadPins pinsLink peerIds =>
      apply rel_setPeer rules.refl
      obtain ⟨hashes, hfetched⟩ := fetched_downloadPins env pinsLink peerIds (net.peer worker)
      rw [hfetched.jobs]
      exact rules.refl _
  | pingPeer bucketId peerId =>
      rw [peer_executeJob_pingPeer]
      exact rules.refl _

theorem rel_openEnvelope {env : PeerEnv} (rules : Rules env.accepts (fun _ => True) rel)
    (envelope : Envelope) (key : PublicKey) :
    rel (net.peer key).jobs ((net.openEnvelope env envelope).peer key).jobs := by
  cases envelope with
  | ping initiator responder ping => exact rules.refl _
  | pong initiator responder pong =>
      apply rel_setPeer rules.refl
      exact (queuesOnly_handleReply (rules.of_kind (fun _ _ => trivial)) responder _).jobsRel
  | answered initiator responder ping pong =>
      apply rel_setPeer rules.refl
      exact (queuesOnly_handleMessageSideEffect (rules.of_kind (fun _ _ => trivial))
        initiator pong _).jobsRel

/-- Behind the job that it takes, an action only adds to a queue. -/
theorem rel_step {action : NetworkAction} (h : action.KeepsRules rel) (net : Network σ)
    (key : PublicKey) :
    ∃ kept, (net.peer key).jobs = net.taken key action ++ kept ∧
      rel kept ((net.step action).peer key).jobs := by
  cases action with
  | act changed local' =>
      refine ⟨_, rfl, ?_⟩
      rw [step, peer_setSystem]
      split_ifs with heq
      · subst heq
        exact rel_localStep _ _ (PeerAction.KeepsRules.of_kind h (fun _ _ => trivial))
      · exact h.refl _
  | pingPeers changed env bucketId =>
      have rules : Rules env.accepts (fun _ => True) rel := h
      refine ⟨_, rfl, ?_⟩
      apply rel_setPeer rules.refl
      exact (queuesOnly_ping (rules.of_kind (fun _ _ => trivial)) bucketId _).jobsRel
  | pingAndCollect sender env bucketId => exact ⟨_, rfl, h _⟩
  | deliver number env =>
      refine ⟨_, rfl, ?_⟩
      rw [step]
      cases net.envelopes[number]? with
      | none => exact h.refl _
      | some envelope => exact rel_openEnvelope h envelope key
  | work worker env fuel =>
      rw [step, work]
      cases hjobs : (net.peer worker).jobs with
      | nil =>
          refine ⟨(net.peer key).jobs, ?_, h.refl _⟩
          rw [taken]
          by_cases heq : worker = key
          · rw [if_pos heq, ← heq, hjobs]
            rfl
          · rw [if_neg heq]
            rfl
      | cons job rest =>
          dsimp only
          have hrel := @rel_executeJob _ _ _ _ (net.setPeer worker
            { net.peer worker with jobs := rest }) _ h worker fuel job key
          rw [taken]
          by_cases heq : worker = key
          · subst heq
            rw [peer_setPeer_self] at hrel
            refine ⟨rest, ?_, hrel⟩
            rw [if_pos rfl, hjobs]
            rfl
          · rw [peer_setPeer_of_ne (Ne.symm heq)] at hrel
            rw [if_neg heq]
            exact ⟨_, rfl, hrel⟩

/-! ### In order -/

omit P in
theorem keepsRules_enqueues (action : NetworkAction) :
    action.KeepsRules (Enqueues (fun _ => True)) := by
  cases action with
  | act key local' => exact local'.keepsRules_enqueues _
  | pingPeers changed env bucketId => exact enqueues_rules env.accepts _
  | pingAndCollect sender env bucketId => exact Enqueues.refl
  | work worker env fuel => exact enqueues_rules env.accepts _
  | deliver number env => exact enqueues_rules env.accepts _

/-- The turns of the worker of a peer. -/
def turns (key : PublicKey) (actions : List NetworkAction) : ℕ :=
  actions.countP (fun action => match action with
    | .work worker _ _ => decide (worker = key)
    | _ => false)

theorem serves_taken (action : NetworkAction) :
    Serves (net.taken key action) (net.peer key).jobs ((net.step action).peer key).jobs := by
  obtain ⟨kept, hjobs, added, hadded, -⟩ := rel_step (keepsRules_enqueues action) net key
  refine ⟨added, ?_⟩
  rw [hjobs, hadded, List.append_assoc]

theorem serves_executed (key : PublicKey) (actions : List NetworkAction) (net : Network σ) :
    Serves (net.executed key actions) (net.peer key).jobs
      ((net.run actions).peer key).jobs := by
  induction actions generalizing net with
  | nil => exact (@Enqueues.refl _ (fun _ => False) _).serves
  | cons action rest ih => exact (serves_taken action).trans (ih (net.step action))

omit [BucketLogProvider σ] in
theorem length_taken (action : NetworkAction) :
    (net.taken key action).length = min (turns key [action]) (net.peer key).jobs.length := by
  cases action with
  | work worker env fuel =>
      by_cases heq : worker = key
      · simp [taken, turns, heq]
      · simp [taken, turns, heq]
  | act changed local' => simp [taken, turns]
  | pingPeers changed env bucketId => simp [taken, turns]
  | pingAndCollect sender env bucketId => simp [taken, turns]
  | deliver number env => simp [taken, turns]

omit P [BucketLogProvider σ] in
theorem turns_cons (key : PublicKey) (action : NetworkAction) (rest : List NetworkAction) :
    turns key (action :: rest) = turns key [action] + turns key rest := by
  unfold turns
  rw [← List.countP_append]
  rfl

/-- The worker is idle in a turn only when the queue is empty. -/
theorem min_turns_le_length_executed (key : PublicKey) (actions : List NetworkAction)
    (net : Network σ) :
    min (turns key actions) (net.peer key).jobs.length ≤ (net.executed key actions).length := by
  induction actions generalizing net with
  | nil => simp [turns]
  | cons action rest ih =>
      have htaken := @length_taken _ _ net key action
      have hrest := ih (net.step action)
      obtain ⟨kept, hjobs, added, hadded, -⟩ := rel_step (keepsRules_enqueues action) net key
      have hlength := congrArg List.length hjobs
      have hlength' := congrArg List.length hadded
      rw [List.length_append] at hlength hlength'
      rw [turns_cons, executed, List.length_append]
      omega

/-- Whatever the peers do: no job is lost or executed twice, the jobs are executed in the
order in which they were accepted, and the jobs of a queue are executed in as many turns of
the worker as there are. -/
theorem jobs_executed_in_order (net : Network σ) (actions : List NetworkAction)
    (key : PublicKey) :
    (∃ accepted, (net.peer key).jobs ++ accepted =
      net.executed key actions ++ ((net.run actions).peer key).jobs) ∧
    (net.executed key actions).take (net.peer key).jobs.length =
      (net.peer key).jobs.take (net.executed key actions).length ∧
    min (turns key actions) (net.peer key).jobs.length ≤ (net.executed key actions).length :=
  ⟨serves_executed key actions net, (serves_executed key actions net).take_eq.symm,
    min_turns_le_length_executed key actions net⟩

/-! ### The bound -/

end Network

/-! ### The bound -/

/-- The provider of the peer accepts jobs in this way wherever an action may dispatch one. -/
def PeerAction.DispatchesTo (accepts : List SyncJob → SyncJob → Bool) : PeerAction → Prop
  | .saveMount env _ _ => env.accepts = accepts
  | .sync env _ _ => env.accepts = accepts
  | _ => True

def NetworkAction.DispatchesTo (accepts : List SyncJob → SyncJob → Bool) :
    NetworkAction → Prop
  | .act _ action => action.DispatchesTo accepts
  | .pingPeers _ env _ => env.accepts = accepts
  | .pingAndCollect _ _ _ => True
  | .work _ env _ => env.accepts = accepts
  | .deliver _ env => env.accepts = accepts

omit P in
theorem staysWithin_tryAccept (size : ℕ) :
    Rules (tryAccept (some size)) (fun _ => True) (StaysWithin size) :=
  staysWithin_rules (fun _ _ => tryAccept_eq_true)

omit P in
theorem PeerAction.keepsRules_of_dispatchesTo {accepts : List SyncJob → SyncJob → Bool}
    (rules : Rules accepts (fun _ => True) rel) {action : PeerAction}
    (h : action.DispatchesTo accepts) : action.KeepsRules (fun _ => True) rel := by
  cases action with
  | saveMount env mount publish =>
      have haccepts : env.accepts = accepts := h
      rw [← haccepts] at rules
      exact rules
  | sync env fuel job =>
      have haccepts : env.accepts = accepts := h
      rw [← haccepts] at rules
      exact rules
  | _ => exact rules.refl

omit P in
theorem NetworkAction.keepsRules_of_dispatchesTo {accepts : List SyncJob → SyncJob → Bool}
    (rules : Rules accepts (fun _ => True) rel) {action : NetworkAction}
    (h : action.DispatchesTo accepts) : action.KeepsRules rel := by
  have hrules : ∀ env : PeerEnv, env.accepts = accepts →
      Rules env.accepts (fun _ => True) rel := by
    intro env haccepts
    rw [haccepts]
    exact rules
  cases action with
  | act key action => exact PeerAction.keepsRules_of_dispatchesTo rules h
  | pingPeers changed env bucketId => exact hrules env h
  | pingAndCollect sender env bucketId => exact rules.refl
  | work worker env fuel => exact hrules env h
  | deliver number env => exact hrules env h

namespace Network

theorem length_step_le {size : ℕ} {action : NetworkAction} (net : Network σ)
    (h : action.DispatchesTo (tryAccept (some size)))
    (hlength : ∀ key, (net.peer key).jobs.length ≤ size) (key : PublicKey) :
    ((net.step action).peer key).jobs.length ≤ size := by
  have hkeeps := NetworkAction.keepsRules_of_dispatchesTo (staysWithin_tryAccept size) h
  obtain ⟨kept, hjobs, hkept⟩ := rel_step hkeeps net key
  apply hkept
  have hlength' := hlength key
  rw [hjobs, List.length_append] at hlength'
  omega

/-- With a bounded channel the queue of no peer ever gets longer than the bound, whatever
arrives, however often, and however slow the workers are. -/
theorem queues_within_bound (worlds : PublicKey → World) (logs : PublicKey → σ) (size : ℕ)
    (actions : List NetworkAction)
    (h : ∀ action ∈ actions, action.DispatchesTo (tryAccept (some size))) (key : PublicKey) :
    (((start worlds logs).run actions).peer key).jobs.length ≤ size := by
  have hstart : ∀ key, ((start worlds logs).peer key).jobs.length ≤ size :=
    fun _ => Nat.zero_le size
  generalize start worlds logs = net at *
  induction actions generalizing net with
  | nil => exact hstart key
  | cons action rest ih =>
      have hrest := length_step_le net (h action List.mem_cons_self) hstart
      exact ih (fun action haction => h action (List.mem_cons_of_mem _ haction)) _ hrest

/-! ### Where sync jobs come from -/

/-- A job of a queue was there before, or is for what an envelope tells. -/
theorem PeerChange.claims {net : Network σ} {action : NetworkAction} {key : PublicKey}
    {state : PeerState σ} (h : PeerChange net action key state) {job : SyncJob}
    (hjob : job ∈ state.jobs) {id : Uuid} {link : Link} {height : ℕ}
    (hclaims : job.Claims id link height) :
    job ∈ (net.peer key).jobs ∨
      ∃ envelope ∈ net.envelopes, envelope.Claims id link height := by
  cases h with
  | queue hqueue hkind =>
      rcases hqueue.jobsRel.mem hjob with hold | hnew
      · exact Or.inl hold
      · exact Or.inr (hkind job id link height hnew hclaims)
  | @act local' haction =>
      have hlocal := rel_localStep (net.peers key) local' (local'.keepsRules_enqueues _)
      rcases hlocal.mem hjob with hold | hown
      · exact Or.inl hold
      · exact absurd hclaims (hown.not_claims id link height)
  | taken haction hjobs =>
      left
      rw [hjobs]
      exact List.mem_cons_of_mem _ hjob
  | @sync env fuel popped rest haction hjobs =>
      have hrun := jobsRel_execute (enqueues_rules env.accepts SyncJob.IsPins) fuel popped
        { net.peer key with jobs := rest }
      rcases hrun.mem hjob with hold | hpins
      · left
        rw [hjobs]
        exact List.mem_cons_of_mem _ hold
      · exact absurd hclaims (hpins.not_claims id link height)
  | @pins env fuel pinsLink peerIds rest haction hjobs =>
      obtain ⟨hashes, hfetched⟩ := fetched_downloadPins env pinsLink peerIds
        { net.peer key with jobs := rest }
      rw [hfetched.jobs] at hjob
      left
      rw [hjobs]
      exact List.mem_cons_of_mem _ hjob

/-- Whatever is told or queued to sync to is logged, as told, by some peer. -/
structure ClaimsLogged (net : Network σ) : Prop where
  envelopes : ∀ envelope ∈ net.envelopes, ∀ id link height, envelope.Claims id link height →
    ∃ teller, Logged (net.peer teller).logs id height link
  jobs : ∀ key, ∀ job ∈ (net.peer key).jobs, ∀ id link height, job.Claims id link height →
    ∃ teller, Logged (net.peer teller).logs id height link

section

variable [LawfulPrimitives] [LawfulBucketLogProvider σ] [RootedBucketLogProvider σ]

theorem logged_step {net : Network σ} (action : NetworkAction) {key : PublicKey} {id : Uuid}
    {height : ℕ} {link : Link} (h : Logged (net.peer key).logs id height link) :
    Logged ((net.step action).peer key).logs id height link := by
  obtain ⟨source, hextends⟩ := net.logExtends_step action key
  exact hextends.kept id height link h

theorem ClaimsLogged.step {net : Network σ} (h : net.ClaimsLogged) (action : NetworkAction) :
    (net.step action).ClaimsLogged := by
  constructor
  · intro envelope henvelope id link height hclaims
    rcases claims_step henvelope hclaims with ⟨earlier, hmem, hearlier⟩ | ⟨teller, hlogged⟩
    · obtain ⟨teller, hlogged⟩ := h.envelopes earlier hmem id link height hearlier
      exact ⟨teller, logged_step action hlogged⟩
    · exact ⟨teller, logged_step action hlogged⟩
  · intro key job hjob id link height hclaims
    have hlogged : ∃ teller, Logged (net.peer teller).logs id height link := by
      rcases (peerChange_step net action key).claims hjob hclaims with hold | hnew
      · exact h.jobs key job hold id link height hclaims
      · obtain ⟨envelope, hmem, hearlier⟩ := hnew
        exact h.envelopes envelope hmem id link height hearlier
    obtain ⟨teller, hlogged⟩ := hlogged
    exact ⟨teller, logged_step action hlogged⟩

theorem claimsLogged_run (worlds : PublicKey → World) (logs : PublicKey → σ)
    (actions : List NetworkAction) : ((start worlds logs).run actions).ClaimsLogged := by
  have hstart : (start worlds logs).ClaimsLogged := by
    constructor
    · intro envelope henvelope
      exact absurd henvelope List.not_mem_nil
    · intro key job hjob
      exact absurd hjob List.not_mem_nil
  exact @AlongRun.invariant _ _ Network.step (fun _ _ => True) ClaimsLogged
    (fun net action h _ => h.step action) _ hstart actions
    (alongRun_of_forall (fun _ _ => trivial) _ actions)

/-- In every state that a network of any peers can come to, the version that a sync job of
a queue is for is in the log of some peer, for the bucket and at the height of the job.  So
no sync job is for a version that was only written but never logged. -/
theorem sync_jobs_are_for_logged_versions (worlds : PublicKey → World) (logs : PublicKey → σ)
    (actions : List NetworkAction) (key : PublicKey) (job : SyncBucketJob)
    (hjob : SyncJob.syncBucket job ∈ (((start worlds logs).run actions).peer key).jobs) :
    ∃ teller, Logged (((start worlds logs).run actions).peer teller).logs job.bucketId
      job.target.height job.target.link :=
  (claimsLogged_run worlds logs actions).jobs key _ hjob _ _ _ ⟨rfl, rfl, rfl⟩

end

end Network

end

namespace Reference

/-- The first ping has arrived, and the job that it leads to is queued. -/
def benIsTold : List NetworkAction :=
  annSaves ++ [.work annKey annEnv 0, .deliver 0 benEnv, .deliver 2 benEnv]

theorem benIsTold_jobs :
    ((quiet.run benIsTold).peer benKey).jobs.any (fun job => match job with
      | .syncBucket _ => true
      | _ => false) = true := by
  decide +kernel

theorem benIsTold_of_logged :
    ∃ job, SyncJob.syncBucket job ∈ ((quiet.run benIsTold).peer benKey).jobs ∧
      ∃ teller, Logged ((quiet.run benIsTold).peer teller).logs job.bucketId
        job.target.height job.target.link := by
  obtain ⟨job, hjob, hsync⟩ := List.any_eq_true.mp benIsTold_jobs
  cases job with
  | syncBucket job =>
      exact ⟨job, hjob, Network.sync_jobs_are_for_logged_versions _ _ benIsTold benKey job hjob⟩
  | downloadPins pinsLink peerIds => exact absurd hsync (by simp)
  | pingPeer bucketId peerId => exact absurd hsync (by simp)

/-- The queue of the peer has room for one job. -/
def cramped : PeerEnv := ⟨ann, fun _ _ => none, tryAccept (some 1)⟩

/-- The save queues a ping, and there is no room for another one. -/
def annPingsAgain : List NetworkAction :=
  [.act annKey (.create cramped ⟨7⟩ "docs".toList), .act annKey (.mount cramped ⟨7⟩),
    .act annKey (.operate 0 (.addOwner benKey)), .act annKey (.saveMount cramped 0 false),
    .pingPeers annKey cramped ⟨7⟩]

theorem annPingsAgain_within_bound :
    ((quiet.run annPingsAgain).peer annKey).jobs.length ≤ 1 := by
  apply Network.queues_within_bound
  simp [annPingsAgain, NetworkAction.DispatchesTo, PeerAction.DispatchesTo, cramped]

example : ((quiet.run annPingsAgain).peer annKey).jobs.length = 1 := by decide +kernel

end Reference

end JaxFs

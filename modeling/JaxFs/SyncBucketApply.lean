import JaxFs.SyncBucketProvenance

/-!
# How much of a chain is applied

A sync that has work to do appends the oldest manifest it downloaded and returns.
So a run leaves the whole pending chain in the log exactly when the chain has at
most one manifest.
-/

namespace JaxFs

open BucketLogProvider

section

variable [P : Primitives] {σ : Type} [BucketLogProvider σ]

/-- The manifests a job is about, newest first: from the target back to the newest
link of the log, or to the genesis of a bucket the log does not know. -/
structure PendingChain (env : PeerEnv) (job : SyncBucketJob) (state : PeerState σ)
    (stop : Option Link) (chain : List (Manifest × Link)) : Prop where
  walk : Walk (visibleManifest env job.target.peerIds state) stop job.target.link chain
  unlogged : ∀ entry ∈ chain, has state.logs job.bucketId entry.2 = .ok []
  known : ∀ ancestor, stop = some ancestor →
    OnChain (visibleManifest env job.target.peerIds state) job.target.link ancestor ∧
      ∃ height heights, has state.logs job.bucketId ancestor = .ok (height :: heights)
  unknown : stop = none → BucketLogProvider.exists state.logs job.bucketId = .ok false
  rising : chain.IsChain (fun newer older => newer.1.height = older.1.height + 1)
  custody : ∀ entry ∈ chain,
    InCustody (visibleManifest env job.target.peerIds state) entry.1.height entry.2
  ours : ∀ latest ∈ chain.head?,
    latest.1.shares.contains (P.publicKey env.secretKey).toHex = true

variable [LawfulBucketLogProvider σ] {env : PeerEnv} {fuel : ℕ} {job : SyncBucketJob}
  {state state' : PeerState σ} {stop : Option Link} {chain : List (Manifest × Link)}

theorem gainsEntry_of_verifyAndApply {bucketId : Uuid}
    {trustedBase : Option Manifest} {manifests : List (Manifest × Link)}
    {first latest : Manifest × Link} (hfirst : manifests.head? = some first)
    (hlatest : manifests.getLast? = some latest)
    (hours : latest.1.shares.contains (P.publicKey env.secretKey).toHex = true)
    (hrun : (verifyAndApply env bucketId trustedBase manifests).run state =
      .ok () state') :
    GainsEntry state.logs state'.logs bucketId first.1.height first.2 := by
  have happly : (applyManifestChain env bucketId manifests).run state =
      .ok () state' := by
    unfold verifyAndApply verifyProvenance at hrun
    rw [hlatest] at hrun
    dsimp only at hrun
    rw [if_pos hours] at hrun
    cases hauthor : verifyAuthor latest.1 trustedBase with
    | error error =>
        rw [hauthor] at hrun
        contradiction
    | ok result =>
        rw [hauthor] at hrun
        cases result with
        | valid => exact hrun
        | unsignedLegacy => exact hrun
        | notAuthorized => exact absurd hauthor (verifyAuthor_ne_notAuthorized _ _)
  rcases applyManifestChain_cases env bucketId state hfirst with hgains | ⟨-, hnot⟩
  · rw [happly] at hgains
    exact hgains
  · exact absurd happly (hnot state')

/-- With the walk known, so is the chain the run downloads and applies. -/
theorem gainsEntry_of_executeFrom (commonAncestor : Option (Link × ℕ))
    {first : Manifest × Link}
    (hwalk : Walk (visibleManifest env job.target.peerIds state)
      (commonAncestor.map Prod.fst) job.target.link chain)
    (hfirst : chain.getLast? = some first)
    (hours : ∀ latest ∈ chain.head?,
      latest.1.shares.contains (P.publicKey env.secretKey).toHex = true)
    (hrun : (executeFrom env fuel job commonAncestor).run state = .ok () state') :
    GainsEntry state.logs state'.logs job.bucketId first.1.height first.2 := by
  unfold executeFrom at hrun
  rcases loadTrustedBase_cases env job.target.peerIds
      (commonAncestor.map Prod.fst) state with ⟨error, hload⟩ | ⟨base, hload, -, -⟩
  · rw [EStateM.run_bind_of_error hload] at hrun
    contradiction
  · rw [EStateM.run_bind_of_ok hload] at hrun
    rcases downloadManifestChain_cases env fuel job.target.link
        (commonAncestor.map Prod.fst) job.target.peerIds base state with
      ⟨error, middle, hdownload, -⟩ | ⟨found, middle, hdownload, hview, hfound, -⟩
    · rw [EStateM.run_bind_of_error hdownload] at hrun
      contradiction
    · rw [EStateM.run_bind_of_ok hdownload, hfound.unique hwalk] at hrun
      rw [← hview.logs]
      cases hhead : chain.head? with
      | none =>
          rw [List.head?_eq_none_iff.mp hhead] at hfirst
          contradiction
      | some latest =>
          apply gainsEntry_of_verifyAndApply _ _ (hours latest hhead) hrun
          · rw [List.head?_reverse]
            exact hfirst
          · rw [List.getLast?_reverse]
            exact hhead

/-- A run on a pending chain appends its oldest manifest. -/
theorem PendingChain.gainsEntry {first : Manifest × Link}
    (hchain : PendingChain env job state stop chain)
    (hfirst : chain.getLast? = some first)
    (hrun : (execute env fuel job).run state = .ok () state') :
    GainsEntry state.logs state'.logs job.bucketId first.1.height first.2 := by
  unfold execute at hrun
  rw [EStateM.run_get_bind] at hrun
  cases hexists : BucketLogProvider.exists state.logs job.bucketId with
  | error error =>
      rw [hexists] at hrun
      contradiction
  | ok known =>
      rw [hexists] at hrun
      cases stop with
      | none =>
          have hunknown := hchain.unknown rfl
          rw [hexists] at hunknown
          cases hunknown
          exact gainsEntry_of_executeFrom none hchain.walk hfirst hchain.ours hrun
      | some ancestor =>
          obtain ⟨honChain, height, heights, hhas⟩ := hchain.known ancestor rfl
          cases known with
          | false =>
              -- a bucket with a logged link exists
              have hlogged := (LawfulBucketLogProvider.mem_has hhas height).mp
                List.mem_cons_self
              exact absurd hlogged
                (LawfulBucketLogProvider.not_logged_of_not_exists hexists height ancestor)
          | true =>
              obtain ⟨found, middle, hfind, hrest⟩ :=
                EStateM.run_bind_eq_ok_iff.mp hrun
              have hview := sameView_findCommonAncestor env job.bucketId
                job.target.peerIds fuel job.target.link state
              rw [hfind, EStateM.Result.state_ok] at hview
              obtain ⟨manifestHeight, hfound⟩ := findCommonAncestor_of_walk hchain.walk
                honChain hchain.unlogged ⟨height, heights, hhas⟩ hfind
              rw [hfound] at hrest
              rw [← hview.logs]
              have hwalk := hchain.walk
              rw [← hview.visibleManifest_eq] at hwalk
              exact gainsEntry_of_executeFrom (some (ancestor, manifestHeight)) hwalk
                hfirst hchain.ours hrest

/-- After a run that returns `Ok`, every manifest of the pending chain is in the
log at its height exactly when there is at most one. -/
theorem execute_logs_chain_iff
    (env : PeerEnv) (fuel : ℕ) (job : SyncBucketJob) (state state' : PeerState σ)
    (stop : Option Link) (chain : List (Manifest × Link))
    (hchain : PendingChain env job state stop chain)
    (hrun : (execute env fuel job).run state = .ok () state') :
    (∀ entry ∈ chain, Logged state'.logs job.bucketId entry.1.height entry.2) ↔
      chain.length ≤ 1 := by
  constructor
  · intro hall
    by_contra hlong
    cases hcases : chain with
    | nil => simp [hcases] at hlong
    | cons newest older =>
        obtain ⟨oldest, holdest⟩ : ∃ oldest, older.getLast? = some oldest := by
          cases holder : older.getLast? with
          | some oldest => exact ⟨oldest, rfl⟩
          | none => simp [hcases, List.getLast?_eq_none_iff.mp holder] at hlong
        have hfirst : chain.getLast? = some oldest := by
          rw [hcases, List.getLast?_cons, holdest]
          rfl
        have hgains := hchain.gainsEntry hfirst hrun
        have hnewest : newest ∈ chain := by simp [hcases]
        have hlogged := (hgains _ _ _).mp (hall newest hnewest)
        rcases hlogged with hbefore | ⟨-, -, hlink⟩
        · have hnone := LawfulBucketLogProvider.mem_has (hchain.unlogged newest hnewest)
            newest.1.height
          simp [hbefore] at hnone
        · have hwalk := hchain.walk
          have hnewestLink : newest.2 = job.target.link := by
            rw [hcases] at hwalk
            cases hwalk with
            | genesis _ _ _ => rfl
            | step _ _ _ _ => rfl
          rw [hcases] at hwalk
          exact hwalk.link_ne_of_mem (List.mem_of_getLast? holdest)
            (hlink.symm.trans hnewestLink)
  · intro hshort entry hentry
    have hlast : chain.getLast? = some entry := by
      cases hcases : chain with
      | nil => simp [hcases] at hentry
      | cons only older =>
          have hnil : older = [] := by
            rw [hcases] at hshort
            simpa using hshort
          rw [hcases, hnil, List.mem_singleton] at hentry
          rw [hnil, hentry]
          rfl
    exact (hchain.gainsEntry hlast hrun _ _ _).mpr (Or.inr ⟨rfl, rfl, rfl⟩)

end

/-! ## One and two versions behind -/

namespace Reference

/-- A peer whose log has the genesis of the bucket. -/
def genesisPeer : PeerState MemoryBucketLogProvider where
  world := emptyWorld.store (manifestCode.encode genesis)
  logs := (append MemoryBucketLogProvider.new ⟨7⟩ "docs".toList (manifestLink genesis)
    none 0 false).2
  jobs := []

def visibleToBob : Link → Option Manifest :=
  visibleManifest (peerEnv bob alice) [primitives.publicKey alice] genesisPeer

theorem visibleToBob_chain :
    visibleToBob (manifestLink genesis) = some genesis ∧
      visibleToBob (manifestLink second) = some second ∧
      visibleToBob (manifestLink (third alice)) = some (third alice) ∧
      some (manifestLink genesis) ≠ some (manifestLink second) ∧
      some (manifestLink genesis) ≠ some (manifestLink (third alice)) := by
  decide +kernel

theorem visibleToBob_genesis : visibleToBob (manifestLink genesis) = some genesis :=
  visibleToBob_chain.1

theorem visibleToBob_second : visibleToBob (manifestLink second) = some second :=
  visibleToBob_chain.2.1

theorem visibleToBob_third :
    visibleToBob (manifestLink (third alice)) = some (third alice) :=
  visibleToBob_chain.2.2.1

theorem signed_by_owner :
    (second.verifySignature = .ok true ∧ (third alice).verifySignature = .ok true) ∧
      genesis.shares.get? (primitives.publicKey alice).toHex =
        some (Share.newOwner ⟨[]⟩ (primitives.publicKey alice)) ∧
      second.shares.get? (primitives.publicKey alice).toHex =
        some (Share.newOwner ⟨[]⟩ (primitives.publicKey alice)) := by
  decide +kernel

theorem second_inCustody : InCustody visibleToBob 1 (manifestLink second) := by
  obtain ⟨⟨hverified, -⟩, hshare, -⟩ := signed_by_owner
  exact ⟨second, visibleToBob_second, rfl, genesis, visibleToBob_genesis, hverified,
    _, rfl, _, hshare, rfl⟩

theorem third_inCustody : InCustody visibleToBob 2 (manifestLink (third alice)) := by
  obtain ⟨⟨-, hverified⟩, -, hshare⟩ := signed_by_owner
  exact ⟨third alice, visibleToBob_third, rfl, second, visibleToBob_second, hverified,
    _, rfl, _, hshare, rfl⟩

theorem walk_second : Walk visibleToBob (some (manifestLink genesis))
    (manifestLink second) [(second, manifestLink second)] :=
  Walk.step visibleToBob_chain.2.2.2.1 visibleToBob_second rfl (Walk.stopped rfl)

theorem walk_third : Walk visibleToBob (some (manifestLink genesis))
    (manifestLink (third alice))
    [(third alice, manifestLink (third alice)), (second, manifestLink second)] :=
  Walk.step visibleToBob_chain.2.2.2.2 visibleToBob_third rfl walk_second

theorem onChain_second : OnChain visibleToBob (manifestLink second)
    (manifestLink genesis) :=
  Relation.ReflTransGen.single ⟨second, visibleToBob_second, rfl⟩

theorem genesis_known :
    has genesisPeer.logs ⟨7⟩ (manifestLink genesis) = .ok [0] ∧
      has genesisPeer.logs ⟨7⟩ (manifestLink second) = .ok [] ∧
      has genesisPeer.logs ⟨7⟩ (manifestLink (third alice)) = .ok [] := by
  decide +kernel

theorem shared_with_bob :
    second.shares.contains (primitives.publicKey bob).toHex = true ∧
      (third alice).shares.contains (primitives.publicKey bob).toHex = true := by
  decide +kernel

theorem pendingChain_second : PendingChain (peerEnv bob alice) (jobTo second)
    genesisPeer (some (manifestLink genesis)) [(second, manifestLink second)] where
  walk := walk_second
  unlogged := by
    intro entry hentry
    rw [List.mem_singleton.mp hentry]
    exact genesis_known.2.1
  known := by
    intro ancestor hancestor
    cases hancestor
    exact ⟨onChain_second, 0, [], genesis_known.1⟩
  unknown := by simp
  rising := by simp
  custody := by
    intro entry hentry
    rw [List.mem_singleton.mp hentry]
    exact second_inCustody
  ours := by
    intro latest hlatest
    cases hlatest
    exact shared_with_bob.1

theorem pendingChain_third : PendingChain (peerEnv bob alice) (jobTo (third alice))
    genesisPeer (some (manifestLink genesis))
    [(third alice, manifestLink (third alice)), (second, manifestLink second)] where
  walk := walk_third
  unlogged := by
    intro entry hentry
    rcases List.mem_cons.mp hentry with rfl | hentry
    · exact genesis_known.2.2
    · rw [List.mem_singleton.mp hentry]
      exact genesis_known.2.1
  known := by
    intro ancestor hancestor
    cases hancestor
    exact ⟨onChain_second.head ⟨third alice, visibleToBob_third, rfl⟩, 0, [],
      genesis_known.1⟩
  unknown := by simp
  rising := List.isChain_pair.mpr rfl
  custody := by
    intro entry hentry
    rcases List.mem_cons.mp hentry with rfl | hentry
    · exact third_inCustody
    · rw [List.mem_singleton.mp hentry]
      exact second_inCustody
  ours := by
    intro latest hlatest
    cases hlatest
    exact shared_with_bob.2

/-- Two versions behind, the run returns `Ok` without the target in the log. -/
theorem third_not_logged :
    ∃ chain, PendingChain (peerEnv bob alice) (jobTo (third alice)) genesisPeer
        (some (manifestLink genesis)) chain ∧
      (third alice, manifestLink (third alice)) ∈ chain ∧
      ∃ state', (execute (peerEnv bob alice) 3 (jobTo (third alice))).run genesisPeer =
          .ok () state' ∧
        ¬ Logged state'.logs ⟨7⟩ (third alice).height (manifestLink (third alice)) := by
  refine ⟨_, pendingChain_third, List.mem_cons_self, ?_⟩
  have hrun : ((execute (peerEnv bob alice) 3 (jobTo (third alice))).run
      genesisPeer).okAnd (fun state => decide (manifestLink (third alice) ∉
        state.logs.inner.linksAt ⟨7⟩ (third alice).height)) = true := by
    decide +kernel
  obtain ⟨_, state', hstate, htest⟩ := EStateM.Result.exists_of_okAnd hrun
  refine ⟨state', hstate, ?_⟩
  rw [MemoryBucketLogProvider.logged_iff]
  simpa using htest

theorem second_logged :
    ∃ state', (execute (peerEnv bob alice) 2 (jobTo second)).run genesisPeer =
        .ok () state' ∧
      Logged state'.logs ⟨7⟩ 1 (manifestLink second) := by
  have hrun : ((execute (peerEnv bob alice) 2 (jobTo second)).run genesisPeer).okAnd
      (fun _ => true) = true := by
    decide +kernel
  obtain ⟨_, state', hstate, -⟩ := EStateM.Result.exists_of_okAnd hrun
  have hall := (execute_logs_chain_iff (peerEnv bob alice) 2 (jobTo second) genesisPeer
    state' _ _ pendingChain_second hstate).mpr (by simp)
  exact ⟨state', hstate, hall _ List.mem_cons_self⟩

end Reference

end JaxFs

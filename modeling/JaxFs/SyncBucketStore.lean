import JaxFs.PeerSave
import JaxFs.StoredVersion
import JaxFs.SyncBucketProvenance

/-!
# What a sync stores

Both backward walks of a sync download before they read, so the manifests they look at
are local afterwards, and a download never replaces a blob.  The version that a sync
appends is therefore stored, and it is the next one for the bucket on the chain of the
target: the log does not hold it, and holds its predecessor just below.
-/

namespace JaxFs

open BucketLogProvider

section

variable [P : Primitives] {σ : Type}

/-- The store of the peer only grows. -/
def StoreGrows (state state' : PeerState σ) : Prop := Grows state.world state'.world

theorem StoreGrows.refl (state : PeerState σ) : StoreGrows state state :=
  Grows.refl state.world

theorem storeGrows_bind {α β : Type} {x : SyncM σ α} {f : α → SyncM σ β}
    (hx : EStateM.Preserves StoreGrows x) (hf : ∀ a, EStateM.Preserves StoreGrows (f a)) :
    EStateM.Preserves StoreGrows (x >>= f) :=
  hx.bind (fun _ _ _ => Grows.trans) hf

theorem storeGrows_downloadHash [LawfulPrimitives] (env : PeerEnv) (link : Link)
    (peerIds : List PublicKey) :
    EStateM.Preserves StoreGrows (downloadHash env link peerIds : SyncM σ Unit) := by
  intro state
  unfold downloadHash EStateM.run
  dsimp only
  cases state.world.blobs link.hash with
  | some data => exact StoreGrows.refl state
  | none =>
      cases env.fetch peerIds link.hash with
      | none => exact StoreGrows.refl state
      | some data =>
          by_cases hhash : P.hash data = link.hash
          · simp only [if_pos hhash]
            exact grows_store state.world data
          · simp only [if_neg hhash]
            exact StoreGrows.refl state

theorem run_getManifest_eq_ok {link : Link} {state state' : PeerState σ}
    {manifest : Manifest} (h : (getManifest link).run state = .ok manifest state') :
    getManifestFromBlobs state.world.blobs link = .ok manifest ∧ state' = state := by
  unfold getManifest EStateM.run at h
  unfold getManifestFromBlobs
  cases hblob : state.world.blobs link.hash with
  | none => simp [hblob] at h
  | some data =>
      cases hdecode : P.decodeManifest data with
      | none => simp [hblob, hdecode] at h
      | some found =>
          simp only [hblob, hdecode, Option.bind_some] at h
          cases h
          simp [hdecode]

theorem storeGrows_getManifest (link : Link) :
    EStateM.Preserves StoreGrows (getManifest link : SyncM σ Manifest) := by
  intro state
  unfold getManifest EStateM.run
  dsimp only
  cases (state.world.blobs link.hash).bind P.decodeManifest with
  | some manifest => exact StoreGrows.refl state
  | none => exact StoreGrows.refl state

section

variable [LawfulPrimitives] (env : PeerEnv) (peerIds : List PublicKey)

theorem storeGrows_downloadManifests (stop : Option Link) (fuel : ℕ) (link : Link) :
    EStateM.Preserves StoreGrows
      (downloadManifests env stop peerIds fuel link : SyncM σ (List (Manifest × Link))) := by
  induction fuel generalizing link with
  | zero => exact StoreGrows.refl
  | succ fuel ih =>
      unfold downloadManifests
      apply storeGrows_bind (storeGrows_downloadHash env link peerIds)
      intro _
      apply storeGrows_bind (storeGrows_getManifest link)
      intro manifest
      split_ifs
      · exact StoreGrows.refl
      · cases manifest.previous with
        | none => exact StoreGrows.refl
        | some previous =>
            apply storeGrows_bind (ih previous)
            exact fun _ => StoreGrows.refl

/-- The manifests of a walk are local when it is over. -/
theorem stored_of_downloadManifests {stop : Option Link} {fuel : ℕ} {link : Link}
    {state state' : PeerState σ} {chain : List (Manifest × Link)}
    (h : (downloadManifests env stop peerIds fuel link).run state = .ok chain state') :
    ∀ entry ∈ chain, getManifestFromBlobs state'.world.blobs entry.2 = .ok entry.1 := by
  induction fuel generalizing link state state' chain with
  | zero => contradiction
  | succ fuel ih =>
      unfold downloadManifests at h
      obtain ⟨_, downloaded, -, hrun⟩ := EStateM.run_bind_eq_ok_iff.mp h
      obtain ⟨manifest, read, hread, hrest⟩ := EStateM.run_bind_eq_ok_iff.mp hrun
      obtain ⟨hmanifest, rfl⟩ := run_getManifest_eq_ok hread
      by_cases hstop : stop = some link
      · rw [if_pos hstop] at hrest
        cases hrest
        simp
      · rw [if_neg hstop] at hrest
        cases hprevious : manifest.previous with
        | none =>
            rw [hprevious] at hrest
            cases hrest
            simpa using hmanifest
        | some previous =>
            rw [hprevious] at hrest
            obtain ⟨older, walked, holder, hdone⟩ := EStateM.run_bind_eq_ok_iff.mp hrest
            have hgrows := (storeGrows_downloadManifests env peerIds stop fuel
              previous).of_ok holder
            cases hdone
            intro entry hentry
            rcases List.mem_cons.mp hentry with rfl | hlater
            · exact Grows.getManifestFromBlobs hgrows hmanifest
            · exact ih holder entry hlater

theorem storeGrows_downloadManifestChain (fuel : ℕ) (start : Link) (stop : Option Link)
    (trustedBase : Option Manifest) :
    EStateM.Preserves StoreGrows (downloadManifestChain env fuel start stop peerIds
      trustedBase : SyncM σ (List (Manifest × Link))) := by
  apply storeGrows_bind (storeGrows_downloadManifests env peerIds stop fuel start)
  intro chain
  dsimp only
  cases verifyChain trustedBase chain.reverse with
  | error error => exact StoreGrows.refl
  | ok _ => exact StoreGrows.refl

omit [LawfulPrimitives] in
theorem sameView_downloadManifestChain (fuel : ℕ) (start : Link) (stop : Option Link)
    (trustedBase : Option Manifest) (state : PeerState σ) :
    SameView env peerIds state
      ((downloadManifestChain env fuel start stop peerIds trustedBase).run state).state := by
  rcases downloadManifestChain_cases env fuel start stop peerIds trustedBase state with
    ⟨error, state', hrun, hview⟩ | ⟨chain, state', hrun, hview, -, -⟩
  · rw [hrun]
    exact hview
  · rw [hrun]
    exact hview

/-- A chain that was downloaded is local, and is the walk back from its start. -/
theorem run_downloadManifestChain_eq_ok {fuel : ℕ} {start : Link} {stop : Option Link}
    {trustedBase : Option Manifest} {state state' : PeerState σ}
    {manifests : List (Manifest × Link)}
    (h : (downloadManifestChain env fuel start stop peerIds trustedBase).run state =
      .ok manifests state') :
    ∀ entry ∈ manifests, getManifestFromBlobs state'.world.blobs entry.2 = .ok entry.1 ∧
      OnChain (visibleManifest env peerIds state) start entry.2 ∧
      visibleManifest env peerIds state entry.2 = some entry.1 := by
  unfold downloadManifestChain at h
  obtain ⟨chain, walked, hdownload, hrest⟩ := EStateM.run_bind_eq_ok_iff.mp h
  have hwalk := walk_of_downloadManifests hdownload
  have hstored := stored_of_downloadManifests env peerIds hdownload
  cases hverify : verifyChain trustedBase chain.reverse with
  | error error =>
      simp only [hverify] at hrest
      contradiction
  | ok _ =>
      simp only [hverify] at hrest
      cases hrest
      intro entry hentry
      have hmem := List.mem_reverse.mp hentry
      exact ⟨hstored entry hmem, hwalk.onChain_of_mem hmem, hwalk.manifestAt_of_mem hmem⟩

variable [BucketLogProvider σ]

theorem storeGrows_findCommonAncestor (bucketId : Uuid) (fuel : ℕ) (link : Link) :
    EStateM.Preserves StoreGrows (findCommonAncestor env bucketId peerIds fuel link :
      SyncM σ (Option (Link × ℕ))) := by
  induction fuel generalizing link with
  | zero => exact StoreGrows.refl
  | succ fuel ih =>
      unfold findCommonAncestor
      apply storeGrows_bind (storeGrows_downloadHash env link peerIds)
      intro _
      apply storeGrows_bind (storeGrows_getManifest link)
      intro manifest
      have hget : EStateM.Preserves StoreGrows (MonadState.get : SyncM σ (PeerState σ)) :=
        StoreGrows.refl
      apply storeGrows_bind hget
      intro current
      have hrest := preserves_previous (R := StoreGrows) (fun state => StoreGrows.refl state)
        ih manifest
      cases has current.logs bucketId link with
      | error _ => exact hrest
      | ok heights =>
          cases heights with
          | nil => exact hrest
          | cons _ _ => exact StoreGrows.refl

end

/-! ## What a step adds to the log -/

/-- An append without a predecessor is accepted at height 0 only. -/
class RootedBucketLogProvider (σ : Type) [BucketLogProvider σ] : Prop where
  append_none : ∀ {log log' : σ} {id name current height published},
    append log id name current none height published = (.ok (), log') → height = 0

variable [BucketLogProvider σ]

/-- The entry has its manifest in the store, at its height, and the predecessor of the
manifest just below it in the log. -/
structure Describes (blobs : Blobs) (logs : σ) (id : Uuid) (height : ℕ) (link : Link)
    (manifest : Manifest) : Prop where
  stored : getManifestFromBlobs blobs link = .ok manifest
  atHeight : manifest.height = height
  genesis : manifest.previous = none → height = 0
  below : ∀ previous, manifest.previous = some previous →
    ∃ below, height = below + 1 ∧ Logged logs id below previous

/-- Nothing is taken away, and every new entry is described and comes from the given
source. -/
structure LogExtends (source : Uuid → Link → Manifest → Prop) (state state' : PeerState σ) :
    Prop where
  grows : Grows state.world state'.world
  kept : ∀ id height link, Logged state.logs id height link →
    Logged state'.logs id height link
  added : ∀ id height link, Logged state'.logs id height link →
    Logged state.logs id height link ∨ ∃ manifest,
      Describes state'.world.blobs state.logs id height link manifest ∧
        source id link manifest

section

variable {source : Uuid → Link → Manifest → Prop} {state state' state'' : PeerState σ}

theorem LogExtends.of_sameEntries (hgrows : Grows state.world state'.world)
    (hsame : SameEntries state.logs state'.logs) : LogExtends source state state' :=
  ⟨hgrows, fun id height link => (hsame id height link).mpr,
    fun id height link h => Or.inl ((hsame id height link).mp h)⟩

theorem LogExtends.of_logs_eq (hgrows : Grows state.world state'.world)
    (hlogs : state'.logs = state.logs) : LogExtends source state state' := by
  apply LogExtends.of_sameEntries hgrows
  intro id height link
  rw [hlogs]

/-- Downloads before a step do not show. -/
theorem LogExtends.after (h : LogExtends source state' state'')
    (hgrows : Grows state.world state'.world) (hlogs : state'.logs = state.logs) :
    LogExtends source state state'' := by
  constructor
  · exact hgrows.trans h.grows
  · rw [← hlogs]
    exact h.kept
  · rw [← hlogs]
    exact h.added

/-- Changes to the queue after a step do not show. -/
theorem LogExtends.before (h : LogExtends source state state')
    (hworld : state''.world = state'.world) (hlogs : state''.logs = state'.logs) :
    LogExtends source state state'' := by
  constructor
  · rw [hworld]
    exact h.grows
  · rw [hlogs]
    exact h.kept
  · rw [hworld, hlogs]
    exact h.added

variable [LawfulBucketLogProvider σ] [RootedBucketLogProvider σ]

/-- The append of a stored version at its own height. -/
theorem logExtends_append {id : Uuid} {name : Name} {link : Link} {manifest : Manifest}
    {published : Bool} {verdict : Except BucketLogError Unit} {logs : σ}
    (happend : append state.logs id name link manifest.previous manifest.height published =
      (verdict, logs))
    (hstored : getManifestFromBlobs state.world.blobs link = .ok manifest)
    (hsource : source id link manifest) :
    LogExtends source state { state with logs := logs } := by
  cases verdict with
  | error error =>
      exact LogExtends.of_sameEntries (Grows.refl _)
        (LawfulBucketLogProvider.logged_append_error happend)
  | ok _ =>
      have hlogged := LawfulBucketLogProvider.logged_append happend
      refine ⟨Grows.refl _, fun id' height' link' h => (hlogged _ _ _).mpr (Or.inl h), ?_⟩
      intro id' height' link' h
      rcases (hlogged _ _ _).mp h with hold | ⟨rfl, rfl, rfl⟩
      · exact Or.inl hold
      · refine Or.inr ⟨manifest, ⟨hstored, rfl, ?_, ?_⟩, hsource⟩
        · intro hprevious
          rw [hprevious] at happend
          exact RootedBucketLogProvider.append_none happend
        · intro previous hprevious
          rw [hprevious] at happend
          exact LawfulBucketLogProvider.append_previous happend

end

/-! ## What a sync adds -/

section

variable [LawfulBucketLogProvider σ] [RootedBucketLogProvider σ] (env : PeerEnv)

/-- A version on the chain of the job's target, for the job's bucket. -/
def SyncBucketJob.Offers (job : SyncBucketJob) (manifestAt : Link → Option Manifest)
    (id : Uuid) (link : Link) (manifest : Manifest) : Prop :=
  id = job.bucketId ∧ OnChain manifestAt job.target.link link ∧
    manifestAt link = some manifest

omit [LawfulBucketLogProvider σ] [RootedBucketLogProvider σ] in
theorem state_appendLog (id : Uuid) (name : Name) (current : Link) (previous : Option Link)
    (height : ℕ) (published : Bool) (state : PeerState σ) :
    ((appendLog id name current previous height published).run state).state =
      { state with
        logs := (append state.logs id name current previous height published).2 } := by
  unfold appendLog EStateM.run
  dsimp only
  cases append state.logs id name current previous height published with
  | mk verdict logs => cases verdict <;> rfl

theorem logExtends_applyManifestChain {source : Uuid → Link → Manifest → Prop}
    {bucketId : Uuid} {manifests : List (Manifest × Link)} {state : PeerState σ}
    (hstored : ∀ entry ∈ manifests,
      getManifestFromBlobs state.world.blobs entry.2 = .ok entry.1 ∧
        source bucketId entry.2 entry.1) :
    LogExtends source state ((applyManifestChain env bucketId manifests).run state).state := by
  unfold applyManifestChain
  cases hhead : manifests.head? with
  | none => exact LogExtends.of_logs_eq (Grows.refl _) rfl
  | some first =>
      obtain ⟨manifest, link⟩ := first
      obtain ⟨hread, hsource⟩ := hstored _ (List.mem_of_head? hhead)
      have hadded : LogExtends source state ((appendLog bucketId manifest.name link
          manifest.previous manifest.height manifest.isPublished).run state).state := by
        rw [state_appendLog]
        exact logExtends_append rfl hread hsource
      apply EStateM.state_bind
      · intro error state' hrun
        rw [hrun] at hadded
        exact hadded
      · intro _ state' hrun
        rw [hrun] at hadded
        exact hadded.before (world_dispatch env _ _) (logs_dispatch _)

theorem logExtends_verifyAndApply {source : Uuid → Link → Manifest → Prop}
    {bucketId : Uuid} {trustedBase : Option Manifest} {manifests : List (Manifest × Link)}
    {state : PeerState σ} (hstored : ∀ entry ∈ manifests,
      getManifestFromBlobs state.world.blobs entry.2 = .ok entry.1 ∧
        source bucketId entry.2 entry.1) :
    LogExtends source state
      ((verifyAndApply env bucketId trustedBase manifests).run state).state := by
  have hsame : LogExtends source state state := LogExtends.of_logs_eq (Grows.refl _) rfl
  unfold verifyAndApply
  cases manifests.getLast? with
  | none => exact hsame
  | some latest =>
      dsimp only
      cases verifyProvenance env latest.1 trustedBase with
      | error error => exact hsame
      | ok result =>
          cases result with
          | notAuthorized => exact hsame
          | valid => exact logExtends_applyManifestChain env hstored
          | unsignedLegacy => exact logExtends_applyManifestChain env hstored

variable [LawfulPrimitives]

theorem logExtends_executeFrom (fuel : ℕ) (job : SyncBucketJob)
    (commonAncestor : Option (Link × ℕ)) (state : PeerState σ) :
    LogExtends (job.Offers (visibleManifest env job.target.peerIds state)) state
      ((executeFrom env fuel job commonAncestor).run state).state := by
  unfold executeFrom
  rcases loadTrustedBase_cases env job.target.peerIds (commonAncestor.map Prod.fst) state
    with ⟨error, hload⟩ | ⟨base, hload, -, -⟩
  · rw [EStateM.run_bind_of_error hload]
    exact LogExtends.of_logs_eq (Grows.refl _) rfl
  · rw [EStateM.run_bind_of_ok hload]
    have hgrows := storeGrows_downloadManifestChain env job.target.peerIds fuel
      job.target.link (commonAncestor.map Prod.fst) base state
    have hview := sameView_downloadManifestChain env job.target.peerIds fuel
      job.target.link (commonAncestor.map Prod.fst) base state
    apply EStateM.state_bind
    · intro error state' hdownload
      rw [hdownload] at hgrows hview
      exact LogExtends.of_logs_eq hgrows hview.logs
    · intro manifests state' hdownload
      rw [hdownload] at hgrows hview
      have hchain := run_downloadManifestChain_eq_ok env job.target.peerIds hdownload
      apply LogExtends.after _ hgrows hview.logs
      apply logExtends_verifyAndApply
      intro entry hentry
      obtain ⟨hread, honChain, hvisible⟩ := hchain entry hentry
      exact ⟨hread, rfl, honChain, hvisible⟩

/-- What a sync adds is a version on the chain of its target, under the bucket of the
job, whatever peers serve and however the sync ends. -/
theorem logExtends_execute (fuel : ℕ) (job : SyncBucketJob) (state : PeerState σ) :
    LogExtends (job.Offers (visibleManifest env job.target.peerIds state)) state
      ((execute env fuel job).run state).state := by
  have hsame : LogExtends (job.Offers (visibleManifest env job.target.peerIds state)) state
      state := LogExtends.of_logs_eq (Grows.refl _) rfl
  unfold execute
  rw [EStateM.run_get_bind]
  cases BucketLogProvider.exists state.logs job.bucketId with
  | error error => exact hsame
  | ok known =>
      cases known with
      | false => exact logExtends_executeFrom env fuel job none state
      | true =>
          have hgrows := storeGrows_findCommonAncestor env job.target.peerIds job.bucketId
            fuel job.target.link state
          have hview := sameView_findCommonAncestor env job.bucketId job.target.peerIds
            fuel job.target.link state
          apply EStateM.state_bind
          · intro error state' hfind
            rw [hfind] at hgrows hview
            exact LogExtends.of_logs_eq hgrows hview.logs
          · intro found state' hfind
            rw [hfind] at hgrows hview
            cases found with
            | none => exact LogExtends.of_logs_eq hgrows hview.logs
            | some ancestor =>
                rw [← hview.visibleManifest_eq]
                exact (logExtends_executeFrom env fuel job (some ancestor) state').after
                  hgrows hview.logs

end

end

end JaxFs

import JaxFs.ReferencePrimitives
import JaxFs.SyncBucketWalk

/-!
# Provenance of synchronised manifests

Every manifest of a downloaded chain is checked against its predecessor.  From
this follows what a sync can put into the log: an entry signed by an owner of the
version before it.  The check of the latest manifest is made a second time,
against the trusted base; it agrees with the first one exactly when the author of
the latest manifest was an owner of the base already.
-/

namespace JaxFs

open BucketLogProvider

section

variable [P : Primitives] {σ : Type}

/-- The key has the owner role in the shares. -/
def OwnerIn (shares : Shares) (key : PublicKey) : Prop :=
  ∃ share, shares.get? key.toHex = some share ∧ share.role = .owner

/-- The signature verifies and its author is an owner in the shares. -/
def Authorized (shares : Shares) (manifest : Manifest) : Prop :=
  manifest.verifySignature = .ok true ∧
    ∃ author, manifest.author = some author ∧ OwnerIn shares author

/-! ## The check of one manifest -/

theorem verifyAuthor_eq_valid_iff {manifest : Manifest} {previous : Option Manifest}
    (hsigned : manifest.isSigned = true) :
    verifyAuthor manifest previous = .ok .valid ↔
      Authorized (previous.getD manifest).shares manifest := by
  unfold Manifest.isSigned at hsigned
  rw [Bool.and_eq_true, Option.isSome_iff_exists, Option.isSome_iff_exists] at hsigned
  obtain ⟨⟨author, hauthor⟩, signature, hsignature⟩ := hsigned
  unfold verifyAuthor Authorized OwnerIn
  rw [hauthor, hsignature]
  by_cases hverified : manifest.verifySignature = .ok true
  · cases hshare : (previous.getD manifest).shares.get? author.toHex with
    | none => simp [hverified, hshare]
    | some share => simp [hverified, hshare]
  · simp [hverified]

theorem verifyAuthor_of_ok {manifest : Manifest} {previous : Option Manifest}
    {result : ProvenanceResult} (hsigned : manifest.isSigned = true)
    (h : verifyAuthor manifest previous = .ok result) : result = .valid := by
  unfold Manifest.isSigned at hsigned
  rw [Bool.and_eq_true, Option.isSome_iff_exists, Option.isSome_iff_exists] at hsigned
  obtain ⟨⟨author, hauthor⟩, signature, hsignature⟩ := hsigned
  unfold verifyAuthor at h
  rw [hauthor, hsignature] at h
  dsimp only at h
  split_ifs at h
  split at h
  · contradiction
  · split_ifs at h
    cases h
    rfl

theorem verifyAuthor_ne_notAuthorized (manifest : Manifest)
    (previous : Option Manifest) :
    verifyAuthor manifest previous ≠ .ok .notAuthorized := by
  intro h
  unfold verifyAuthor at h
  split at h
  · dsimp only at h
    split_ifs at h
    split at h
    · simp at h
    · split_ifs at h
      simp at h
  · simp at h

/-! ## The check of a chain -/

theorem verifyChain_cons {previous : Option Manifest} {manifest : Manifest}
    {link : Link} {rest : List (Manifest × Link)} :
    verifyChain previous ((manifest, link) :: rest) = .ok () ↔
      (∃ result, verifyAuthor manifest previous = .ok result) ∧
        verifyChain (some manifest) rest = .ok () := by
  rw [verifyChain]
  cases verifyAuthor manifest previous with
  | error reason => simp
  | ok result => simp

/-- The first manifest of an accepted chain is authorised by the base. -/
theorem authorized_of_verifyChain {previous : Option Manifest} {manifest : Manifest}
    {link : Link} {chain : List (Manifest × Link)}
    (hchain : verifyChain previous chain = .ok ())
    (hhead : chain.head? = some (manifest, link))
    (hsigned : manifest.isSigned = true) :
    Authorized (previous.getD manifest).shares manifest := by
  cases chain with
  | nil => contradiction
  | cons first rest =>
      cases hhead
      obtain ⟨⟨result, hresult⟩, -⟩ := verifyChain_cons.mp hchain
      rw [verifyAuthor_of_ok hsigned hresult] at hresult
      exact (verifyAuthor_eq_valid_iff hsigned).mp hresult

/-- Every signature of an accepted chain of signed manifests verifies. -/
theorem verifySignature_of_verifyChain {previous : Option Manifest}
    {chain : List (Manifest × Link)}
    (hchain : verifyChain previous chain = .ok ())
    (hsigned : ∀ entry ∈ chain, entry.1.isSigned = true) :
    ∀ entry ∈ chain, entry.1.verifySignature = .ok true := by
  induction chain generalizing previous with
  | nil => simp
  | cons first rest ih =>
      obtain ⟨manifest, link⟩ := first
      obtain ⟨-, hrest⟩ := verifyChain_cons.mp hchain
      have hfirst := authorized_of_verifyChain hchain rfl
        (hsigned _ List.mem_cons_self)
      intro entry hentry
      rcases List.mem_cons.mp hentry with rfl | hentry
      · exact hfirst.1
      · exact ih hrest (fun x hx => hsigned x (List.mem_cons_of_mem _ hx)) entry hentry

/-- After the loop has accepted a chain, the final check accepts its last manifest
exactly when the author of that manifest is an owner of the trusted base. -/
theorem verifyProvenance_eq_valid_iff_of_verifyChain
    (env : PeerEnv) (trustedBase : Option Manifest) (chain : List (Manifest × Link))
    (last : Manifest) (link : Link)
    (hchain : verifyChain trustedBase chain = .ok ())
    (hsigned : ∀ entry ∈ chain, entry.1.isSigned = true)
    (hlast : chain.getLast? = some (last, link))
    (hours : last.shares.contains (P.publicKey env.secretKey).toHex = true) :
    verifyProvenance env last trustedBase = .ok .valid ↔
      ∃ author, last.author = some author ∧
        OwnerIn (trustedBase.getD last).shares author := by
  have hmem : (last, link) ∈ chain := List.mem_of_getLast? hlast
  have hverified := verifySignature_of_verifyChain hchain hsigned (last, link) hmem
  unfold verifyProvenance
  rw [if_pos hours, verifyAuthor_eq_valid_iff (hsigned (last, link) hmem)]
  constructor
  · intro h
    exact h.2
  · intro h
    exact ⟨hverified, h⟩

/-! ## What a sync appends -/

variable [BucketLogProvider σ]

/-- The log gained the entry and nothing else. -/
def GainsEntry (log log' : σ) (id : Uuid) (height : ℕ) (link : Link) : Prop :=
  ∀ id' height' link', Logged log' id' height' link' ↔
    Logged log id' height' link' ∨ (id' = id ∧ height' = height ∧ link' = link)

variable [LawfulBucketLogProvider σ]

section

variable {env : PeerEnv} {bucketId : Uuid} {state : PeerState σ}

theorem appendLog_cases {name : Name} {current : Link} {previous : Option Link}
    {height : ℕ} {published : Bool} :
    (∃ state', (appendLog bucketId name current previous height published).run state =
        .ok () state' ∧ state'.world = state.world ∧
        GainsEntry state.logs state'.logs bucketId height current) ∨
    (∃ error state', (appendLog bucketId name current previous height published).run state =
        .error error state' ∧ SameEntries state.logs state'.logs) := by
  unfold appendLog EStateM.run
  dsimp only
  cases happend : append state.logs bucketId name current previous height published with
  | mk verdict logs =>
      cases verdict with
      | ok _ =>
          left
          exact ⟨_, rfl, rfl, LawfulBucketLogProvider.logged_append happend⟩
      | error error =>
          right
          exact ⟨_, _, rfl, LawfulBucketLogProvider.logged_append_error happend⟩

omit [BucketLogProvider σ] [LawfulBucketLogProvider σ] in
theorem logs_dispatch (job : SyncJob) :
    ((dispatch env job : SyncM σ Unit).run state).state.logs = state.logs := by
  unfold dispatch EStateM.run
  dsimp only
  split_ifs
  · rfl
  · rfl

/-- Applying a chain appends its first manifest or nothing. -/
theorem applyManifestChain_cases (env : PeerEnv) (bucketId : Uuid)
    (state : PeerState σ) {manifests : List (Manifest × Link)} {manifest : Manifest}
    {link : Link} (hhead : manifests.head? = some (manifest, link)) :
    (GainsEntry state.logs
        ((applyManifestChain env bucketId manifests).run state).state.logs bucketId
        manifest.height link) ∨
    (SameEntries state.logs
        ((applyManifestChain env bucketId manifests).run state).state.logs ∧
      ∀ state', (applyManifestChain env bucketId manifests).run state ≠ .ok () state') := by
  unfold applyManifestChain
  rw [hhead]
  dsimp only
  have hcases := @appendLog_cases _ σ _ _ bucketId state manifest.name link
    manifest.previous manifest.height manifest.isPublished
  rcases hcases with ⟨state', happend, -, hgains⟩ | ⟨error, state', happend, hsame⟩
  · left
    rw [EStateM.run_bind_of_ok happend, logs_dispatch]
    exact hgains
  · right
    rw [EStateM.run_bind_of_error happend]
    exact ⟨hsame, by simp⟩

/-- The final step leaves the entries alone or appends the first manifest. -/
theorem verifyAndApply_cases (env : PeerEnv) (bucketId : Uuid)
    (trustedBase : Option Manifest) (manifests : List (Manifest × Link))
    (state : PeerState σ) :
    SameEntries state.logs
        ((verifyAndApply env bucketId trustedBase manifests).run state).state.logs ∨
    ∃ manifest link, manifests.head? = some (manifest, link) ∧
      GainsEntry state.logs
        ((verifyAndApply env bucketId trustedBase manifests).run state).state.logs bucketId
        manifest.height link := by
  have hsame : SameEntries state.logs state.logs := fun _ _ _ => Iff.rfl
  have happly : SameEntries state.logs
        ((applyManifestChain env bucketId manifests).run state).state.logs ∨
      ∃ manifest link, manifests.head? = some (manifest, link) ∧
        GainsEntry state.logs
          ((applyManifestChain env bucketId manifests).run state).state.logs bucketId
          manifest.height link := by
    cases hhead : manifests.head? with
    | none =>
        left
        unfold applyManifestChain
        rw [hhead]
        exact hsame
    | some first =>
        rcases applyManifestChain_cases env bucketId state hhead with h | h
        · exact Or.inr ⟨first.1, first.2, rfl, h⟩
        · exact Or.inl h.1
  unfold verifyAndApply
  cases manifests.getLast? with
  | none => exact Or.inl hsame
  | some latest =>
      dsimp only
      cases verifyProvenance env latest.1 trustedBase with
      | error error => exact Or.inl hsame
      | ok result =>
          cases result with
          | notAuthorized => exact Or.inl hsame
          | valid => exact happly
          | unsignedLegacy => exact happly

end

/-! ## Chain of custody -/

/-- The manifests a job looks at carry an author and a signature. -/
def AllSigned (manifestAt : Link → Option Manifest) (target : Link) : Prop :=
  ∀ link manifest, OnChain manifestAt target link →
    manifestAt link = some manifest → manifest.isSigned = true

/-- The entry's manifest is signed by an owner of its predecessor; a manifest
without predecessor vouches for itself. -/
def InCustody (manifestAt : Link → Option Manifest) (height : ℕ) (link : Link) :
    Prop :=
  ∃ manifest, manifestAt link = some manifest ∧ manifest.height = height ∧
    match manifest.previous with
    | none => Authorized manifest.shares manifest
    | some previous => ∃ predecessor, manifestAt previous = some predecessor ∧
        Authorized predecessor.shares manifest

omit [BucketLogProvider σ] [LawfulBucketLogProvider σ] in
theorem loadTrustedBase_cases (env : PeerEnv) (peerIds : List PublicKey)
    (stopLink : Option Link) (state : PeerState σ) :
    (∃ error, (loadTrustedBase stopLink).run state = .error error state) ∨
    ∃ base, (loadTrustedBase stopLink).run state = .ok base state ∧
      base = stopLink.bind (visibleManifest env peerIds state) ∧
      (stopLink.isSome = true → base.isSome = true) := by
  unfold loadTrustedBase
  cases stopLink with
  | none => exact Or.inr ⟨none, rfl, rfl, by simp⟩
  | some link =>
      dsimp only
      cases hread : (getManifest link).run state with
      | error error state' =>
          have hstate : state' = state := by
            unfold getManifest EStateM.run at hread
            dsimp only at hread
            split at hread
            · contradiction
            · cases hread
              rfl
          rw [EStateM.run_bind_of_error hread, hstate]
          exact Or.inl ⟨error, rfl⟩
      | ok manifest state' =>
          obtain ⟨hmanifest, hstate⟩ := visibleManifest_of_getManifest env peerIds hread
          rw [EStateM.run_bind_of_ok hread, hstate]
          exact Or.inr ⟨some manifest, rfl, hmanifest.symm, by simp⟩

omit [BucketLogProvider σ] [LawfulBucketLogProvider σ] in
theorem downloadManifestChain_cases (env : PeerEnv) (fuel : ℕ) (startLink : Link)
    (stopLink : Option Link) (peerIds : List PublicKey)
    (trustedBase : Option Manifest) (state : PeerState σ) :
    (∃ error state', (downloadManifestChain env fuel startLink stopLink peerIds
        trustedBase).run state = .error error state' ∧
        SameView env peerIds state state') ∨
    ∃ chain state', (downloadManifestChain env fuel startLink stopLink peerIds
        trustedBase).run state = .ok chain.reverse state' ∧
      SameView env peerIds state state' ∧
      Walk (visibleManifest env peerIds state) stopLink startLink chain ∧
      verifyChain trustedBase chain.reverse = .ok () := by
  have hview := sameView_downloadManifests env stopLink peerIds fuel startLink state
  unfold downloadManifestChain
  cases hdownload : (downloadManifests env stopLink peerIds fuel startLink).run state with
  | error error state' =>
      rw [hdownload] at hview
      rw [EStateM.run_bind_of_error hdownload]
      exact Or.inl ⟨error, state', rfl, hview⟩
  | ok chain state' =>
      rw [hdownload] at hview
      rw [EStateM.run_bind_of_ok hdownload]
      dsimp only
      cases hchain : verifyChain trustedBase chain.reverse with
      | error error => exact Or.inl ⟨_, state', rfl, hview⟩
      | ok _ =>
          exact Or.inr ⟨chain, state', rfl, hview, walk_of_downloadManifests hdownload,
            hchain⟩

/-- The oldest manifest of an accepted walk is in custody. -/
theorem inCustody_of_walk {manifestAt : Link → Option Manifest}
    {stopLink : Option Link} {target link : Link} {manifest : Manifest}
    {chain : List (Manifest × Link)}
    (hwalk : Walk manifestAt stopLink target chain)
    (hstop : ∀ ancestor, stopLink = some ancestor → OnChain manifestAt target ancestor)
    (hbase : stopLink.isSome = true → (stopLink.bind manifestAt).isSome = true)
    (hsigned : AllSigned manifestAt target)
    (hchain : verifyChain (stopLink.bind manifestAt) chain.reverse = .ok ())
    (holdest : chain.getLast? = some (manifest, link)) :
    InCustody manifestAt manifest.height link := by
  have hmem : (manifest, link) ∈ chain := List.mem_of_getLast? holdest
  have hmanifest : manifestAt link = some manifest := hwalk.manifestAt_of_mem hmem
  have hprevious : manifest.previous = stopLink :=
    hwalk.previous_of_getLast? hstop holdest
  have hauthorized : Authorized ((stopLink.bind manifestAt).getD manifest).shares
      manifest := by
    apply authorized_of_verifyChain hchain
    · rw [List.head?_reverse]
      exact holdest
    · exact hsigned link manifest (hwalk.onChain_of_mem hmem) hmanifest
  refine ⟨manifest, hmanifest, rfl, ?_⟩
  rw [hprevious]
  cases stopLink with
  | none => exact hauthorized
  | some ancestor =>
      obtain ⟨predecessor, hpredecessor⟩ := Option.isSome_iff_exists.mp (hbase rfl)
      rw [hpredecessor] at hauthorized
      exact ⟨predecessor, hpredecessor, hauthorized⟩

theorem inCustody_of_executeFrom (env : PeerEnv) (fuel : ℕ) (job : SyncBucketJob)
    (state : PeerState σ) (commonAncestor : Option (Link × ℕ))
    (hancestor : ∀ ancestor, commonAncestor.map Prod.fst = some ancestor →
      OnChain (visibleManifest env job.target.peerIds state) job.target.link ancestor)
    (hsigned : AllSigned (visibleManifest env job.target.peerIds state)
      job.target.link) {id : Uuid} {height : ℕ} {link : Link}
    (hafter : Logged ((executeFrom env fuel job commonAncestor).run state).state.logs id
      height link) :
    Logged state.logs id height link ∨ (id = job.bucketId ∧
      InCustody (visibleManifest env job.target.peerIds state) height link) := by
  unfold executeFrom at hafter
  rcases loadTrustedBase_cases env job.target.peerIds
      (commonAncestor.map Prod.fst) state with ⟨error, hload⟩ | ⟨base, hload, hbase, hsome⟩
  · rw [EStateM.run_bind_of_error hload] at hafter
    exact Or.inl hafter
  · rw [EStateM.run_bind_of_ok hload] at hafter
    rcases downloadManifestChain_cases env fuel job.target.link
        (commonAncestor.map Prod.fst) job.target.peerIds base state with
      ⟨error, state', hdownload, hview⟩ | ⟨chain, state', hdownload, hview, hwalk, hchain⟩
    · rw [EStateM.run_bind_of_error hdownload, EStateM.Result.state_error, hview.logs] at hafter
      exact Or.inl hafter
    · rw [EStateM.run_bind_of_ok hdownload] at hafter
      rcases verifyAndApply_cases env job.bucketId base chain.reverse state' with
        hsame | ⟨manifest, first, hfirst, hgains⟩
      · rw [hsame, hview.logs] at hafter
        exact Or.inl hafter
      · rw [hgains, hview.logs] at hafter
        rcases hafter with hbefore | ⟨rfl, rfl, rfl⟩
        · exact Or.inl hbefore
        · right
          rw [List.head?_reverse] at hfirst
          rw [hbase] at hchain hsome
          exact ⟨rfl, inCustody_of_walk hwalk hancestor hsome hsigned hchain hfirst⟩

theorem inCustody_of_execute (env : PeerEnv) (fuel : ℕ) (job : SyncBucketJob)
    (state : PeerState σ)
    (hsigned : AllSigned (visibleManifest env job.target.peerIds state)
      job.target.link) {id : Uuid} {height : ℕ} {link : Link}
    (hafter : Logged ((execute env fuel job).run state).state.logs id height link) :
    Logged state.logs id height link ∨ (id = job.bucketId ∧
      InCustody (visibleManifest env job.target.peerIds state) height link) := by
  unfold execute at hafter
  rw [EStateM.run_get_bind] at hafter
  cases hexists : BucketLogProvider.exists state.logs job.bucketId with
  | error error =>
      rw [hexists] at hafter
      exact Or.inl hafter
  | ok known =>
      cases known with
      | false =>
          rw [hexists] at hafter
          exact inCustody_of_executeFrom env fuel job state none (by simp) hsigned hafter
      | true =>
          rw [hexists] at hafter
          have hview := sameView_findCommonAncestor env job.bucketId
            job.target.peerIds fuel job.target.link state
          cases hfind : (findCommonAncestor env job.bucketId job.target.peerIds fuel
              job.target.link).run state with
          | error error state' =>
              rw [hfind, EStateM.Result.state_error] at hview
              rw [EStateM.run_bind_of_error hfind, EStateM.Result.state_error,
                hview.logs] at hafter
              exact Or.inl hafter
          | ok found state' =>
              rw [hfind, EStateM.Result.state_ok] at hview
              rw [EStateM.run_bind_of_ok hfind] at hafter
              cases found with
              | none =>
                  rw [← hview.logs]
                  exact Or.inl hafter
              | some ancestor =>
                  have honChain := onChain_of_findCommonAncestor hfind
                  rw [← hview.logs, ← hview.visibleManifest_eq]
                  rw [← hview.visibleManifest_eq] at hsigned honChain
                  apply inCustody_of_executeFrom env fuel job state' (some ancestor)
                    _ hsigned hafter
                  intro link hlink
                  cases hlink
                  exact honChain

/-- Chain of custody: with every manifest behind the target signed, each entry a
sync adds to the log belongs to the job's bucket, and the holder of a key with the
owner role in the shares of the entry's predecessor (in its own shares for a
genesis) has signed it.  Peers may serve any other bytes, and the run may end in an
error. -/
theorem execute_chain_of_custody
    (env : PeerEnv) (fuel : ℕ) (job : SyncBucketJob) (state : PeerState σ)
    (hsigned : AllSigned (visibleManifest env job.target.peerIds state)
      job.target.link)
    (SignedBy : PublicKey → Bytes → Prop)
    (hunforgeable : ∀ key message signature,
      P.verify key message signature = true → SignedBy key message)
    (id : Uuid) (height : ℕ) (link : Link)
    (hafter : Logged ((execute env fuel job).run state).state.logs id height link)
    (hbefore : ¬ Logged state.logs id height link) :
    id = job.bucketId ∧
      InCustody (visibleManifest env job.target.peerIds state) height link ∧
      ∀ manifest, visibleManifest env job.target.peerIds state link = some manifest →
        ∀ author, manifest.author = some author →
          SignedBy author manifest.signableBytes := by
  obtain ⟨hid, hcustody⟩ :=
    (inCustody_of_execute env fuel job state hsigned hafter).resolve_left hbefore
  refine ⟨hid, hcustody, ?_⟩
  intro manifest hmanifest author hauthor
  obtain ⟨found, hfound, -, hauthorized⟩ := hcustody
  rw [hmanifest] at hfound
  cases hfound
  have hverified : manifest.verifySignature = .ok true := by
    cases hprevious : manifest.previous with
    | none =>
        rw [hprevious] at hauthorized
        exact hauthorized.1
    | some previous =>
        rw [hprevious] at hauthorized
        obtain ⟨predecessor, -, hauthorized⟩ := hauthorized
        exact hauthorized.1
  unfold Manifest.verifySignature at hverified
  rw [hauthor] at hverified
  cases hsignature : manifest.signature with
  | none =>
      rw [hsignature] at hverified
      simp at hverified
  | some signature =>
      rw [hsignature] at hverified
      dsimp only at hverified
      split_ifs at hverified with hverify
      exact hunforgeable author manifest.signableBytes signature hverify

end

/-! ## A bucket whose second version adds an owner -/

namespace Reference

def second : Manifest :=
  (((genesis.addShare (Share.newOwner ⟨[]⟩ (primitives.publicKey bob))).setPrevious
    (manifestLink genesis)).setHeight 1).sign alice

def third (author : SecretKey) : Manifest :=
  ((second.setPrevious (manifestLink second)).setHeight 2).sign author

/-- A peer that is served the three versions. -/
def peerEnv (self author : SecretKey) : PeerEnv where
  secretKey := self
  fetch _ hash :=
    ([genesis, second, third author].find?
      (fun manifest => decide ((manifestLink manifest).hash = hash))).map
        manifestCode.encode
  accepts _ _ := true

def emptyPeer : PeerState MemoryBucketLogProvider :=
  ⟨emptyWorld, MemoryBucketLogProvider.new, []⟩

def jobTo (manifest : Manifest) : SyncBucketJob :=
  ⟨⟨7⟩, ⟨manifestLink manifest, manifest.height, [primitives.publicKey alice]⟩⟩

/-- The loop accepts the version signed by the owner added on the way, and the
final check does not. -/
theorem newOwner_rejected :
    let chain := [(second, manifestLink second), (third bob, manifestLink (third bob))]
    verifyChain (some genesis) chain = .ok () ∧
      (∀ entry ∈ chain, entry.1.isSigned = true) ∧
      chain.getLast? = some (third bob, manifestLink (third bob)) ∧
      (third bob).shares.contains
        (primitives.publicKey (peerEnv bob bob).secretKey).toHex = true ∧
      verifyProvenance (peerEnv bob bob) (third bob) (some genesis) =
        .error .authorNotInShares := by
  decide +kernel

theorem oldOwner_accepted :
    verifyProvenance (peerEnv bob alice) (third alice) (some genesis) = .ok .valid := by
  have hfacts : verifyChain (some genesis) [(second, manifestLink second),
        (third alice, manifestLink (third alice))] = .ok () ∧
      (∀ entry ∈ [(second, manifestLink second), (third alice, manifestLink (third alice))],
        entry.1.isSigned = true) ∧
      (third alice).shares.contains
        (primitives.publicKey (peerEnv bob alice).secretKey).toHex = true ∧
      genesis.shares.get? (primitives.publicKey alice).toHex =
        some (Share.newOwner ⟨[]⟩ (primitives.publicKey alice)) := by
    decide +kernel
  obtain ⟨hchain, hsigned, hours, hshare⟩ := hfacts
  apply (verifyProvenance_eq_valid_iff_of_verifyChain (peerEnv bob alice) (some genesis)
    [(second, manifestLink second), (third alice, manifestLink (third alice))]
    (third alice) (manifestLink (third alice)) hchain hsigned rfl hours).mpr
  exact ⟨primitives.publicKey alice, rfl, _, hshare, rfl⟩

theorem genesis_inCustody :
    let visible := visibleManifest (peerEnv alice alice) (jobTo genesis).target.peerIds
      emptyPeer
    ⟨7⟩ = (jobTo genesis).bucketId ∧ InCustody visible 0 (manifestLink genesis) ∧
      ∀ manifest, visible (manifestLink genesis) = some manifest →
        ∀ author, manifest.author = some author →
          ∃ signature,
            primitives.verify author manifest.signableBytes signature = true := by
  have hfacts : visibleManifest (peerEnv alice alice) (jobTo genesis).target.peerIds
        emptyPeer (manifestLink genesis) = some genesis ∧
      manifestLink genesis ∈ ((execute (peerEnv alice alice) 1 (jobTo genesis)).run
        emptyPeer).state.logs.inner.linksAt ⟨7⟩ 0 ∧
      manifestLink genesis ∉ emptyPeer.logs.inner.linksAt ⟨7⟩ 0 ∧
      genesis.isSigned = true := by
    decide +kernel
  obtain ⟨hvisible, hafter, hbefore, hsigned⟩ := hfacts
  apply execute_chain_of_custody (peerEnv alice alice) 1 (jobTo genesis) emptyPeer _
    (fun author message => ∃ signature,
      primitives.verify author message signature = true)
    (fun _ _ signature h => ⟨signature, h⟩)
  · rw [MemoryBucketLogProvider.logged_iff]
    exact hafter
  · rw [MemoryBucketLogProvider.logged_iff]
    exact hbefore
  · intro link manifest hchain hmanifest
    have hlink : manifestLink genesis = link := by
      by_contra hne
      exact hchain.not_genesis hne hvisible rfl
    rw [← hlink, hvisible] at hmanifest
    cases hmanifest
    exact hsigned

end Reference

end JaxFs

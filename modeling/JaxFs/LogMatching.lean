import JaxFs.LogAgreement
import JaxFs.Network

/-!
# Logs that share a version

A link is the hash of its manifest, and the manifest names its predecessor.  The logs of
a network only ever grow by described entries, whatever is sent, lost, repeated or served
and whoever saves, so that two logs with a common entry agree on everything below it.
Peers can therefore differ only above the last version they have in common.
-/

namespace JaxFs

open BucketLogProvider

section

variable [P : Primitives] {σ : Type}

/-! ## Content addressing -/

/-- Two stores that can read a manifest under a link read the same one. -/
theorem getManifestFromBlobs_unique [LawfulPrimitives] {world world' : World} {link : Link}
    {manifest manifest' : Manifest}
    (h : getManifestFromBlobs world.blobs link = .ok manifest)
    (h' : getManifestFromBlobs world'.blobs link = .ok manifest') : manifest = manifest' := by
  have hsome : (world'.blobs link.hash).isSome := by
    cases hblob : world'.blobs link.hash with
    | some data => rfl
    | none => simp [getManifestFromBlobs, hblob] at h'
  have hkeeps : KeepsBlob world.blobs world'.blobs link.hash := keepsBlob_of_isSome hsome
  have hsame := hkeeps.getManifestFromBlobs h
  rw [h'] at hsame
  exact (Except.ok.inj hsame).symm

theorem hash_of_visibleBlob {world : World} {env : PeerEnv} {peerIds : List PublicKey}
    {hash : Hash} {data : Bytes} (h : visibleBlob env peerIds world.blobs hash = some data) :
    P.hash data = hash := by
  unfold visibleBlob at h
  cases hlocal : world.blobs hash with
  | some found =>
      rw [hlocal] at h
      cases h
      exact world.addressed _ _ hlocal
  | none =>
      rw [hlocal] at h
      simpa using (Option.filter_eq_some_iff.mp h).2

/-- Where the blob behind a link is visible, so is the manifest that another store has. -/
theorem visibleManifest_of_served [LawfulPrimitives] {world : World} {env : PeerEnv}
    {peerIds : List PublicKey} {peer : PeerState σ} {link : Link} {manifest : Manifest}
    (h : getManifestFromBlobs world.blobs link = .ok manifest)
    (hserved : (visibleBlob env peerIds peer.world.blobs link.hash).isSome) :
    visibleManifest env peerIds peer link = some manifest := by
  obtain ⟨data, hdata⟩ := Option.isSome_iff_exists.mp hserved
  unfold getManifestFromBlobs at h
  cases hblob : world.blobs link.hash with
  | none => simp [hblob] at h
  | some found =>
      have hfound : found = data := LawfulPrimitives.hash_injective
        ((world.addressed _ _ hblob).trans (hash_of_visibleBlob hdata).symm)
      rw [hblob, hfound] at h
      dsimp only at h
      unfold visibleManifest
      rw [hdata, Option.bind_some]
      cases hdecode : P.decodeManifest data with
      | none => simp [hdecode] at h
      | some stored =>
          rw [hdecode] at h
          exact congrArg some (Except.ok.inj h)

/-- The visible manifest under a link is the one that another store reads. -/
theorem visibleManifest_unique [LawfulPrimitives] {world : World} {link : Link}
    {manifest manifest' : Manifest} {env : PeerEnv} {peerIds : List PublicKey}
    {state : PeerState σ} (h : getManifestFromBlobs world.blobs link = .ok manifest)
    (h' : visibleManifest env peerIds state link = some manifest') : manifest = manifest' := by
  have hserved : (visibleBlob env peerIds state.world.blobs link.hash).isSome := by
    obtain ⟨data, hdata, -⟩ := Option.bind_eq_some_iff.mp h'
    rw [hdata]
    rfl
  rw [visibleManifest_of_served h hserved] at h'
  exact Option.some.inj h'

/-! ## Every peer agrees with its manifests -/

variable [LawfulPrimitives]

omit [LawfulPrimitives] in
theorem Fetched.grows {env : PeerEnv} {peerIds : List PublicKey} {hashes : List Hash}
    {state state' : PeerState σ} (h : Fetched env peerIds hashes state state') :
    Grows state.world state'.world := by
  refine ⟨fun hash data hdata => ?_, h.rng.ge⟩
  rw [h.blobs, visibleBlob_of_stored hdata, hdata, ite_self]

omit [LawfulPrimitives] in
theorem fetched_downloadPins (env : PeerEnv) (pinsLink : Link) (peerIds : List PublicKey)
    (state : PeerState σ) :
    ∃ hashes, Fetched env peerIds hashes state
      ((downloadPins env pinsLink peerIds).run state).state := by
  rcases downloadPins_cases env pinsLink peerIds state with
    ⟨hashes, state', hrun, -, hfetched⟩ | ⟨error, got, state', hrun, -, hfetched⟩
  · rw [hrun]
    exact ⟨_, hfetched⟩
  · rw [hrun]
    exact ⟨_, hfetched⟩

variable [BucketLogProvider σ] [LawfulBucketLogProvider σ] [RootedBucketLogProvider σ]

namespace Network

variable {net : Network σ} {action : NetworkAction} {key : PublicKey}

theorem PeerChange.logExtends {state : PeerState σ} (h : PeerChange net action key state) :
    ∃ source, LogExtends source (net.peer key) state := by
  cases h with
  | queue hqueue hkind =>
      obtain ⟨added, rfl, -⟩ := hqueue
      exact ⟨fun _ _ _ => True, LogExtends.of_logs_eq (Grows.refl _) rfl⟩
  | act haction => exact ⟨_, (net.peers key).logExtends_step _⟩
  | taken haction hjobs =>
      exact ⟨fun _ _ _ => True, LogExtends.of_logs_eq (Grows.refl _) rfl⟩
  | @sync env fuel job rest haction hjobs =>
      have hrun := logExtends_execute env fuel job { net.peer key with jobs := rest }
      exact ⟨_, hrun.after (Grows.refl _) rfl⟩
  | @pins env fuel pinsLink peerIds rest haction hjobs =>
      obtain ⟨hashes, hfetched⟩ := fetched_downloadPins env pinsLink peerIds
        { net.peer key with jobs := rest }
      exact ⟨fun _ _ _ => True, LogExtends.of_logs_eq hfetched.grows hfetched.logs⟩

theorem logExtends_step (net : Network σ) (action : NetworkAction) (key : PublicKey) :
    ∃ source, LogExtends source (net.peer key) ((net.step action).peer key) :=
  (peerChange_step net action key).logExtends

omit [LawfulPrimitives] [LawfulBucketLogProvider σ] [RootedBucketLogProvider σ] in
theorem agrees_peer_start (worlds : PublicKey → World) {logs : PublicKey → σ}
    (hempty : ∀ key id height link, ¬ Logged (logs key) id height link) (key : PublicKey) :
    Agrees ((start worlds logs).peer key) :=
  agrees_start (worlds key) (hempty key)

theorem agrees_peer_run (worlds : PublicKey → World) {logs : PublicKey → σ}
    (hempty : ∀ key id height link, ¬ Logged (logs key) id height link)
    (actions : List NetworkAction) (key : PublicKey) :
    Agrees (((start worlds logs).run actions).peer key) := by
  have hstep : ∀ (net : Network σ) action, (∀ key, Agrees (net.peer key)) → True →
      ∀ key, Agrees ((net.step action).peer key) := by
    intro net action hagrees _ key
    obtain ⟨source, hextends⟩ := net.logExtends_step action key
    exact (hagrees key).extends hextends
  exact @AlongRun.invariant _ _ Network.step (fun _ _ => True)
    (fun net => ∀ key, Agrees (net.peer key)) hstep _ (agrees_peer_start worlds hempty) actions
    (alongRun_of_forall (fun _ _ => trivial) _ actions) key

end Network

/-! ## Common entries -/

omit [LawfulBucketLogProvider σ] [RootedBucketLogProvider σ] in
/-- Agreeing logs with a common entry have it at the same height, and a common entry at
every height below. -/
theorem Agrees.match_below {peer peer' : PeerState σ} (h : Agrees peer) (h' : Agrees peer')
    {id id' : Uuid} {height height' : ℕ} {link : Link}
    (hlogged : Logged peer.logs id height link)
    (hlogged' : Logged peer'.logs id' height' link) :
    height' = height ∧ ∀ below ≤ height, ∃ earlier,
      ancestor peer.world.blobs (height - below) link = some earlier ∧
        Logged peer.logs id below earlier ∧ Logged peer'.logs id' below earlier := by
  induction height generalizing height' link with
  | zero =>
      obtain ⟨manifest, hdescribes⟩ := h id 0 link hlogged
      obtain ⟨manifest', hdescribes'⟩ := h' id' height' link hlogged'
      obtain rfl := getManifestFromBlobs_unique hdescribes.stored hdescribes'.stored
      have hheight : height' = 0 := hdescribes'.atHeight.symm.trans hdescribes.atHeight
      subst hheight
      refine ⟨rfl, fun below hbelow => ?_⟩
      obtain rfl := Nat.le_zero.mp hbelow
      exact ⟨link, rfl, hlogged, hlogged'⟩
  | succ height ih =>
      obtain ⟨manifest, hdescribes⟩ := h id (height + 1) link hlogged
      obtain ⟨manifest', hdescribes'⟩ := h' id' height' link hlogged'
      obtain rfl := getManifestFromBlobs_unique hdescribes.stored hdescribes'.stored
      have hheight : height' = height + 1 :=
        hdescribes'.atHeight.symm.trans hdescribes.atHeight
      subst hheight
      refine ⟨rfl, fun below hbelow => ?_⟩
      rcases hbelow.lt_or_eq with hlt | rfl
      · cases hprevious : manifest.previous with
        | none => exact absurd (hdescribes.genesis hprevious) (Nat.succ_ne_zero height)
        | some previous =>
            -- both logs have the predecessor, at the height below
            obtain ⟨number, hnumber, hbelowLogged⟩ := hdescribes.below previous hprevious
            obtain ⟨number', hnumber', hbelowLogged'⟩ := hdescribes'.below previous hprevious
            cases hnumber
            cases hnumber'
            obtain ⟨-, hall⟩ := ih hbelowLogged hbelowLogged'
            obtain ⟨earlier, hancestor, hfound⟩ := hall below (by omega)
            refine ⟨earlier, ?_, hfound⟩
            rw [show height + 1 - below = (height - below) + 1 by omega,
              ancestor_succ hdescribes.stored, hprevious]
            exact hancestor
      · rw [Nat.sub_self]
        exact ⟨link, rfl, hlogged, hlogged'⟩

/-- In every state that a network of any peers can come to, in any order of any steps, two
peers with a common link have it at the same height, and at every height below they both
have the version that the predecessors of the link lead to. -/
theorem logs_match_below_common_link (worlds : PublicKey → World) (logs : PublicKey → σ)
    (hempty : ∀ key id height link, ¬ Logged (logs key) id height link)
    (actions : List NetworkAction) (key key' : PublicKey) (id id' : Uuid)
    (height height' : ℕ) (link : Link)
    (hlogged : Logged (((Network.start worlds logs).run actions).peer key).logs id height link)
    (hlogged' :
      Logged (((Network.start worlds logs).run actions).peer key').logs id' height' link) :
    let net := (Network.start worlds logs).run actions
    height' = height ∧ ∀ below ≤ height, ∃ earlier,
      ancestor (net.peer key).world.blobs (height - below) link = some earlier ∧
        Logged (net.peer key).logs id below earlier ∧
        Logged (net.peer key').logs id' below earlier :=
  (Network.agrees_peer_run worlds hempty actions key).match_below
    (Network.agrees_peer_run worlds hempty actions key') hlogged hlogged'

end

namespace Reference

def ann : SecretKey := ⟨List.replicate 32 1⟩

def ben : SecretKey := ⟨List.replicate 32 2⟩

def annKey : PublicKey := primitives.publicKey ann

def benKey : PublicKey := primitives.publicKey ben

def annEnv : PeerEnv := ⟨ann, fun _ _ => none, fun _ _ => true⟩

def quiet : Network MemoryBucketLogProvider :=
  Network.start (fun _ => emptyWorld) (fun _ => MemoryBucketLogProvider.new)

/-- A bucket is created, shared and saved. -/
def annSaves : List NetworkAction :=
  [.act annKey (.create annEnv ⟨7⟩ "docs".toList), .act annKey (.mount annEnv ⟨7⟩),
    .act annKey (.operate 0 (.addOwner benKey)), .act annKey (.saveMount annEnv 0 false)]

/-- The peer is served what is stored where the bucket was made. -/
def benEnv : PeerEnv :=
  ⟨ben, fun _ hash => ((quiet.run annSaves).peer annKey).world.blobs hash, fun _ _ => true⟩

/-- The ping of the save arrives and leads to one sync job. -/
def benSyncs : List NetworkAction :=
  [.work annKey annEnv 0, .deliver 0 benEnv, .deliver 2 benEnv, .work benKey benEnv 4]

/-- Another ping leads to another sync job. -/
def benSyncsAgain : List NetworkAction :=
  [.work benKey benEnv 4, .pingPeers annKey annEnv ⟨7⟩, .work annKey annEnv 0,
    .deliver 3 benEnv, .deliver 5 benEnv, .work benKey benEnv 4]

def syncedTwice : List NetworkAction := annSaves ++ benSyncs ++ benSyncsAgain

theorem syncedTwice_links :
    let ofAnn := ((quiet.run syncedTwice).peer annKey).logs.inner.linksAt ⟨7⟩ 1
    let ofBen := ((quiet.run syncedTwice).peer benKey).logs.inner.linksAt ⟨7⟩ 1
    ofAnn.length = 1 ∧ ofBen = ofAnn := by
  decide +kernel

theorem syncedTwice_logs_match :
    let net := quiet.run syncedTwice
    ∃ link genesis, Logged (net.peer annKey).logs ⟨7⟩ 1 link ∧
      Logged (net.peer benKey).logs ⟨7⟩ 1 link ∧
      Logged (net.peer annKey).logs ⟨7⟩ 0 genesis ∧
      Logged (net.peer benKey).logs ⟨7⟩ 0 genesis := by
  have hmatch := logs_match_below_common_link (fun _ => emptyWorld)
    (fun _ => MemoryBucketLogProvider.new)
    (fun _ => MemoryBucketLogProvider.not_logged_new) syncedTwice annKey benKey ⟨7⟩ ⟨7⟩ 1 1
  have hlinks := syncedTwice_links
  unfold quiet at hlinks ⊢
  generalize (Network.start (fun _ => emptyWorld)
    (fun _ => MemoryBucketLogProvider.new)).run syncedTwice = net at *
  obtain ⟨hlength, hsame⟩ := hlinks
  obtain ⟨link, hlink⟩ := List.length_eq_one_iff.mp hlength
  have hann : Logged (net.peer annKey).logs ⟨7⟩ 1 link := by
    rw [MemoryBucketLogProvider.logged_iff, hlink]
    exact List.mem_singleton_self link
  have hben : Logged (net.peer benKey).logs ⟨7⟩ 1 link := by
    rw [MemoryBucketLogProvider.logged_iff, hsame, hlink]
    exact List.mem_singleton_self link
  obtain ⟨-, hbelow⟩ := hmatch link hann hben
  obtain ⟨genesis, -, hgenesis⟩ := hbelow 0 (Nat.zero_le 1)
  exact ⟨link, genesis, hann, hben, hgenesis⟩

end Reference

end JaxFs

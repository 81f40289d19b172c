import JaxFs.CatchUp
import JaxFs.SingleWriter

/-!
# Convergence with one writer

A reader of a bucket with one writer, with sync jobs for the head of the writer at the front
of its queue.  If the versions are served, carry the signature of one owner and the head is
shared with the reader, each turn of the worker copies exactly the next version.  The turns
that a reader needs at least are therefore also enough.
-/

namespace JaxFs

open BucketLogProvider Queue
open ReplicatedHistory (Covers)

section

variable [P : Primitives] {σ : Type}

/-! ## Versions by height -/

/-- Versions with one at each height below the count, as a store shows them. -/
structure Versions (manifestAt : Link → Option Manifest) (links : ℕ → Link)
    (manifests : ℕ → Manifest) (count : ℕ) : Prop where
  visible : ∀ place < count, manifestAt (links place) = some (manifests place)
  height : ∀ place < count, (manifests place).height = place
  genesis : 0 < count → (manifests 0).previous = none
  previous : ∀ place, place + 1 < count → (manifests (place + 1)).previous = some (links place)

/-- The versions from a height on, newest first. -/
def versionsFrom (links : ℕ → Link) (manifests : ℕ → Manifest) (known missing : ℕ) :
    List (Manifest × Link) :=
  ((List.range' known missing).map (fun place => (manifests place, links place))).reverse

/-- The newest version below a height. -/
def newestBelow (links : ℕ → Link) : ℕ → Option Link
  | 0 => none
  | known + 1 => some (links known)

section

variable {manifestAt : Link → Option Manifest} {links : ℕ → Link} {manifests : ℕ → Manifest}
  {count known missing : ℕ}

omit P in
theorem versionsFrom_succ : versionsFrom links manifests known (missing + 1) =
    (manifests (known + missing), links (known + missing)) ::
      versionsFrom links manifests known missing := by
  unfold versionsFrom
  rw [List.range'_1_concat]
  simp

omit P in
@[simp] theorem length_versionsFrom :
    (versionsFrom links manifests known missing).length = missing := by
  simp [versionsFrom]

omit P in
theorem mem_versionsFrom {entry : Manifest × Link} :
    entry ∈ versionsFrom links manifests known missing ↔
      ∃ place, known ≤ place ∧ place < known + missing ∧
        (manifests place, links place) = entry := by
  simp [versionsFrom, and_assoc]

omit P in
/-- The oldest versions come first when the list is read from its end. -/
theorem mem_take_reverse_versionsFrom {entry : Manifest × Link} {turns : ℕ} :
    entry ∈ (versionsFrom links manifests known missing).reverse.take turns ↔
      ∃ place, (known ≤ place ∧ place < known + turns ∧ place < known + missing) ∧
        (manifests place, links place) = entry := by
  unfold versionsFrom
  rw [List.reverse_reverse, ← List.map_take, List.mem_map]
  have hmem : ∀ place, place ∈ (List.range' known missing).take turns ↔
      known ≤ place ∧ place < known + turns ∧ place < known + missing := by
    intro place
    rcases le_total turns missing with hle | hle
    · rw [List.take_range'_of_length_ge hle, List.mem_range'_1]
      omega
    · rw [List.take_range'_of_length_le hle, List.mem_range'_1]
      omega
  simp only [hmem]

omit P in
/-- Versions of different heights have different links. -/
theorem Versions.links_ne (h : Versions manifestAt links manifests count) {place place' : ℕ}
    (hplace : place < place') (hcount : place' < count) : links place ≠ links place' := by
  intro heq
  have hvisible := h.visible place (hplace.trans hcount)
  rw [heq, h.visible place' hcount] at hvisible
  have hheight := h.height place (hplace.trans hcount)
  rw [← Option.some.inj hvisible, h.height place' hcount] at hheight
  omega

omit P in
theorem Versions.newestBelow_ne (h : Versions manifestAt links manifests count)
    (hcount : known + missing < count) :
    newestBelow links known ≠ some (links (known + missing)) := by
  cases known with
  | zero => simp [newestBelow]
  | succ below =>
      intro heq
      exact h.links_ne (by omega : below < below + 1 + missing) hcount (Option.some.inj heq)

omit P in
theorem Versions.walk (h : Versions manifestAt links manifests count)
    (hcount : known + missing < count) :
    Walk manifestAt (newestBelow links known) (links (known + missing))
      (versionsFrom links manifests known (missing + 1)) := by
  induction missing with
  | zero =>
      have hvisible := h.visible known hcount
      cases known with
      | zero => exact Walk.genesis (h.newestBelow_ne hcount) hvisible (h.genesis hcount)
      | succ below =>
          exact Walk.step (h.newestBelow_ne hcount) hvisible (h.previous below hcount)
            (Walk.stopped rfl)
  | succ missing ih =>
      rw [versionsFrom_succ]
      have hrest := ih (by omega)
      exact Walk.step (h.newestBelow_ne hcount) (h.visible _ hcount) (h.previous _ hcount) hrest

omit P in
theorem Versions.rising (h : Versions manifestAt links manifests count)
    (hcount : known + missing ≤ count) :
    (versionsFrom links manifests known missing).IsChain
      (fun newer older => newer.1.height = older.1.height + 1) := by
  induction missing with
  | zero => simp [versionsFrom]
  | succ missing ih =>
      have hrest := ih (by omega)
      rw [versionsFrom_succ]
      cases missing with
      | zero => simp [versionsFrom]
      | succ below =>
          rw [versionsFrom_succ] at hrest ⊢
          refine List.isChain_cons_cons.mpr ⟨?_, hrest⟩
          change (manifests (known + (below + 1))).height = (manifests (known + below)).height + 1
          rw [h.height _ (by omega), h.height _ (by omega)]
          omega

omit P in
theorem getLast?_versionsFrom : (versionsFrom links manifests known (missing + 1)).getLast? =
    some (manifests known, links known) := by
  unfold versionsFrom
  rw [List.getLast?_reverse, List.range'_succ]
  rfl

end

/-! ## What a reader is missing -/

/-- The version carries the signature of an author that owns it. -/
structure SignedByOwner (author : PublicKey) (manifest : Manifest) : Prop where
  signer : manifest.author = some author
  verified : manifest.verifySignature = .ok true
  owned : OwnerIn manifest.shares author

variable [BucketLogProvider σ]

section

variable [LawfulBucketLogProvider σ] [OpenBucketLogProvider σ] {env : PeerEnv}
  {job : SyncBucketJob} {author : PublicKey} {state : PeerState σ} {links : ℕ → Link}
  {manifests : ℕ → Manifest} {known missing : ℕ}

omit [LawfulBucketLogProvider σ] [OpenBucketLogProvider σ] in
theorem Versions.inCustody {manifestAt : Link → Option Manifest} {count : ℕ}
    (h : Versions manifestAt links manifests count)
    (hsigned : ∀ place < count, SignedByOwner author (manifests place)) {place : ℕ}
    (hplace : place < count) : InCustody manifestAt (manifests place).height (links place) := by
  have hauthor := hsigned place hplace
  refine ⟨manifests place, h.visible place hplace, rfl, ?_⟩
  cases place with
  | zero =>
      rw [h.genesis hplace]
      exact ⟨hauthor.verified, author, hauthor.signer, hauthor.owned⟩
  | succ below =>
      rw [h.previous below hplace]
      have hbelow : below < count := by omega
      exact ⟨manifests below, h.visible below hbelow, hauthor.verified, author, hauthor.signer,
        (hsigned below hbelow).owned⟩

/-- A log with the versions below a height misses the others. -/
theorem Versions.missing_of_covers
    (h : Versions (visibleManifest env job.target.peerIds state) links manifests
      (known + (missing + 1)))
    (hlogs : ∀ place link, Logged state.logs job.bucketId place link ↔
      place < known ∧ link = links place)
    (hfresh : known = 0 → BucketLogProvider.exists state.logs job.bucketId = .ok false)
    (hsigned : ∀ place < known + (missing + 1), SignedByOwner author (manifests place))
    (hshared : (manifests (known + missing)).shares.contains
      (P.publicKey env.secretKey).toHex = true)
    (htarget : job.target.link = links (known + missing)) :
    Behind env job author state (newestBelow links known)
      (versionsFrom links manifests known (missing + 1)) := by
  have hcount : known + missing < known + (missing + 1) := by omega
  have hwalk := h.walk hcount
  have hentries : ∀ entry ∈ versionsFrom links manifests known (missing + 1), ∃ place,
      known ≤ place ∧ place < known + (missing + 1) ∧
        (manifests place, links place) = entry := fun entry => mem_versionsFrom.mp
  constructor
  · constructor
    · rw [htarget]
      exact hwalk
    · intro entry hentry
      obtain ⟨place, hle, hlt, rfl⟩ := hentries entry hentry
      obtain ⟨heights, hhas⟩ := OpenBucketLogProvider.has_ok state.logs job.bucketId
        (links place)
      rw [hhas]
      congr 1
      rw [List.eq_nil_iff_forall_not_mem]
      intro height hheight
      have hlogged := (LawfulBucketLogProvider.mem_has hhas height).mp hheight
      obtain ⟨hknown, heq⟩ := (hlogs _ _).mp hlogged
      exact h.links_ne (by omega : height < place) hlt heq.symm
    · intro ancestor hancestor
      cases known with
      | zero => contradiction
      | succ below =>
          cases hancestor
          have hlogged : Logged state.logs job.bucketId below (links below) :=
            (hlogs _ _).mpr ⟨Nat.lt_succ_self below, rfl⟩
          have holdest := hwalk.onChain_of_mem (List.mem_of_getLast? getLast?_versionsFrom)
          obtain ⟨heights, hhas⟩ := OpenBucketLogProvider.has_ok state.logs job.bucketId
            (links below)
          have hheight := (LawfulBucketLogProvider.mem_has hhas _).mpr hlogged
          rw [htarget]
          refine ⟨holdest.tail ⟨_, h.visible (below + 1) (by omega),
            h.previous below (by omega)⟩, ?_⟩
          cases heights with
          | nil => contradiction
          | cons height heights => exact ⟨height, heights, hhas⟩
    · intro hnone
      cases known with
      | zero => exact hfresh rfl
      | succ below => contradiction
    · exact h.rising le_rfl
    · intro entry hentry
      obtain ⟨place, hle, hlt, rfl⟩ := hentries entry hentry
      exact h.inCustody hsigned hlt
    · intro latest hlatest
      rw [versionsFrom_succ] at hlatest
      cases hlatest
      exact hshared
  · intro ancestor hancestor
    cases known with
    | zero => contradiction
    | succ below =>
        cases hancestor
        exact ⟨_, h.visible below (by omega), (hsigned below (by omega)).owned⟩
  · intro entry hentry
    obtain ⟨place, hle, hlt, rfl⟩ := hentries entry hentry
    exact (hsigned place hlt).owned
  · intro latest hlatest
    rw [versionsFrom_succ] at hlatest
    cases hlatest
    exact (hsigned _ hcount).signer
  · intro oldest holdest hprevious
    rw [getLast?_versionsFrom] at holdest
    cases holdest
    cases known with
    | zero => exact h.height 0 (by omega)
    | succ below =>
        rw [h.previous below (by omega)] at hprevious
        contradiction
  · intro oldest holdest previous hprevious
    rw [getLast?_versionsFrom] at holdest
    cases holdest
    cases known with
    | zero =>
        rw [h.genesis (by omega)] at hprevious
        contradiction
    | succ below =>
        rw [h.previous below (by omega)] at hprevious
        cases hprevious
        exact ⟨below, h.height _ (by omega), (hlogs _ _).mpr ⟨Nat.lt_succ_self below, rfl⟩⟩
  · intro entry hentry other hother
    obtain ⟨place, hle, hlt, rfl⟩ := hentries entry hentry
    rw [h.height place hlt] at hother
    have hknown := ((hlogs _ _).mp hother).1
    omega

/-- A log with all versions misses none. -/
theorem Versions.missing_nil
    (h : Versions (visibleManifest env job.target.peerIds state) links manifests (known + 1))
    (hlogs : Logged state.logs job.bucketId known (links known))
    (howned : OwnerIn (manifests known).shares author)
    (htarget : job.target.link = links known) :
    Behind env job author state (some (links known)) [] := by
  constructor
  · constructor
    · exact Walk.stopped (congrArg some htarget.symm)
    · simp
    · intro ancestor hancestor
      cases hancestor
      obtain ⟨heights, hhas⟩ := OpenBucketLogProvider.has_ok state.logs job.bucketId
        (links known)
      have hheight := (LawfulBucketLogProvider.mem_has hhas _).mpr hlogs
      rw [htarget]
      refine ⟨Relation.ReflTransGen.refl, ?_⟩
      cases heights with
      | nil => contradiction
      | cons height heights => exact ⟨height, heights, hhas⟩
    · simp
    · simp
    · simp
    · simp
  · intro ancestor hancestor
    cases hancestor
    exact ⟨_, h.visible known (Nat.lt_succ_self known), howned⟩
  · simp
  · simp
  · simp
  · simp
  · simp

end

/-! ## Turns of the worker -/

namespace Network

/-- A sync job that fills the front of the queue is run turn after turn. -/
theorem syncRuns_turns (env : PeerEnv) (fuel : ℕ) {reader : PublicKey} {job : SyncBucketJob}
    {turns : ℕ} {net : Network σ}
    (hjobs : (net.peer reader).jobs.take turns = List.replicate turns (.syncBucket job)) :
    SyncRuns env fuel job turns (net.peer reader)
      ((net.run (List.replicate turns (.work reader env fuel))).peer reader) := by
  induction turns generalizing net with
  | zero => exact .none _
  | succ turns ih =>
      cases hqueue : (net.peer reader).jobs with
      | nil =>
          rw [hqueue] at hjobs
          contradiction
      | cons front rest =>
          rw [hqueue, List.take_succ_cons, List.replicate_succ] at hjobs
          obtain ⟨rfl, hrest⟩ := List.cons.inj hjobs
          have hpeer : (net.step (.work reader env fuel)).peer reader =
              ((execute env fuel job).run { net.peer reader with jobs := rest }).state := by
            rw [step, work, hqueue]
            dsimp only [executeJob]
            rw [peer_setPeer_self, peer_setPeer_self]
          have hadded : Enqueues SyncJob.IsPins rest
              ((net.step (.work reader env fuel)).peer reader).jobs := by
            rw [hpeer]
            exact jobsRel_execute (enqueues_rules env.accepts _) fuel job
              { net.peer reader with jobs := rest }
          obtain ⟨added, hadded, -⟩ := hadded
          have hlength : turns ≤ rest.length := by
            have hcount := congrArg List.length hrest
            rw [List.length_take, List.length_replicate] at hcount
            omega
          have hnext : ((net.step (.work reader env fuel)).peer reader).jobs.take turns =
              List.replicate turns (.syncBucket job) := by
            rw [hadded, List.take_append_of_le_length hlength, hrest]
          have hruns := ih hnext
          rw [hpeer] at hruns
          exact .next rest hruns

section

variable [LawfulPrimitives] {id : Uuid} {writer : PublicKey} {net : Network σ}
  {state : ReplicatedHistory PublicKey Link}

/-- The history of the writer as a reader sees it to whom all of it is served. -/
theorem Replicates.versions (h : net.Replicates id writer state)
    (hagrees : Agrees (net.peer writer)) (hsome : 0 < state.history.length) {env : PeerEnv}
    {peerIds : List PublicKey} {peer : PeerState σ}
    (hserved : ∀ place link, Logged (net.peer writer).logs id place link →
      (visibleBlob env peerIds peer.world.blobs link.hash).isSome) :
    ∃ (links : ℕ → Link) (manifests : ℕ → Manifest),
      (∀ place < state.history.length, state.history[place]? = some (links place)) ∧
      (∀ place < state.history.length, getManifestFromBlobs
        (net.peer writer).world.blobs (links place) = .ok (manifests place)) ∧
      Versions (visibleManifest env peerIds peer) links manifests state.history.length := by
  have hcovers := h.covers writer
  rw [h.writer] at hcovers
  have hentries : ∀ place, ∃ link manifest, place < state.history.length →
      state.history[place]? = some link ∧ Describes (net.peer writer).world.blobs
        (net.peer writer).logs id place link manifest := by
    have hdescribed : ∀ place < state.history.length, ∃ link manifest,
        state.history[place]? = some link ∧ Describes (net.peer writer).world.blobs
          (net.peer writer).logs id place link manifest := by
      intro place hplace
      have hentry := List.getElem?_eq_getElem hplace
      obtain ⟨manifest, hdescribes⟩ :=
        hagrees id place _ ((hcovers _ _).mpr ⟨hplace, hentry⟩)
      exact ⟨_, manifest, hentry, hdescribes⟩
    intro place
    by_cases hplace : place < state.history.length
    · obtain ⟨link, manifest, hentry⟩ := hdescribed place hplace
      exact ⟨link, manifest, fun _ => hentry⟩
    · obtain ⟨link, manifest, -⟩ := hdescribed 0 hsome
      exact ⟨link, manifest, fun hlt => absurd hlt hplace⟩
  choose links manifests hall using hentries
  refine ⟨links, manifests, fun place hplace => (hall place hplace).1,
    fun place hplace => (hall place hplace).2.stored, ?_⟩
  constructor
  · intro place hplace
    obtain ⟨hentry, hdescribes⟩ := hall place hplace
    exact visibleManifest_of_served hdescribes.stored
      (hserved place _ ((hcovers _ _).mpr ⟨hplace, hentry⟩))
  · exact fun place hplace => (hall place hplace).2.atHeight
  · exact fun hzero => (hall 0 hzero).2.previous_eq_none_iff.mpr rfl
  · intro place hplace
    obtain ⟨-, hdescribes⟩ := hall (place + 1) hplace
    cases hprevious : (manifests (place + 1)).previous with
    | none =>
        have hzero := hdescribes.genesis hprevious
        omega
    | some previous =>
        obtain ⟨below, hheight, hbelow⟩ := hdescribes.below previous hprevious
        obtain rfl := Nat.succ.inj hheight
        have hentry := (hall place (by omega)).1
        rw [((hcovers _ _).mp hbelow).2] at hentry
        exact hentry

end

end Network

/-- What the sync jobs of a reader for the head of the writer need: they are for the newest
version, all versions are served to the reader and carry the signature of one owner of all of
them, the newest is shared with the reader, and a bucket without versions is unknown to it. -/
structure Network.Ready (net : Network σ) (writer reader author : PublicKey) (env : PeerEnv)
    (job : SyncBucketJob) : Prop where
  head : Logged (net.peer writer).logs job.bucketId job.target.height job.target.link
  top : ∀ other, ¬ Logged (net.peer writer).logs job.bucketId (job.target.height + 1) other
  served : ∀ place link, Logged (net.peer writer).logs job.bucketId place link →
    (visibleBlob env job.target.peerIds (net.peer reader).world.blobs link.hash).isSome
  signed : ∀ place link manifest, Logged (net.peer writer).logs job.bucketId place link →
    getManifestFromBlobs (net.peer writer).world.blobs link = .ok manifest →
      SignedByOwner author manifest
  shared : ∀ manifest,
    getManifestFromBlobs (net.peer writer).world.blobs job.target.link = .ok manifest →
      manifest.shares.contains (P.publicKey env.secretKey).toHex = true
  fresh : (∀ place link, ¬ Logged (net.peer reader).logs job.bucketId place link) →
    BucketLogProvider.exists (net.peer reader).logs job.bucketId = .ok false

section

variable [LawfulPrimitives] [LawfulBucketLogProvider σ] [OpenBucketLogProvider σ]

/-- The versions below `known` are in the log, the others are missing. -/
theorem Network.Ready.missing {net : Network σ} {writer reader author : PublicKey}
    {env : PeerEnv} {job : SyncBucketJob} {state : ReplicatedHistory PublicKey Link}
    (h : net.Ready writer reader author env job)
    (hreplicates : net.Replicates job.bucketId writer state)
    (hagrees : Agrees (net.peer writer)) :
    ∃ stop chain, Behind env job author (net.peer reader) stop chain ∧
      chain.length ≤ job.target.height + 1 ∧
      ∀ turns place link, (∃ entry ∈ chain.reverse.take turns,
          entry.1.height = place ∧ entry.2 = link) ↔
        state.known reader ≤ place ∧ place < state.known reader + turns ∧
          state.history[place]? = some link := by
  have hcovers := hreplicates.covers writer
  rw [hreplicates.writer] at hcovers
  have hhead := (hcovers _ _).mp h.head
  have hlength : state.history.length = job.target.height + 1 := by
    by_contra hne
    have hlt : job.target.height + 1 < state.history.length := by omega
    exact h.top _ ((hcovers _ _).mpr ⟨hlt, List.getElem?_eq_getElem hlt⟩)
  obtain ⟨links, manifests, hlinks, hstored, hversions⟩ :=
    hreplicates.versions hagrees (by omega) h.served
  rw [hlength] at hlinks hstored hversions
  have htarget : job.target.link = links job.target.height := by
    have hentry := hlinks job.target.height (by omega)
    rw [hhead.2] at hentry
    exact Option.some.inj hentry
  have hsigned : ∀ place < job.target.height + 1, SignedByOwner author (manifests place) := by
    intro place hplace
    have hentry := (hcovers place (links place)).mpr ⟨by omega, hlinks place hplace⟩
    exact h.signed place _ _ hentry (hstored place hplace)
  have hknown := hreplicates.sound reader
  have hreader : ∀ place link, Logged (net.peer reader).logs job.bucketId place link ↔
      place < state.known reader ∧ link = links place := by
    intro place link
    rw [hreplicates.covers reader place link]
    refine and_congr_right (fun hplace => ?_)
    rw [hlinks place (by omega), Option.some.injEq, eq_comm]
  rcases hknown.eq_or_lt with hall | hbehind
  · -- the reader has the whole history
    refine ⟨_, [], hversions.missing_nil ?_ (hsigned _ (by omega)).owned htarget, by simp, ?_⟩
    · exact (hreader _ _).mpr ⟨by omega, rfl⟩
    · intro turns place link
      refine iff_of_false (by simp) ?_
      rintro ⟨hle, -, hentry⟩
      rw [List.getElem?_eq_none (by omega)] at hentry
      contradiction
  · have hle : state.known reader ≤ job.target.height := by omega
    obtain ⟨missing, hmissing⟩ := Nat.exists_eq_add_of_le hle
    have hcount : job.target.height + 1 = state.known reader + (missing + 1) := by omega
    rw [hcount] at hversions hsigned
    rw [hmissing] at htarget
    have hshared := h.shared (manifests (state.known reader + missing))
    rw [htarget] at hshared
    refine ⟨_, _, hversions.missing_of_covers hreader ?_ hsigned
      (hshared (hstored _ (by omega))) htarget, ?_, ?_⟩
    · intro hzero
      apply h.fresh
      intro place link hlogged
      have hlt := ((hreader _ _).mp hlogged).1
      omega
    · rw [length_versionsFrom]
      omega
    · intro turns place link
      constructor
      · rintro ⟨entry, hentry, rfl, rfl⟩
        obtain ⟨place, hplace, rfl⟩ := mem_take_reverse_versionsFrom.mp hentry
        dsimp only
        rw [hversions.height place (by omega)]
        exact ⟨hplace.1, hplace.2.1, hlinks place (by omega)⟩
      · rintro ⟨hle, hlt, hentry⟩
        have hplace := (List.getElem?_eq_some_iff.mp hentry).1
        rw [hlinks place (by omega)] at hentry
        refine ⟨(manifests place, links place), mem_take_reverse_versionsFrom.mpr
          ⟨place, ⟨hle, hlt, by omega⟩, rfl⟩, hversions.height place (by omega), ?_⟩
        exact Option.some.inj hentry

end

section

variable [LawfulPrimitives] [LawfulBucketLogProvider σ] [RootedBucketLogProvider σ]
  [OpenBucketLogProvider σ]

/-- In a network with one writer, a reader whose queue begins with sync jobs for the head of
the writer copies the next version in each turn: a log with the versions of the writer below
`known` has those below `known + turns` afterwards, and no others. -/
theorem reader_catches_up (worlds : PublicKey → World) (logs : PublicKey → σ)
    (hempty : ∀ key id height link, ¬ Logged (logs key) id height link)
    (writer reader author : PublicKey) (actions : List NetworkAction) (env : PeerEnv)
    (fuel turns : ℕ) (job : SyncBucketJob)
    (hwriter : AlongRun Network.step (Network.OneWriter job.bucketId writer)
      (Network.start worlds logs) actions)
    (hready : ((Network.start worlds logs).run actions).Ready writer reader author env job)
    (hjobs : (((Network.start worlds logs).run actions).peer reader).jobs.take turns =
      List.replicate turns (.syncBucket job))
    (hfuel : job.target.height + 1 < fuel) :
    let net := (Network.start worlds logs).run actions
    let net' := net.run (List.replicate turns (.work reader env fuel))
    ∃ known, ∀ place link,
      (Logged (net.peer reader).logs job.bucketId place link ↔
        Logged (net.peer writer).logs job.bucketId place link ∧ place < known) ∧
      (Logged (net'.peer reader).logs job.bucketId place link ↔
        Logged (net.peer writer).logs job.bucketId place link ∧ place < known + turns) := by
  obtain ⟨events, hreplicates, -⟩ :=
    Network.exists_replicates worlds logs hempty job.bucketId writer hwriter
  have hagrees := Network.agrees_peer_run worlds hempty actions writer
  generalize (Network.start worlds logs).run actions = net at *
  generalize ReplicatedHistory.run ⟨[], fun _ => 0⟩ events = state at *
  dsimp only
  obtain ⟨stop, chain, hmissing, hlength, htaken⟩ := hready.missing hreplicates hagrees
  have hruns := Network.syncRuns_turns env fuel hjobs
  have hlogged := hmissing.logged_runs (by omega) hruns
  have hcovers := hreplicates.covers writer
  rw [hreplicates.writer] at hcovers
  have hhas : ∀ place link, state.history[place]? = some link → place < state.history.length :=
    fun place link hentry => (List.getElem?_eq_some_iff.mp hentry).1
  refine ⟨state.known reader, fun place link => ⟨?_, ?_⟩⟩
  · rw [hreplicates.covers reader, hcovers]
    have hsound := hreplicates.sound reader
    constructor
    · exact fun h => ⟨⟨h.1.trans_le hsound, h.2⟩, h.1⟩
    · exact fun h => ⟨h.2, h.1.2⟩
  · rw [hlogged, htaken, hreplicates.covers reader, hcovers]
    constructor
    · rintro (⟨hplace, hentry⟩ | ⟨-, -, hplace, hentry⟩)
      · exact ⟨⟨hhas place link hentry, hentry⟩, by omega⟩
      · exact ⟨⟨hhas place link hentry, hentry⟩, hplace⟩
    · rintro ⟨⟨-, hentry⟩, hplace⟩
      by_cases hold : place < state.known reader
      · exact Or.inl ⟨hold, hentry⟩
      · exact Or.inr ⟨rfl, by omega, hplace, hentry⟩

end

end

deriving instance DecidableEq for SyncTarget, SyncBucketJob, SyncJob

instance (shares : Shares) (key : PublicKey) : Decidable (OwnerIn shares key) :=
  decidable_of_iff ((shares.get? key.toHex).map Share.role = some .owner)
    (by simp [OwnerIn, Option.map_eq_some_iff])

instance [P : Primitives] (author : PublicKey) (manifest : Manifest) :
    Decidable (SignedByOwner author manifest) :=
  decidable_of_iff (manifest.author = some author ∧ manifest.verifySignature = .ok true ∧
      OwnerIn manifest.shares author)
    ⟨fun h => ⟨h.1, h.2.1, h.2.2⟩, fun h => ⟨h.signer, h.verified, h.owned⟩⟩

namespace Reference

/-- The job that is queued when the ping has arrived. -/
def benJob : SyncBucketJob :=
  match ((quiet.run benIsTold).peer benKey).jobs with
  | .syncBucket job :: _ => job
  | _ => ⟨⟨7⟩, ⟨Link.default, 0, []⟩⟩

theorem benJob_queued :
    ((quiet.run benIsTold).peer benKey).jobs.take 1 = [.syncBucket benJob] ∧
      benJob.bucketId = ⟨7⟩ ∧ benJob.target.height = 1 := by
  decide +kernel

theorem benJob_versions :
    let ann := (quiet.run benIsTold).peer annKey
    let ben := (quiet.run benIsTold).peer benKey
    benJob.target.link ∈ ann.logs.inner.linksAt ⟨7⟩ 1 ∧
      ((ann.logs.inner.entries.get? ⟨7⟩).map (fun bucket => bucket.toList.map Prod.fst) =
        some [0, 1]) ∧
      (∀ place ∈ [0, 1], ∀ link ∈ ann.logs.inner.linksAt ⟨7⟩ place,
        (visibleBlob benEnv benJob.target.peerIds ben.world.blobs link.hash).isSome ∧
        ∀ manifest ∈ (getManifestFromBlobs ann.world.blobs link).toOption,
          SignedByOwner annKey manifest) ∧
      (∀ manifest ∈ (getManifestFromBlobs ann.world.blobs benJob.target.link).toOption,
        manifest.shares.contains benKey.toHex = true) ∧
      BucketLogProvider.exists ben.logs ⟨7⟩ = .ok false := by
  decide +kernel

theorem benIsTold_ready : (quiet.run benIsTold).Ready annKey benKey annKey benEnv benJob := by
  obtain ⟨-, hid, hheight⟩ := benJob_queued
  obtain ⟨hhead, hheights, hversions, hshared, hunknown⟩ := benJob_versions
  have hplace : ∀ place link, Logged ((quiet.run benIsTold).peer annKey).logs ⟨7⟩ place link →
      place ∈ [0, 1] := by
    intro place link hlogged
    by_contra hnot
    exact MemoryBucketLogProvider.not_logged_of_heights hheights hnot link hlogged
  constructor
  · rw [hid, hheight]
    exact MemoryBucketLogProvider.logged_iff.mpr hhead
  · rw [hid, hheight]
    exact MemoryBucketLogProvider.not_logged_of_heights hheights (by decide)
  · rw [hid]
    intro place link hlogged
    exact (hversions place (hplace place link hlogged) link
      (MemoryBucketLogProvider.logged_iff.mp hlogged)).1
  · rw [hid]
    intro place link manifest hlogged hstored
    refine (hversions place (hplace place link hlogged) link
      (MemoryBucketLogProvider.logged_iff.mp hlogged)).2 manifest ?_
    rw [hstored]
    rfl
  · intro manifest hstored
    refine hshared manifest ?_
    rw [hstored]
    rfl
  · rw [hid]
    exact fun _ => hunknown

theorem benIsTold_oneWriter :
    AlongRun Network.step (Network.OneWriter ⟨7⟩ annKey) quiet benIsTold := by
  have hsave := oneWriter_saveMount annEnv 0 false annSaves_heights
  exact ⟨annCreates_oneWriter, trivial, trivial, hsave, trivial, trivial, trivial, trivial⟩

theorem benIsTold_catches_up :
    let net := quiet.run benIsTold
    let net' := net.run (List.replicate 1 (.work benKey benEnv 3))
    ∃ known, ∀ place link,
      (Logged (net.peer benKey).logs benJob.bucketId place link ↔
        Logged (net.peer annKey).logs benJob.bucketId place link ∧ place < known) ∧
      (Logged (net'.peer benKey).logs benJob.bucketId place link ↔
        Logged (net.peer annKey).logs benJob.bucketId place link ∧ place < known + 1) := by
  have hwriter := benIsTold_oneWriter
  obtain ⟨hqueued, hid, hheight⟩ := benJob_queued
  rw [← hid] at hwriter
  exact reader_catches_up _ _ (fun _ => MemoryBucketLogProvider.not_logged_new) annKey benKey
    annKey benIsTold benEnv 3 1 benJob hwriter benIsTold_ready hqueued (by rw [hheight]; decide)

end Reference

end JaxFs

import JaxFs.PinsCover
import JaxFs.SyncBucketStore

/-!
# Downloading pins

`peer/sync/download_pins.rs` and `download_hash_list` of the blob store.  The list of
the pins comes first, then the hashes on it in their order, and the first one that no
peer serves ends the job; what has been downloaded until then stays.  Nothing is asked
of the peers for a hash that is stored already, so that a job that was completed once
needs no peers any more, and a version whose pins were downloaded can be read without
them.
-/

namespace JaxFs

section

variable [P : Primitives] {σ : Type}

/-- The raw link to a hash, under which a download is reported. -/
def rawLink (hash : Hash) : Link := ⟨ldRawCodec, hash⟩

def stat (hash : Hash) : SyncM σ Bool := fun state =>
  .ok (state.world.blobs hash).isSome state

/-- `read_hash_list` as a step of the peer. -/
def readPinsList (listHash : Hash) : SyncM σ (List Hash) := fun state =>
  match readHashList state.world.blobs listHash with
  | .ok hashes => .ok hashes state
  | .error _ => .error .blobs state

/-- The loop over the hashes of the list. -/
def downloadHashes (env : PeerEnv) (peerIds : List PublicKey) : List Hash → SyncM σ Unit
  | [] => pure ()
  | hash :: rest => do
      downloadHash env (rawLink hash) peerIds
      downloadHashes env peerIds rest

def downloadHashList (env : PeerEnv) (hashListHash : Hash) (peerIds : List PublicKey) :
    SyncM σ Unit := do
  downloadHash env (rawLink hashListHash) peerIds
  let found ← stat hashListHash
  if found then do
    let hashes ← readPinsList hashListHash
    downloadHashes env peerIds hashes
  else throw .blobs

/-- `execute` of a pins job. -/
def downloadPins (env : PeerEnv) (pinsLink : Link) (peerIds : List PublicKey) :
    SyncM σ Unit :=
  downloadHashList env pinsLink.hash peerIds

/-! ## What was fetched -/

/-- The blobs of the hashes are now what was visible of them, and that is all that has
changed. -/
structure Fetched (env : PeerEnv) (peerIds : List PublicKey) (hashes : List Hash)
    (state state' : PeerState σ) : Prop where
  logs : state'.logs = state.logs
  jobs : state'.jobs = state.jobs
  rng : state'.world.rng = state.world.rng
  blobs : ∀ hash, state'.world.blobs hash =
    if hash ∈ hashes then visibleBlob env peerIds state.world.blobs hash
    else state.world.blobs hash

section

variable {env : PeerEnv} {peerIds : List PublicKey} {hashes hashes' : List Hash} {hash : Hash}
  {state state' state'' : PeerState σ}

theorem visibleBlob_of_stored {blobs : Blobs} {data : Bytes} (h : blobs hash = some data) :
    visibleBlob env peerIds blobs hash = some data := by
  unfold visibleBlob
  rw [h]

theorem Fetched.nil (state : PeerState σ) : Fetched env peerIds [] state state :=
  ⟨rfl, rfl, rfl, fun hash => by simp⟩

theorem Fetched.visibleBlob_eq (h : Fetched env peerIds hashes state state') :
    visibleBlob env peerIds state'.world.blobs =
      visibleBlob env peerIds state.world.blobs := by
  funext hash
  have hblob := h.blobs hash
  by_cases hmem : hash ∈ hashes
  · rw [if_pos hmem] at hblob
    cases hvisible : visibleBlob env peerIds state.world.blobs hash with
    | some data =>
        rw [hvisible] at hblob
        exact visibleBlob_of_stored hblob
    | none =>
        rw [hvisible] at hblob
        have hlocal : state.world.blobs hash = none := by
          cases hlocal : state.world.blobs hash with
          | none => rfl
          | some data => simp [visibleBlob, hlocal] at hvisible
        rw [← hvisible, visibleBlob, visibleBlob, hblob, hlocal]
  · rw [if_neg hmem] at hblob
    rw [visibleBlob, visibleBlob, hblob]

theorem Fetched.append (h : Fetched env peerIds hashes state state')
    (h' : Fetched env peerIds hashes' state' state'') :
    Fetched env peerIds (hashes ++ hashes') state state'' := by
  refine ⟨h'.logs.trans h.logs, h'.jobs.trans h.jobs, h'.rng.trans h.rng, ?_⟩
  intro hash
  rw [h'.blobs, h.visibleBlob_eq, h.blobs]
  by_cases hlater : hash ∈ hashes'
  · simp [hlater]
  · simp [hlater]

/-- A download brings the visible blob, or fails and changes nothing. -/
theorem downloadHash_cases (env : PeerEnv) (link : Link) (peerIds : List PublicKey)
    (state : PeerState σ) :
    (∃ state', (downloadHash env link peerIds).run state = .ok () state' ∧
      (visibleBlob env peerIds state.world.blobs link.hash).isSome ∧
      Fetched env peerIds [link.hash] state state') ∨
    ((downloadHash env link peerIds).run state = .error (.download link) state ∧
      visibleBlob env peerIds state.world.blobs link.hash = none) := by
  unfold downloadHash EStateM.run
  dsimp only
  cases hlocal : state.world.blobs link.hash with
  | some data =>
      left
      have hvisible : visibleBlob env peerIds state.world.blobs link.hash = some data :=
        visibleBlob_of_stored hlocal
      refine ⟨state, rfl, by rw [hvisible]; rfl, rfl, rfl, rfl, ?_⟩
      intro hash
      by_cases heq : hash = link.hash
      · simp [heq, hlocal, hvisible]
      · simp [heq]
  | none =>
      cases hfetch : env.fetch peerIds link.hash with
      | none =>
          right
          exact ⟨rfl, by simp [visibleBlob, hlocal, hfetch]⟩
      | some data =>
          by_cases hhash : P.hash data = link.hash
          · left
            have hvisible : visibleBlob env peerIds state.world.blobs link.hash = some data := by
              simp [visibleBlob, hlocal, hfetch, Option.filter, hhash]
            simp only [if_pos hhash]
            refine ⟨_, rfl, by rw [hvisible]; rfl, rfl, rfl, rfl, ?_⟩
            intro hash
            rw [World.blobs_store, hhash]
            by_cases heq : hash = link.hash
            · simp [heq, hvisible]
            · simp [heq]
          · right
            simp only [if_neg hhash]
            exact ⟨trivial, by simp [visibleBlob, hlocal, hfetch, Option.filter, hhash]⟩

theorem stored_of_fetched (h : Fetched env peerIds hashes state state') (hmem : hash ∈ hashes) :
    state'.world.blobs hash = visibleBlob env peerIds state.world.blobs hash := by
  rw [h.blobs, if_pos hmem]

/-- The loop fetches every hash, or the ones before the first that is not to be had. -/
theorem downloadHashes_cases (hashes : List Hash) (state : PeerState σ) :
    (∃ state', (downloadHashes env peerIds hashes).run state = .ok () state' ∧
      (∀ hash ∈ hashes, (visibleBlob env peerIds state.world.blobs hash).isSome) ∧
      Fetched env peerIds hashes state state') ∨
    ∃ before missing after state', hashes = before ++ missing :: after ∧
      (downloadHashes env peerIds hashes).run state =
        .error (.download (rawLink missing)) state' ∧
      visibleBlob env peerIds state.world.blobs missing = none ∧
      Fetched env peerIds before state state' := by
  induction hashes generalizing state with
  | nil => exact Or.inl ⟨state, rfl, by simp, Fetched.nil state⟩
  | cons first rest ih =>
      rw [downloadHashes]
      rcases downloadHash_cases env (rawLink first) peerIds state with
        ⟨state', hrun, hvisible, hfetched⟩ | ⟨hrun, hnone⟩
      · rw [EStateM.run_bind_of_ok hrun]
        have hview := hfetched.visibleBlob_eq
        rcases ih state' with ⟨state'', hrest, hall, hlater⟩ |
          ⟨before, missing, after, state'', rfl, hrest, hmissing, hlater⟩
        · left
          refine ⟨state'', hrest, ?_, hfetched.append hlater⟩
          intro hash hhash
          rcases List.mem_cons.mp hhash with rfl | hhash
          · exact hvisible
          · rw [← hview]
            exact hall hash hhash
        · right
          rw [hview] at hmissing
          exact ⟨first :: before, missing, after, state'', rfl, hrest, hmissing,
            hfetched.append hlater⟩
      · right
        exact ⟨[], first, rest, state, rfl, EStateM.run_bind_of_error hrun, hnone,
          Fetched.nil state⟩

end

/-! ## The job -/

/-- The list of the pins and everything on it is stored or served. -/
structure Obtainable (env : PeerEnv) (peerIds : List PublicKey) (blobs : Blobs)
    (pinsLink : Link) (hashes : List Hash) : Prop where
  listed : readHashList (visibleBlob env peerIds blobs) pinsLink.hash = .ok hashes
  visible : ∀ hash ∈ hashes, (visibleBlob env peerIds blobs hash).isSome

section

variable {env : PeerEnv} {peerIds : List PublicKey} {pinsLink : Link}
  {state state' : PeerState σ}

omit P in
theorem readHashList_congr {blobs blobs' : Blobs} {hash : Hash}
    (h : blobs' hash = blobs hash) : readHashList blobs' hash = readHashList blobs hash := by
  unfold readHashList
  rw [h]

theorem run_readPinsList_of_ok {hash : Hash} {hashes : List Hash}
    (h : readHashList state.world.blobs hash = .ok hashes) :
    (readPinsList hash).run state = .ok hashes state := by
  unfold readPinsList EStateM.run
  dsimp only
  rw [h]

/-- What a pins job has done when it ends, in either way. -/
theorem downloadPins_cases (env : PeerEnv) (pinsLink : Link) (peerIds : List PublicKey)
    (state : PeerState σ) :
    (∃ hashes state', (downloadPins env pinsLink peerIds).run state = .ok () state' ∧
      Obtainable env peerIds state.world.blobs pinsLink hashes ∧
      Fetched env peerIds (pinsLink.hash :: hashes) state state') ∨
    ∃ error got state', (downloadPins env pinsLink peerIds).run state = .error error state' ∧
      (∀ hashes, ¬ Obtainable env peerIds state.world.blobs pinsLink hashes) ∧
      Fetched env peerIds got state state' := by
  unfold downloadPins downloadHashList
  rcases downloadHash_cases env (rawLink pinsLink.hash) peerIds state with
    ⟨middle, hrun, hvisible, hfetched⟩ | ⟨hrun, hnone⟩
  · rw [EStateM.run_bind_of_ok hrun]
    have hblob : middle.world.blobs pinsLink.hash =
        visibleBlob env peerIds state.world.blobs pinsLink.hash :=
      stored_of_fetched hfetched List.mem_cons_self
    have hstat : (stat pinsLink.hash).run middle = .ok true middle := by
      unfold stat EStateM.run
      dsimp only
      rw [hblob]
      exact congrArg (fun found => EStateM.Result.ok found middle) hvisible
    rw [EStateM.run_bind_of_ok hstat, if_pos rfl]
    have hread := readHashList_congr hblob
    cases hlist : readHashList middle.world.blobs pinsLink.hash with
    | error fault =>
        right
        have hrest : (readPinsList pinsLink.hash).run middle = .error .blobs middle := by
          unfold readPinsList EStateM.run
          dsimp only
          rw [hlist]
        refine ⟨.blobs, [pinsLink.hash], middle, EStateM.run_bind_of_error hrest, ?_, hfetched⟩
        intro hashes hobtainable
        have hlisted := hobtainable.listed
        rw [← hread, hlist] at hlisted
        contradiction
    | ok hashes =>
        rw [EStateM.run_bind_of_ok (run_readPinsList_of_ok hlist)]
        have hview := hfetched.visibleBlob_eq
        rcases @downloadHashes_cases _ _ env peerIds hashes middle with
          ⟨state', hdone, hall, hlater⟩ | ⟨before, missing, after, state', rfl, hdone, hmissing,
            hlater⟩
        · left
          rw [hview] at hall
          exact ⟨hashes, state', hdone, ⟨hread.symm.trans hlist, hall⟩, hfetched.append hlater⟩
        · right
          refine ⟨_, pinsLink.hash :: before, state', hdone, ?_, hfetched.append hlater⟩
          intro others hobtainable
          have hothers := hread.trans hobtainable.listed
          rw [hlist] at hothers
          have hsome := hobtainable.visible missing (by simp [← Except.ok.inj hothers])
          rw [← hview, hmissing] at hsome
          contradiction
  · right
    refine ⟨_, [], state, EStateM.run_bind_of_error hrun, ?_, Fetched.nil state⟩
    intro hashes hobtainable
    have hlist := hobtainable.listed
    unfold readHashList at hlist
    change visibleBlob env peerIds state.world.blobs pinsLink.hash = none at hnone
    rw [hnone] at hlist
    contradiction

/-- With everything stored the job asks for nothing and changes nothing. -/
theorem run_downloadPins_of_stored {hashes : List Hash}
    (hlist : readHashList state.world.blobs pinsLink.hash = .ok hashes)
    (hstored : ∀ hash ∈ hashes, (state.world.blobs hash).isSome) :
    (downloadPins env pinsLink peerIds).run state = .ok () state := by
  have hlocal : ∀ hash, (state.world.blobs hash).isSome →
      (downloadHash env (rawLink hash) peerIds).run state = .ok () state := by
    intro hash hsome
    obtain ⟨data, hdata⟩ := Option.isSome_iff_exists.mp hsome
    unfold downloadHash EStateM.run
    dsimp only [rawLink]
    rw [hdata]
  have hlistStored : (state.world.blobs pinsLink.hash).isSome := by
    cases hblob : state.world.blobs pinsLink.hash with
    | some data => rfl
    | none => simp [readHashList, hblob] at hlist
  have hloop : (downloadHashes env peerIds hashes).run state = .ok () state := by
    clear hlist
    induction hashes with
    | nil => rfl
    | cons first rest ih =>
        have hfirst := hlocal first (hstored first List.mem_cons_self)
        rw [downloadHashes, EStateM.run_bind_of_ok hfirst]
        exact ih (fun hash hhash => hstored hash (List.mem_cons_of_mem _ hhash))
  have hstat : (stat pinsLink.hash).run state = .ok true state := by
    unfold stat EStateM.run
    dsimp only
    rw [hlistStored]
  unfold downloadPins downloadHashList
  rw [EStateM.run_bind_of_ok (hlocal _ hlistStored), EStateM.run_bind_of_ok hstat, if_pos rfl,
    EStateM.run_bind_of_ok (run_readPinsList_of_ok hlist)]
  exact hloop

/-- A pins job succeeds exactly when its list and everything on the list is stored or
served.  Then all of it is stored, nothing else in the store, the log or the queue has
changed, and a later job for the same pins needs no peer.  A job that fails has at most
stored visible blobs. -/
theorem downloadPins_complete (env : PeerEnv) (pinsLink : Link) (peerIds : List PublicKey)
    (state : PeerState σ) :
    (∃ hashes state', Obtainable env peerIds state.world.blobs pinsLink hashes ∧
      (downloadPins env pinsLink peerIds).run state = .ok () state' ∧
      Fetched env peerIds (pinsLink.hash :: hashes) state state' ∧
      (∀ hash ∈ pinsLink.hash :: hashes, (state'.world.blobs hash).isSome) ∧
      ∀ env' peerIds', (downloadPins env' pinsLink peerIds').run state' = .ok () state') ∨
    ∃ error got state', (∀ hashes, ¬ Obtainable env peerIds state.world.blobs pinsLink hashes) ∧
      (downloadPins env pinsLink peerIds).run state = .error error state' ∧
      Fetched env peerIds got state state' := by
  rcases downloadPins_cases env pinsLink peerIds state with
    ⟨hashes, state', hrun, hobtainable, hfetched⟩ | ⟨error, got, state', hrun, hnot, hfetched⟩
  · left
    have hlistBlob := stored_of_fetched hfetched List.mem_cons_self
    have hlist : readHashList state'.world.blobs pinsLink.hash = .ok hashes :=
      (readHashList_congr hlistBlob).trans hobtainable.listed
    have hpinned : ∀ hash ∈ hashes, (state'.world.blobs hash).isSome := by
      intro hash hhash
      rw [stored_of_fetched hfetched (List.mem_cons_of_mem _ hhash)]
      exact hobtainable.visible hash hhash
    refine ⟨hashes, state', hobtainable, hrun, hfetched, ?_, ?_⟩
    · intro hash hhash
      rcases List.mem_cons.mp hhash with rfl | hhash
      · cases hblob : state'.world.blobs pinsLink.hash with
        | some data => rfl
        | none => simp [readHashList, hblob] at hlist
      · exact hpinned hash hhash
    · intro env' peerIds'
      exact run_downloadPins_of_stored hlist hpinned
  · right
    exact ⟨error, got, state', hnot, hrun, hfetched⟩

end

/-! ## Reading without peers -/

section

variable [LawfulPrimitives] {env : PeerEnv} {peerIds : List PublicKey}
  {reader reader' : PeerState σ}

/-- Two stores with a blob for a hash have the same one. -/
theorem keepsBlob_of_isSome {author world : World} {hash : Hash}
    (hsome : (world.blobs hash).isSome) : KeepsBlob author.blobs world.blobs hash := by
  intro data hdata
  obtain ⟨found, hfound⟩ := Option.isSome_iff_exists.mp hsome
  have hhash := (author.addressed hash data hdata).trans (world.addressed hash found hfound).symm
  rw [hfound, LawfulPrimitives.hash_injective hhash]

theorem downloaded_of_downloadPins {author : World} {version : Version}
    (hstored : version.Stored author.blobs)
    (hmanifest : (reader.world.blobs version.link.hash).isSome)
    (hrun : (downloadPins env version.manifest.pins peerIds).run reader = .ok () reader') :
    Downloaded author.blobs reader'.world.blobs version := by
  rcases downloadPins_cases env version.manifest.pins peerIds reader with
    ⟨hashes, state', hdone, hobtainable, hfetched⟩ | ⟨error, got, state', hfailed, -, -⟩
  · rw [hrun] at hdone
    cases hdone
    have hlistBlob := stored_of_fetched hfetched List.mem_cons_self
    have hlist : readHashList reader'.world.blobs version.manifest.pins.hash = .ok hashes :=
      (readHashList_congr hlistBlob).trans hobtainable.listed
    have hlistSome : (reader'.world.blobs version.manifest.pins.hash).isSome := by
      cases hblob : reader'.world.blobs version.manifest.pins.hash with
      | some data => rfl
      | none => simp [readHashList, hblob] at hlist
    have hpinsList : KeepsBlob author.blobs reader'.world.blobs version.manifest.pins.hash :=
      keepsBlob_of_isSome hlistSome
    have hpins : version.pins = Pins.fromVec hashes := by
      have hread := hpinsList.getPinsFromBlobs hstored.readPins
      unfold getPinsFromBlobs at hread
      obtain ⟨data, hdata⟩ := Option.isSome_iff_exists.mp hlistSome
      rw [hdata, hlist] at hread
      exact (Except.ok.inj hread).symm
    constructor
    · apply keepsBlob_of_isSome
      rw [hfetched.blobs]
      split_ifs
      · obtain ⟨data, hdata⟩ := Option.isSome_iff_exists.mp hmanifest
        rw [visibleBlob_of_stored hdata]
        rfl
      · exact hmanifest
    · exact hpinsList
    · intro hash hhash
      rw [hpins, Pins.fromVec, Pins.mem_extend] at hhash
      have hmem : hash ∈ hashes := hhash.resolve_left KeyedMap.not_mem_empty
      apply keepsBlob_of_isSome
      rw [stored_of_fetched hfetched (List.mem_cons_of_mem _ hmem)]
      exact hobtainable.visible hash hmem
  · rw [hrun] at hfailed
    contradiction

/-- A version of a run of the author, once its manifest and its pins have been downloaded,
is read at the other peer as at the author, whatever that peer stores later. -/
theorem pinned_version_reads_offline (world : World) (actions : List SystemAction)
    (hdirs : AlongRun MountSystem.step (fun system => system.Allows KeepsToDirs)
      (MountSystem.start world) actions) :
    ∀ link ∈ ((MountSystem.start world).run actions).links, ∃ version : Version,
      version.link = link ∧
      version.Stored ((MountSystem.start world).run actions).world.blobs ∧
      ∀ (env : PeerEnv) (peerIds : List PublicKey) (reader reader' : PeerState σ),
        (reader.world.blobs link.hash).isSome →
        (downloadPins env version.manifest.pins peerIds).run reader = .ok () reader' →
        ∀ later, Grows reader'.world later →
          ReadsWhole ((MountSystem.start world).run actions).world.blobs later.blobs version := by
  intro link hlink
  have hholds := MountSystem.holds_run coveredInvariant world hdirs
  obtain ⟨version, rfl, hstored, hcover, -⟩ := hholds.links link hlink
  refine ⟨version, rfl, hstored, ?_⟩
  intro env peerIds reader reader' hmanifest hrun later hgrows
  have hdown := downloaded_of_downloadPins hstored hmanifest hrun
  have hlater : ∀ hash,
      KeepsBlob ((MountSystem.start world).run actions).world.blobs reader'.world.blobs hash →
      KeepsBlob ((MountSystem.start world).run actions).world.blobs later.blobs hash :=
    fun hash hkeeps data hdata => hgrows.blobs hash data (hkeeps data hdata)
  exact hcover.readsWhole hstored ⟨hlater _ hdown.manifest, hlater _ hdown.pinsList,
    fun hash hhash => hlater hash (hdown.pinned hash hhash)⟩

end

end

namespace Reference

/-- A file is added and the version saved. -/
def oneFile : List SystemAction :=
  [.init ⟨7⟩ "docs".toList alice, .operate 0 (.add (absPath ["f".toList]) [1]),
    .operate 0 (.save true)]

/-- Bob is served what is in the world, and has the manifest already. -/
def servedBy (world : World) : PeerEnv :=
  ⟨bob, fun _ hash => world.blobs hash, fun _ _ => true⟩

def withBlob (data : Bytes) : PeerState MemoryBucketLogProvider :=
  ⟨emptyWorld.store data, MemoryBucketLogProvider.new, []⟩

/-- With the manifest stored, the pins of the version behind the link are downloaded. -/
def downloadsPinsOf (world : World) (link : Link) : Bool :=
  match world.blobs link.hash, getManifestFromBlobs world.blobs link with
  | some data, .ok manifest =>
      ((downloadPins (servedBy world) manifest.pins []).run (withBlob data)).okAnd
        (fun _ => true)
  | _, _ => false

theorem downloadsPinsOf_oneFile :
    ((MountSystem.start emptyWorld).run oneFile).links[2]?.map
      (downloadsPinsOf ((MountSystem.start emptyWorld).run oneFile).world) = some true := by
  decide +kernel

theorem oneFile_reads_offline :
    ∃ link version, version.link = link ∧
      ∃ reader : PeerState MemoryBucketLogProvider,
        reader.world.blobs link.hash ≠ none ∧
        ReadsWhole ((MountSystem.start emptyWorld).run oneFile).world.blobs
          reader.world.blobs version := by
  have hdirs : AlongRun MountSystem.step (fun system => system.Allows KeepsToDirs)
      (MountSystem.start emptyWorld) oneFile :=
    ⟨trivial, fun _ _ => trivial, fun _ _ => trivial, trivial⟩
  have hreads := @pinned_version_reads_offline _ MemoryBucketLogProvider _ emptyWorld oneFile
    hdirs
  have hdownloads := downloadsPinsOf_oneFile
  generalize (MountSystem.start emptyWorld).run oneFile = system at *
  obtain ⟨link, hlink, hpins⟩ := Option.map_eq_some_iff.mp hdownloads
  obtain ⟨version, rfl, hstored, hversion⟩ := hreads link (List.mem_of_getElem? hlink)
  unfold downloadsPinsOf at hpins
  rw [hstored.readManifest] at hpins
  cases hblob : system.world.blobs version.link.hash with
  | none => simp [hblob] at hpins
  | some data =>
      rw [hblob] at hpins
      obtain ⟨_, reader', hrun, -⟩ := EStateM.Result.exists_of_okAnd hpins
      have hmanifest : ((withBlob data).world.blobs version.link.hash).isSome := by
        rw [← system.world.addressed _ _ hblob]
        simp [withBlob]
      have hwhole := hversion _ _ _ reader' hmanifest hrun reader'.world (Grows.refl _)
      refine ⟨version.link, version, rfl, reader', ?_, hwhole⟩
      have hdown := downloaded_of_downloadPins hstored hmanifest hrun
      rw [hdown.manifest data hblob]
      simp

end Reference

end JaxFs
